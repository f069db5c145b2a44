import Coins.Fix.Parse
import Coins.Lib.Pieces
import Coins.Quotes.Sent
import Mathlib.Data.List.GetD

/-!
# Lines of FIX messages

What `ok2b.c` and `btcc2b.c` have in common: the line is parsed where it stands, and the fields are
looked for in what `fix_parse` leaves, pieces with a NUL in front of each.
-/

open Coins.Fix Coins.Memory Coins.Numeral Coins.Pieces Coins.Xmemmem

namespace Coins.Quotes

/-- `SOH` of the converters. -/
def bar : Byte := chr '|'

/-- The text from `p` up to the NUL behind it. -/
def str (m : Mem Byte) (p : Int) : List Byte := (m.view p (m.size - p).toNat).takeWhile (· ≠ 0)

/-- `strlen`, for which the NUL is read as well. -/
def strlen (m : Mem Byte) (p : Int) : Mem Byte := m.read p ((str m p).length + 1)

/-- `memcmp`: true if `k` stands at `p`. -/
def memcmp (m : Mem Byte) (p : Int) (k : List Byte) : Mem Byte × Bool :=
  (m.read p k.length, m.view p k.length = k)

/-- The copy of `xmemmem` that points behind the needle. -/
def seek (m : Mem Byte) (hay : Int) (hayz : Nat) (ndl : List Byte) : Mem Byte × Option Int :=
  (m.read hay hayz, (xmemmem (m.view hay hayz) ndl).map fun i : Nat => hay + i + ndl.length)

def tim : List Byte := ascii "52="
def ins : List Byte := ascii "55="
def ccy : List Byte := ascii "15="
def nup : List Byte := ascii "268="
def ety : List Byte := ascii "269="
def prc : List Byte := ascii "270="
def qty : List Byte := ascii "271="

/-- What is printed, and what is returned, if anything is. -/
structure Routed where
  mem : Mem Byte
  out : List (List Byte)
  err : List (List Byte)
  ret : Option Int

/-- The time and the prefix of the line, in front of every record. -/
def stamped (m : Mem Byte) (msg : Parsed) (prfx : Int) (prfz : Nat) : Mem Byte × Option (List Byte) :=
  match seek m msg.msg msg.len (0 :: tim) with
  | (m, none) => (m, none)
  | (m, some on) =>
    match sent (str m on) with
    | none => (strlen m on, none)
    | some t => ((strlen m on).read prfx prfz, some (tvtostr t ++ [tab] ++ m.view prfx prfz))

/-! ## The loop over the entries -/

/-- Where an entry leaves the loop: the pointer, the state and the records. -/
structure Turn (σ : Type) where
  mem : Mem Byte
  on : Int
  state : σ
  out : List (List Byte)

/-- `while ((on = xmemmem(on, eom - on, ety, strlenof(ety))))` -/
def entries {σ : Type} (body : σ → Mem Byte → Int → Turn σ) (eom : Int) : Nat → σ → Mem Byte → Int → Routed
  | 0, _, m, _ => ⟨m, [], [], none⟩
  | fuel + 1, s, m, on =>
    match seek m on ((eom - on) % 2 ^ 64).toNat (0 :: ety) with
    | (m, none) => ⟨m, [], [], some 0⟩
    | (m, some on) =>
      let t := body s m on
      let r := entries body eom fuel t.state t.mem t.on
      ⟨r.mem, t.out ++ r.out, r.err, r.ret⟩

/-! ## `procln` -/

def warning (s : List Byte) : List Byte := ascii "Warning: " ++ s ++ [nl]

def procln_with (route_quote : Mem Byte → Parsed → Int → Nat → Bool → Routed) (m : Mem Byte) (ln : Int)
    (lz : Nat) : Routed :=
  let prfz := match upto tab (m.view ln lz) with
    | some (a, _) => a.length + 1
    | none => 0
  let (m, msg) := parse bar (m.read ln (if prfz = 0 then lz else prfz)) (ln + prfz) (lz - prfz)
  if msg.typ = chr 'W' ∨ msg.typ = chr 'X' then
    let r := route_quote m msg ln prfz (msg.typ = chr 'W')
    ⟨r.mem, r.out, r.err, r.ret.map fun _ => 0⟩
  -- stuff we won't deal with in offline mode
  else if msg.typ = chr 'A' ∨ msg.typ = chr '5' ∨ msg.typ = chr 'V' ∨ msg.typ = chr '0' then
    ⟨m, [], [], some 0⟩
  else if msg.typ = 0 then
    ⟨m.read ln lz, [], [warning (ascii "message buggered"), m.view ln lz], some 0⟩
  else ⟨m, [], [warning (ascii "unsupported message " ++ [msg.typ])], some 0⟩

/-! ## Standing in the text -/

def Reads (m m' : Mem Byte) : Prop := m'.cell = m.cell ∧ m'.size = m.size

/-- From `on` up to the NUL at `eom` there is the rest `a` of a piece, and then the pieces `fs`. -/
structure At (m : Mem Byte) (on eom : Int) (a : List Byte) (fs : List (List Byte)) : Prop where
  text : m.view on (a ++ tail 0 fs).length = a ++ tail 0 fs
  upTo : on + (a ++ tail 0 fs).length = eom
  stop : m.cell eom = 0
  room : eom < m.size
  short : (a ++ tail 0 fs).length < 2 ^ 64
  rest : 0 ∉ a
  pieces : ∀ f ∈ fs, 0 ∉ f

theorem Reads.refl (m : Mem Byte) : Reads m m := ⟨rfl, rfl⟩

theorem Reads.trans {m m' m'' : Mem Byte} (h : Reads m m') (h' : Reads m' m'') : Reads m m'' :=
  ⟨h'.1.trans h.1, h'.2.trans h.2⟩

theorem Reads.read {m m' : Mem Byte} (h : Reads m m') (a : Int) (n : Nat) : Reads m (m'.read a n) := h

theorem Reads.view {m m' : Mem Byte} (h : Reads m m') (a : Int) (n : Nat) : m'.view a n = m.view a n :=
  Mem.view_congr _ _ _ _ fun _ _ _ => by rw [h.1]

@[simp] theorem str_read (m : Mem Byte) (a p : Int) (n : Nat) : str (m.read a n) p = str m p := by
  unfold str
  rw [Mem.view_read, Mem.size_read]

theorem Reads.str {m m' : Mem Byte} (h : Reads m m') (p : Int) : str m' p = str m p := by
  unfold Quotes.str
  rw [h.view, h.2]

namespace At

variable {m m' : Mem Byte} {on eom : Int} {a b : List Byte} {f : List Byte} {fs gs : List (List Byte)}

theorem reads (h : At m on eom a fs) (hr : Reads m m') : At m' on eom a fs where
  text := by rw [hr.view, h.text]
  upTo := h.upTo
  stop := by rw [hr.1, h.stop]
  room := by rw [hr.2]; exact h.room
  short := h.short
  rest := h.rest
  pieces := h.pieces

theorem forward (h : At m on eom a fs) (u : List Byte) (htext : a ++ tail 0 fs = u ++ (b ++ tail 0 gs))
    (hb : 0 ∉ b) (hgs : ∀ g ∈ gs, 0 ∉ g) : At m (on + u.length) eom b gs := by
  have ht := h.text
  have hu := h.upTo
  have hs := h.short
  rw [htext] at ht hu hs
  rw [List.length_append] at hu hs
  refine ⟨?_, by push_cast at hu; omega, h.stop, h.room, by omega, hb, hgs⟩
  rw [List.length_append, Mem.view_append] at ht
  exact (List.append_inj ht (Mem.view_length _ _ _)).2

theorem skip (h : At m on eom (a ++ b) fs) : At m (on + a.length) eom b fs :=
  h.forward a (List.append_assoc _ _ _) (fun hb => h.rest (List.mem_append_right _ hb)) h.pieces

theorem done (h : At m on eom a fs) : At m (on + a.length) eom [] fs :=
  h.forward a rfl List.not_mem_nil h.pieces

theorem next (h : At m on eom [] (f :: fs)) : At m (on + 1) eom f fs :=
  h.forward [0] (by simp) (h.pieces f (by simp)) fun g hg => h.pieces g (List.mem_cons_of_mem _ hg)

theorem whole (h : At m on eom a fs) :
    m.view on ((a ++ tail 0 fs).length + 1) = a ++ tail 0 fs ++ [0] := by
  rw [Mem.view_append, h.text, h.upTo]
  simp [Mem.view, h.stop]

theorem cell (h : At m on eom a fs) (i : Nat) (hi : i ≤ (a ++ tail 0 fs).length) :
    m.cell (on + i) = (a ++ tail 0 fs).getD i 0 := by
  have hw := h.whole
  have hlt : i < (m.view on ((a ++ tail 0 fs).length + 1)).length := by
    rw [Mem.view_length]
    omega
  have hget := Mem.view_getElem m on _ i hlt
  rw [← hget]
  rcases Nat.lt_or_eq_of_le hi with hi | rfl
  · simp only [hw, List.getElem_append_left hi]
    rw [List.getD_eq_getElem _ _ hi]
  · simp only [hw, List.getElem_concat_length]
    rw [List.getD_eq_default _ _ (le_refl _)]

theorem ended (h : At m on eom a fs) : m.view on (a.length + 1) = a ++ [0] := by
  have htake := congrArg (List.take (a.length + 1)) h.whole
  rw [Mem.view_take, List.length_append, Nat.min_eq_left (by omega)] at htake
  rw [htake]
  cases fs with
  | nil => simp
  | cons f fs => simp [List.take_append]

theorem piece (h : At m on eom a fs) : m.view on a.length = a := by
  have htake := congrArg (List.take a.length) h.ended
  rwa [Mem.view_take, Nat.min_eq_left (by omega), List.take_left] at htake

theorem str (h : At m on eom a fs) : str m on = a := by
  have hup := h.upTo
  have hroom := h.room
  rw [List.length_append] at hup
  have hz : (m.size - on).toNat = (a.length + 1) + ((m.size - on).toNat - (a.length + 1)) := by omega
  have hrun : ∀ b ∈ a, (b ≠ 0 : Bool) = true := by
    intro b hb
    exact decide_eq_true fun hz => h.rest (hz ▸ hb)
  unfold Quotes.str
  rw [hz, Mem.view_append, h.ended, List.append_assoc]
  exact takeWhile_run _ a 0 _ hrun (by simp)

theorem no_key (h : At m on eom a fs) (ha : a ≠ []) (k : List Byte) :
    m.view on (0 :: k).length ≠ 0 :: k := by
  obtain ⟨c, cs, rfl⟩ := List.exists_cons_of_ne_nil ha
  intro heq
  have hc := h.cell 0 (Nat.zero_le _)
  have h0 : m.cell on = 0 := (List.cons.inj heq).1
  rw [Int.natCast_zero, add_zero, h0, List.cons_append, List.getD_cons_zero] at hc
  exact h.rest (hc ▸ List.mem_cons_self)

theorem key (h : At m on eom [] (f :: fs)) (k : List Byte) (hk : 0 ∉ k) :
    m.view on (0 :: k).length = 0 :: k ↔ k <+: f := by
  have h0 : m.cell on = 0 := by
    have := h.cell 0 (Nat.zero_le _)
    rwa [Int.natCast_zero, add_zero] at this
  have hend := h.next.ended
  rw [List.length_cons, Mem.view, h0, List.cons.injEq, and_iff_right rfl]
  rcases Nat.lt_or_ge f.length k.length with hlt | hle
  · -- the NUL behind the piece is not in the key
    refine iff_of_false (fun heq => hk ?_) (fun hp => absurd hp.length_le (by omega))
    have htake := congrArg (List.take (f.length + 1)) heq
    rw [Mem.view_take, Nat.min_eq_left (by omega), hend] at htake
    exact List.mem_of_mem_take (htake ▸ List.mem_append_right f (List.mem_singleton_self 0))
  · have htake := congrArg (List.take k.length) hend
    rw [Mem.view_take, Nat.min_eq_left (by omega), List.take_append_of_le_length hle] at htake
    rw [htake, List.prefix_iff_eq_take, eq_comm]

end At

/-! ## Searching and comparing there -/

section
variable {m : Mem Byte} {on eom : Int} {a : List Byte} {fs : List (List Byte)}

theorem seek_none (h : At m on eom a fs) (k : List Byte) (hk : 0 ∉ k) (hz : after k fs = none) (n : Nat)
    (hn : on + n = eom) : seek m on n (0 :: k) = (m.read on n, none) := by
  have hlen : n = (a ++ tail 0 fs).length := by
    have := h.upTo
    omega
  unfold seek
  rw [xmemmem_spec, hlen, h.text, find_none k a fs hk h.rest h.pieces hz]
  rfl

theorem seek_some (h : At m on eom a fs) (k : List Byte) (hk : 0 ∉ k) (v : List Byte)
    (gs : List (List Byte)) (hz : after k fs = some (v, gs)) (n : Nat) (hn : on + n = eom) :
    ∃ on', seek m on n (0 :: k) = (m.read on n, some on') ∧ At m on' eom v gs := by
  have hlen : n = (a ++ tail 0 fs).length := by
    have := h.upTo
    omega
  obtain ⟨u, hu, htext⟩ := find_some k a v fs gs hk h.rest h.pieces hz
  have hsuf := after_suffix k v fs gs hz
  have hv : 0 ∉ v := fun hmem =>
    h.pieces (k ++ v) (hsuf.subset List.mem_cons_self) (List.mem_append_right k hmem)
  have hat := h.forward (u ++ (0 :: k)) htext hv fun g hg => h.pieces g (hsuf.subset (List.mem_cons_of_mem _ hg))
  refine ⟨on + (u ++ (0 :: k)).length, ?_, hat⟩
  have hto : on + ((u ++ (0 :: k)).length : Int) = on + u.length + (0 :: k).length := by
    rw [List.length_append]
    omega
  unfold seek
  rw [xmemmem_spec, hlen, h.text, hu, hto]
  rfl

theorem seek_le {hay : Int} {hayz : Nat} {ndl : List Byte} {m' : Mem Byte} {p : Int}
    (h : seek m hay hayz ndl = (m', some p)) : hay ≤ p := by
  unfold seek at h
  obtain ⟨i, -, rfl⟩ := Option.map_eq_some_iff.mp (Prod.mk.inj h).2
  omega

theorem At.inside (h : At m on eom a fs) (ha : a ≠ []) (k : List Byte) :
    decide (m.view on (0 :: k).length = 0 :: k) = false :=
  decide_eq_false (h.no_key ha k)

theorem At.beside {f : List Byte} (h : At m on eom [] (f :: fs)) (k : List Byte) (hk : 0 ∉ k) :
    decide (m.view on (0 :: k).length = 0 :: k) = (value k f).isSome := by
  cases hv : value k f with
  | none => exact decide_eq_false fun heq => (value_eq_none k f).mp hv ((h.key k hk).mp heq)
  | some v =>
    refine decide_eq_true ((h.key k hk).mpr ?_)
    rw [(value_eq_some k f v).mp hv]
    exact List.prefix_append k v

theorem At.enter {k v : List Byte} (h : At m on eom [] ((k ++ v) :: fs)) :
    At m (on + (0 :: k).length) eom v fs := by
  have := h.next.skip
  rwa [add_assoc, ← Nat.cast_one, ← Nat.cast_add, Nat.add_comm] at this

end

/-! ## The fields of a message -/

/-- The records of the entries in `fs`, less the first so many pieces. `entry` has the value of field
269 and what is behind it, and says how many pieces of that are done with. -/
def records {τ : Type} (entry : τ → List Byte → List (List Byte) → List (List Byte) × Nat × τ) :
    τ → Nat → List (List Byte) → List (List Byte)
  | _, _, [] => []
  | t, k + 1, _ :: fs => records entry t k fs
  | t, 0, f :: fs =>
    match value ety f with
    | none => records entry t 0 fs
    | some v =>
      let e := entry t v fs
      e.1 ++ records entry e.2.2 e.2.1 fs

/-- The tags that are looked at in an entry. -/
def keyed (f : List Byte) : Prop := ety <+: f ∨ ins <+: f ∨ prc <+: f

/-- At the end there is a checksum, and one more piece. -/
def Trailed (fs : List (List Byte)) : Prop := ∃ qs ck e, fs = qs ++ [ascii "10=" ++ ck, e]

/-- The checksum is behind all that is looked at in an entry. -/
def Closed (fs : List (List Byte)) : Prop := ∀ f gs, f :: gs <:+ fs → keyed f → Trailed gs

theorem Trailed.cases {fs : List (List Byte)} (h : Trailed fs) : ∃ f g gs, fs = f :: g :: gs := by
  obtain ⟨qs, ck, e, rfl⟩ := h
  match qs with
  | [] => exact ⟨_, _, _, rfl⟩
  | [_] => exact ⟨_, _, _, rfl⟩
  | _ :: _ :: _ => exact ⟨_, _, _, rfl⟩

theorem Trailed.length {fs : List (List Byte)} (h : Trailed fs) : 4 ≤ (tail 0 fs).length := by
  obtain ⟨qs, ck, e, rfl⟩ := h
  unfold tail ascii
  simp
  omega

section
variable {σ τ : Type} (body : σ → Mem Byte → Int → Turn σ)
  (entry : τ → List Byte → List (List Byte) → List (List Byte) × Nat × τ)

theorem records_skip (t : τ) (k : Nat) (fs : List (List Byte)) :
    records entry t k fs = records entry t 0 (fs.drop k) := by
  induction fs generalizing k with
  | nil => cases k <;> rfl
  | cons f fs ih =>
    cases k with
    | zero => rfl
    | succ k => exact ih k

theorem records_after (t : τ) (fs : List (List Byte)) :
    records entry t 0 fs = match after ety fs with
      | none => []
      | some (v, gs) =>
        (entry t v gs).1 ++ records entry (entry t v gs).2.2 0 (gs.drop (entry t v gs).2.1) := by
  induction fs with
  | nil => rfl
  | cons f fs ih =>
    rw [records, after]
    cases value ety f with
    | none => exact ih
    | some v =>
      simp only
      rw [records_skip]

theorem closed_concat (qs : List (List Byte)) (ck e : List Byte) (he : ¬ keyed e) :
    Closed (qs ++ [ascii "10=" ++ ck, e]) := by
  have hck : ¬ keyed (ascii "10=" ++ ck) := by
    rintro (⟨t, ht⟩ | ⟨t, ht⟩ | ⟨t, ht⟩)
    · exact absurd (List.cons.inj ht).1 (by decide)
    · exact absurd (List.cons.inj ht).1 (by decide)
    · exact absurd (List.cons.inj ht).1 (by decide)
  intro f gs hsuf hkey
  induction qs with
  | nil =>
    rcases List.suffix_cons_iff.mp hsuf with heq | hsuf
    · exact absurd ((List.cons.inj heq).1 ▸ hkey) hck
    · rcases List.suffix_cons_iff.mp hsuf with heq | hsuf
      · exact absurd ((List.cons.inj heq).1 ▸ hkey) he
      · exact absurd (List.suffix_nil.mp hsuf) (List.cons_ne_nil f gs)
  | cons q qs ih =>
    rcases List.suffix_cons_iff.mp hsuf with heq | hsuf
    · exact ⟨qs, ck, e, (List.cons.inj heq).2⟩
    · exact ih hsuf

theorem Closed.suffix {fs gs : List (List Byte)} (h : Closed fs) (hs : gs <:+ fs) : Closed gs :=
  fun f hs' hf => h f hs' (hf.trans hs)

/-- What one turn does: `out` is printed, and the pieces `fs` are left. With `room`, nothing is touched but
the cells from `lo` up to the NUL at `eom`. -/
structure Round (room : Prop) (lo eom : Int) (m : Mem Byte) (on : Int) (b : Turn σ)
    (out fs : List (List Byte)) : Prop where
  reads : Reads m b.mem
  within : room → Mem.Within lo (eom + 1) m b.mem
  out : b.out = out
  at_ : ∃ a, At b.mem b.on eom a fs
  onward : on ≤ b.on

variable (settled room : τ → List Byte → List (List Byte) → Prop)

/-- `room` holds of the entries that the loop comes to. -/
def Roomy : τ → Nat → List (List Byte) → Prop
  | _, _, [] => True
  | t, k + 1, _ :: fs => Roomy t k fs
  | t, 0, f :: fs =>
    match value ety f with
    | none => Roomy t 0 fs
    | some v => room t v fs ∧ Roomy (entry t v fs).2.2 (entry t v fs).2.1 fs

theorem roomy_skip (t : τ) (k : Nat) (fs : List (List Byte)) :
    Roomy entry room t k fs ↔ Roomy entry room t 0 (fs.drop k) := by
  induction fs generalizing k with
  | nil => cases k <;> rfl
  | cons f fs ih =>
    cases k with
    | zero => rfl
    | succ k => exact ih k

theorem roomy_after (t : τ) (fs : List (List Byte)) :
    Roomy entry room t 0 fs ↔ ∀ v gs, after ety fs = some (v, gs) →
      room t v gs ∧ Roomy entry room (entry t v gs).2.2 0 (gs.drop (entry t v gs).2.1) := by
  induction fs with
  | nil => exact ⟨fun _ _ _ h => (nomatch h), fun _ => trivial⟩
  | cons f fs ih =>
    rw [Roomy, after]
    cases value ety f with
    | none => exact ih
    | some v =>
      simp only
      rw [roomy_skip]
      constructor
      · rintro h w gs heq
        obtain ⟨rfl, rfl⟩ := Prod.mk.inj (Option.some.inj heq)
        exact h
      · exact fun h => h v fs rfl

theorem closed_roomy (P : τ → Prop) (hroom : ∀ t v fs, P t → Closed fs → Trailed fs → room t v fs)
    (hP : ∀ t v fs, P t → Closed fs → Trailed fs → P (entry t v fs).2.2) (t : τ) (fs : List (List Byte)) (ht : P t)
    (hc : Closed fs) : Roomy entry room t 0 fs := by
  induction h : fs.length using Nat.strong_induction_on generalizing t fs with
  | _ n ih =>
    rw [roomy_after]
    intro v gs heq
    have hsuf := after_suffix ety v fs gs heq
    have hgs : gs <:+ fs := (List.suffix_cons _ _).trans hsuf
    have hend := hc _ _ hsuf (Or.inl (List.prefix_append ety v))
    have hdrop : gs.drop (entry t v gs).2.1 <:+ gs := List.drop_suffix _ _
    refine ⟨hroom t v gs ht (hc.suffix hgs) hend, ih _ ?_ _ _ (hP t v gs ht (hc.suffix hgs) hend)
      (hc.suffix (hdrop.trans hgs)) rfl⟩
    have h1 := hdrop.length_le
    have h2 := hsuf.length_le
    rw [List.length_cons] at h2
    omega

theorem At.left {m : Mem Byte} {on eom : Int} {a : List Byte} {fs : List (List Byte)} (h : At m on eom a fs) :
    on + (((eom - on) % 2 ^ 64).toNat : Nat) = eom := by
  have := h.upTo
  have := h.short
  omega

theorem entries_roomy (lo eom : Int) (R : Mem Byte → σ → τ → Prop)
    (hbody : ∀ m on s t v fs, At m on eom v fs → lo ≤ on → settled t v fs → R m s t →
      Round (room t v fs) lo eom m on (body s m on) (entry t v fs).1 (fs.drop (entry t v fs).2.1) ∧
        R (body s m on).mem (body s m on).state (entry t v fs).2.2)
    (hreads : ∀ m m' s t, Reads m m' → R m s t → R m' s t)
    (fuel : Nat) (s : σ) (t : τ) (m : Mem Byte) (on : Int) (a : List Byte) (fs : List (List Byte))
    (h : At m on eom a fs) (hlo : lo ≤ on) (hset : Roomy entry settled t 0 fs) (hR : R m s t)
    (hfuel : fs.length < fuel) :
    let r := entries body eom fuel s m on
    r.out = records entry t 0 fs ∧ r.ret = some 0 ∧
      (Roomy entry room t 0 fs → Mem.Within lo (eom + 1) m r.mem) := by
  induction fuel generalizing s t m on a fs with
  | zero => omega
  | succ fuel ih =>
    have hlen := h.left
    have hseek : Mem.Within lo (eom + 1) m (m.read on ((eom - on) % 2 ^ 64).toNat) :=
      Mem.Within.read _ _ (Or.inr ⟨hlo, by omega⟩)
    intro r
    unfold r entries
    rw [records_after]
    rw [roomy_after] at hset ⊢
    cases hz : after ety fs with
    | none =>
      rw [seek_none h ety (by decide) hz _ hlen]
      exact ⟨rfl, rfl, fun _ => hseek⟩
    | some vg =>
      obtain ⟨v, gs⟩ := vg
      obtain ⟨on', hon', hat⟩ := seek_some h ety (by decide) v gs hz _ hlen
      obtain ⟨hhere, hrest⟩ := hset v gs hz
      have hrd : Reads m (m.read on ((eom - on) % 2 ^ 64).toNat) := Reads.refl m
      have hle : on ≤ on' := seek_le hon'
      obtain ⟨hb, hR'⟩ := hbody _ on' s t v gs (hat.reads hrd) (by omega) hhere (hreads _ _ s t hrd hR)
      obtain ⟨a', hat'⟩ := hb.at_
      have hlt : (gs.drop (entry t v gs).2.1).length < fuel := by
        have h1 := (List.drop_suffix (entry t v gs).2.1 gs).length_le
        have h2 := (after_suffix ety v fs gs hz).length_le
        rw [List.length_cons] at h2
        omega
      have hon := hb.onward
      obtain ⟨hout', hret, hin⟩ := ih _ _ _ _ a' _ hat' (by omega) hrest hR' hlt
      rw [hon']
      refine ⟨congrArg₂ (· ++ ·) hb.out hout', hret, fun hroom => ?_⟩
      obtain ⟨hhere', hrest'⟩ := hroom v gs rfl
      exact (hseek.trans (hb.within hhere')).trans (hin hrest')

end

/-! ## The line -/

/-- The time and the prefix of the line, as they are printed. -/
def stamp (pfx : List Byte) (fs : List (List Byte)) : Option (List Byte) :=
  match after tim fs with
  | none => none
  | some (v, _) => (sent v).map fun t => tvtostr t ++ [tab] ++ pfx

/-- The prefix of the line is in front of the message, and both are from `lo` on. -/
def Before (lo : Int) (msg : Parsed) (prfx : Int) (prfz : Nat) : Prop :=
  lo ≤ msg.msg ∧ lo ≤ prfx ∧ prfx + prfz ≤ msg.msg

theorem stamped_spec {m : Mem Byte} {msg : Parsed} {a : List Byte} {fs : List (List Byte)}
    (h : At m msg.msg (msg.msg + msg.len) a fs) (prfx : Int) (prfz : Nat) :
    ∃ m', stamped m msg prfx prfz = (m', stamp (m.view prfx prfz) fs) ∧ Reads m m' ∧
      ∀ lo, Before lo msg prfx prfz → Mem.Within lo (msg.msg + msg.len + 1) m m' := by
  unfold stamped stamp
  cases hz : after tim fs with
  | none =>
    rw [seek_none h tim (by decide) hz _ rfl]
    exact ⟨_, rfl, Reads.refl m, fun lo hb => Mem.Within.read _ _ (Or.inr ⟨hb.1, by omega⟩)⟩
  | some vg =>
    obtain ⟨v, gs⟩ := vg
    obtain ⟨on, hseek, hat⟩ := seek_some h tim (by decide) v gs hz _ rfl
    have hrd : Reads m (m.read msg.msg msg.len) := Reads.refl m
    have hle := seek_le hseek
    have hup := hat.upTo
    rw [List.length_append] at hup
    have hin : ∀ lo, Before lo msg prfx prfz → Mem.Within lo (msg.msg + msg.len + 1) m
        (strlen (m.read msg.msg msg.len) on) := by
      rintro lo ⟨hlo, -⟩
      unfold strlen
      rw [hrd.str, hat.str]
      exact (Mem.Within.read _ _ (Or.inr ⟨hlo, by omega⟩)).trans
        (Mem.Within.read _ _ (Or.inr ⟨by omega, by omega⟩))
    rw [hseek]
    simp only [hrd.str, hat.str, hrd.view]
    cases sent v with
    | none => exact ⟨_, rfl, hrd, hin⟩
    | some t =>
      refine ⟨_, rfl, hrd, fun lo hb => (hin lo hb).trans (Mem.Within.read _ _ (Or.inr ⟨hb.2.1, ?_⟩))⟩
      have := hb.2.2
      omega

/-- What `getline` leaves at `ln`: the line, and a NUL behind it. -/
structure Holds (m : Mem Byte) (ln : Int) (line : List Byte) : Prop where
  text : m.view ln line.length = line
  stop : m.cell (ln + line.length) = 0
  room : ln + line.length < m.size

theorem Holds.message {m : Mem Byte} {ln : Int} {pfx l : List Byte} (h : Holds m ln (pfx ++ tab :: l)) :
    m.view (ln + (pfx.length + 1 : Nat)) l.length = l := by
  have hmid := Mem.view_mid m ln _ (pfx ++ [tab]) l [] (by rw [h.text]; simp)
  rwa [List.length_append] at hmid

theorem Holds.lead {m : Mem Byte} {ln : Int} {pfx l : List Byte} (h : Holds m ln (pfx ++ tab :: l)) :
    m.view ln (pfx.length + 1) = pfx ++ [tab] := by
  have hmid := Mem.view_mid m ln _ [] (pfx ++ [tab]) l (by rw [h.text]; simp)
  rw [List.length_append] at hmid
  simpa using hmid

theorem procln_long (route : Mem Byte → Parsed → Int → Nat → Bool → Routed) (m : Mem Byte) (ln : Int)
    (pfx size typ rest : List Byte) (hpfx : tab ∉ pfx) (hbar : bar ∉ size) (h5 : 5 < size.length)
    (h : Holds m ln (pfx ++ tab :: (front_of bar size typ ++ rest))) :
    (procln_with route m ln (pfx ++ tab :: (front_of bar size typ ++ rest)).length).out = [] := by
  have hlong := parse_long bar (m.read ln (pfx.length + 1)) (ln + (pfx.length + 1 : Nat)) size typ rest hbar
    h5 (by rw [Mem.view_read, h.message])
  have hupto : upto tab (m.view ln (pfx ++ tab :: (front_of bar size typ ++ rest)).length) =
      some (pfx, front_of bar size typ ++ rest) := by
    rw [h.text]
    exact upto_some tab pfx _ hpfx
  generalize front_of bar size typ ++ rest = l at hlong hupto
  have hlz : (pfx ++ tab :: l).length - (pfx.length + 1) = l.length := by
    rw [List.length_append, List.length_cons]
    omega
  unfold procln_with
  simp only [hupto, if_neg (Nat.succ_ne_zero pfx.length), hlz, hlong]
  rfl

theorem procln_front (route : Mem Byte → Parsed → Int → Nat → Bool → Routed) (m : Mem Byte) (ln : Int)
    (pfx size typ rest : List Byte) (t : Byte) (fs : List (List Byte)) (hpfx : tab ∉ pfx)
    (hsize : size ≠ []) (hbar : bar ∉ size) (h5 : size.length ≤ 5) (htyp : bar ∉ typ) (hnul : 0 ∉ typ)
    (hfs : ∀ f ∈ fs, 0 ∉ f) (hrest : 0 :: rest.map (nul_of bar) = tail 0 fs) :
    let line := pfx ++ tab :: (front_of bar size (t :: typ) ++ rest)
    Holds m ln line → line.length < 2 ^ 56 →
    ∃ m' msg, At m' msg.msg (msg.msg + msg.len) (typ.drop 1) fs ∧ msg.typ = t ∧
      m'.view ln (pfx.length + 1) = pfx ++ [tab] ∧
      (procln_with route m ln line.length).out =
        if t = chr 'W' ∨ t = chr 'X' then (route m' msg ln (pfx.length + 1) (t = chr 'W')).out else [] := by
  intro line hline hlen
  obtain ⟨l, hl⟩ : ∃ l, front_of bar size (t :: typ) ++ rest = l := ⟨_, rfl⟩
  have hll : line.length = pfx.length + 1 + l.length := by
    unfold line
    rw [hl, List.length_append, List.length_cons]
    omega
  have hmsg := hline.message
  have hprf := hline.lead
  have hstop := hline.stop
  have hroom := hline.room
  obtain ⟨m', hparse, hm'⟩ := parse_front bar (m.read ln (pfx.length + 1)) (ln + (pfx.length + 1 : Nat))
    size typ rest t hsize hbar htyp h5 (by rw [hl]; omega) (by rw [Mem.view_read, hmsg])
  obtain ⟨hsz, hcell⟩ := parse_frame bar (m.read ln (pfx.length + 1)) (ln + (pfx.length + 1 : Nat)) l.length
  have hdrop := front_drop bar size typ rest t
  rw [hl] at hparse hm' hdrop
  simp only [hparse, Mem.size_read, Mem.cell_read] at hsz hcell
  generalize hk : view_start size (t :: typ) = k at hparse hm' hdrop
  -- what the parser leaves, piece by piece
  have hplain : (typ.drop 1).map (nul_of bar) = typ.drop 1 :=
    map_nul_of bar _ fun h => htyp (List.mem_of_mem_drop h)
  have htext : (l.drop k).map (nul_of bar) = typ.drop 1 ++ tail 0 fs := by
    rw [hdrop, List.map_append, hplain, List.map_cons, ← hrest]
    rfl
  have hz : (typ.drop 1 ++ tail 0 fs).length = l.length - k := by
    rw [← htext, List.length_map, List.length_drop]
  have hkl : k ≤ l.length := by
    have := congrArg List.length hdrop
    rw [List.length_drop, List.length_append, List.length_cons] at this
    omega
  refine ⟨m', ⟨t, l.length - k, ln + (pfx.length + 1 : Nat) + k⟩, ?_, rfl, ?_, ?_⟩
  · refine ⟨?_, ?_, ?_, ?_, by omega, fun h => hnul (List.mem_of_mem_drop h), hfs⟩
    · rw [hz, hm', htext]
    · rw [hz]
    · simp only
      rw [hcell _ (Or.inr (by omega)), ← hstop]
      congr 1
      omega
    · simp only
      omega
  · rw [← hprf]
    exact Mem.view_congr _ _ _ _ fun i _ hi => hcell i (Or.inl (by push_cast at hi ⊢; omega))
  · have hupto : upto tab (m.view ln line.length) = some (pfx, l) := by
      rw [hline.text, ← hl]
      exact upto_some tab pfx _ hpfx
    have hlz : line.length - (pfx.length + 1) = l.length := by omega
    unfold procln_with
    simp only [hupto, if_neg (Nat.succ_ne_zero pfx.length), hlz, hparse]
    split
    · rfl
    · split
      · rfl
      · split
        · rfl
        · rfl

end Coins.Quotes
