import Coins.Lib.Cursor
import Coins.Lib.Numeral
import Coins.Snarf.Log
import Coins.Xmemmem

/-!
# De-escaping in place

The loggers of four feeds unfold the strings that are embedded in a line, where the line is: a target
pointer follows the one that reads. The programs differ in how they find the next string. No loop but
`xmemmem` knows where the line ends, so each takes a number of turns to go through at most.
-/

open Coins.Memory Coins.Numeral Coins.Search Coins.Ws

namespace Coins.Snarf.Massage

def quote : Byte := 34
def colon : Byte := 58
def backslash : Byte := 92

/-- The difference of two pointers, as a `size_t`. -/
def diff (p q : Int) : Nat := (p - q + if p < q then 2 ^ 64 else 0).toNat

/-- The search for the next string: what was looked at, and its opening quote. -/
abbrev Next := Nat → Mem Byte → Int → Int → Option (Mem Byte × Option Int)

/-- The offset of the match. -/
def xmemmem (ndl : List Byte) (m : Mem Byte) (hay : Int) (hayz : Nat) : Mem Byte × Option Nat :=
  match Xmemmem.xmemmem (m.view hay hayz) ndl with
  | none => (m.read hay hayz, none)
  | some i => (m.read hay (i + ndl.length), some i)

/-- `for (; (unsigned char)bp[bz] <= ' '; bz++)` -/
def overread : Nat → Mem Byte → Int → Option (Mem Byte × Int)
  | 0, _, _ => none
  | n + 1, m, p =>
    let m := m.read p 1
    if m.cell p ≤ 32 then overread n m (p + 1) else some (m, p)

def tok : List Byte := ascii "\"data\""

def next_data : Next
  | 0, _, _, _ => none
  | n + 1, m, bp, eob =>
    match xmemmem tok m bp (diff eob bp) with
    | (m, none) => some (m, none)
    | (m, some i) => do
      let (m, on) ← overread n m (bp + i + tok.length)
      let m := m.read on 1
      if m.cell on ≠ colon then next_data n m (on + 1) eob
      else
        let (m, on) ← overread n m (on + 1)
        let m := m.read on 1
        if m.cell on ≠ quote then next_data n m (on + 1) eob
        else some (m, some on)

/-- The search of `spacebtc` and `paymium`: a quote behind a comma. -/
def next_quote : Next := fun _ m x eob =>
  let r := xmemmem (ascii ",\"") m x (diff eob x)
  some (r.1, r.2.map fun (i : Nat) => x + i + 1)

/-- The inner loop, with `t` and `x` at its end. -/
def unescape : Nat → Mem Byte → Int → Int → Option (Mem Byte × Int × Int)
  | 0, _, _, _ => none
  | n + 1, m, t, x =>
    let x := x + 1
    let m := (m.read x 1).store t [m.cell x]
    if m.cell t = backslash then
      -- copy next one
      let x := x + 1
      let m := (m.read x 1).store t [m.cell x]
      unescape n m (t + 1) x
    else
      let m := m.read t 1
      if m.cell t = quote then some (m, t, x + 1) else unescape n m (t + 1) x

/-- The outer loop, with `t` at its end. -/
def extents (next : Next) : Nat → Mem Byte → Int → Int → Int → Option (Mem Byte × Int)
  | 0, _, _, _, _ => none
  | n + 1, m, eob, t, x => do
    let (m, t, x) ← unescape n m t x
    let (m, y) ← next n m x eob
    match y with
    | none => some (m.move t x (diff eob x), t + diff eob x)
    | some y => extents next n (m.move t x (diff y x)) eob (t + diff y x) y

/-- The buffer and the size that is returned, if `n` turns are enough. -/
def massage (next : Next) (n : Nat) (m : Mem Byte) (buf : Int) (bsz : Nat) : Option (Mem Byte × Nat) := do
  let eob := buf + bsz
  let (m, x) ← next n m buf eob
  match x with
  | none => some (m, bsz)
  | some x => (extents next n m eob x x).map fun r => (r.1, (r.2 - buf).toNat)

/-! ## Texts -/

def Blank (b : List Byte) : Prop := ∀ c ∈ b, c ≤ 32

/-- What is looked at behind `"data"` when no string is there. -/
inductive Dud : List Byte → Prop
  | key {b : List Byte} {c : Byte} (hb : Blank b) (hc : ¬ c ≤ 32) (hcolon : c ≠ colon) : Dud (b ++ [c])
  | value {b b' : List Byte} {c : Byte} (hb : Blank b) (hb' : Blank b') (hc : ¬ c ≤ 32) (hquote : c ≠ quote) :
    Dud (b ++ colon :: (b' ++ [c]))

/-- What `next_data` has to say on a text: the place of the quote, or that there is none. -/
inductive NextData : List Byte → Option Nat → Prop
  | absent {l : List Byte} (h : find tok l = none) : NextData l none
  | found {l v b b' : List Byte} {i : Nat} (h : find tok l = some i)
    (hv : l.drop (i + tok.length) = b ++ colon :: (b' ++ quote :: v)) (hb : Blank b) (hb' : Blank b') :
    NextData l (some (i + tok.length + (b.length + 1 + b'.length)))
  | other {l v w : List Byte} {i : Nat} {r : Option Nat} (h : find tok l = some i)
    (hv : l.drop (i + tok.length) = w ++ v) (hw : Dud w) (hr : NextData v r) :
    NextData l (r.map (i + tok.length + w.length + ·))

inductive NextQuote : List Byte → Option Nat → Prop
  | absent {l : List Byte} (h : find (ascii ",\"") l = none) : NextQuote l none
  | found {l : List Byte} {i : Nat} (h : find (ascii ",\"") l = some i) : NextQuote l (some (i + 1))

/-- A string without its escapes, up to the closing quote, and what is behind that. -/
def literal : List Byte → Option (List Byte × List Byte)
  | [] => none
  | c :: l =>
    if c = backslash then
      match l with
      | [] => none
      | c' :: l => (literal l).map fun r => (c' :: r.1, r.2)
    else if c = quote then some ([], l)
    else (literal l).map fun r => (c :: r.1, r.2)

/-- A text in which the strings that are found are closed, and what it is with these unfolded. -/
inductive Massaged (R : List Byte → Option Nat → Prop) : List Byte → List Byte → Prop
  | absent {l : List Byte} (h : R l none) : Massaged R l l
  | extent {u v c l out : List Byte} (h : R (u ++ quote :: v) (some u.length)) (hc : literal v = some (c, l))
    (hl : Massaged R l out) : Massaged R (u ++ quote :: v) (u ++ c ++ out)

/-- Whenever a string is found there is an end to it. -/
inductive Closed (R : List Byte → Option Nat → Prop) : List Byte → Prop
  | absent {l : List Byte} (h : R l none) : Closed R l
  | extent {u v c l : List Byte} (h : R (u ++ quote :: v) (some u.length)) (hc : literal v = some (c, l))
    (hl : Closed R l) : Closed R (u ++ quote :: v)

theorem closed_iff (R : List Byte → Option Nat → Prop) (l : List Byte) : Closed R l ↔ ∃ out, Massaged R l out := by
  constructor
  · intro h
    induction h with
    | absent h => exact ⟨_, .absent h⟩
    | extent h hc hl ih =>
      obtain ⟨out, hout⟩ := ih
      exact ⟨_, .extent h hc hout⟩
  · rintro ⟨out, h⟩
    induction h with
    | absent h => exact .absent h
    | extent h hc hl ih => exact .extent h hc ih

/-! ## What the loops look at -/

theorem diff_add (x : Int) (k : Nat) : diff (x + k) x = k := by
  unfold diff
  rw [if_neg (by omega)]
  omega

theorem xmemmem_grows (ndl : List Byte) (m : Mem Byte) (hay : Int) (hayz : Nat) :
    m.log <:+ (xmemmem ndl m hay hayz).1.log ∧ (xmemmem ndl m hay hayz).1.cell = m.cell := by
  unfold xmemmem
  split
  · exact ⟨Mem.log_read m _ _, rfl⟩
  · exact ⟨Mem.log_read m _ _, rfl⟩

theorem xmemmem_spec (ndl : List Byte) (m : Mem Byte) (x : Int) (k : Nat) :
    (xmemmem ndl m x k).2 = find ndl (m.view x k) ∧ Mem.Within x (x + k) m (xmemmem ndl m x k).1 := by
  unfold xmemmem
  rw [Xmemmem.xmemmem_spec]
  cases h : find ndl (m.view x k) with
  | none => exact ⟨rfl, Mem.Within.read _ _ (Or.inr ⟨le_refl _, le_refl _⟩)⟩
  | some i =>
    have hle := find_le _ _ _ h
    rw [Mem.view_length] at hle
    exact ⟨rfl, Mem.Within.read _ _ (Or.inr ⟨le_refl _, by omega⟩)⟩

theorem overread_grows (n : Nat) (m m' : Mem Byte) (p q : Int) (h : overread n m p = some (m', q)) :
    m.log <:+ m'.log := by
  induction n generalizing m p with
  | zero => cases h
  | succ n ih =>
    rw [overread] at h
    split at h
    · exact (Mem.log_read m p 1).trans (ih _ _ h)
    · obtain ⟨rfl, -⟩ := Prod.mk.inj (Option.some.inj h)
      exact Mem.log_read m p 1

theorem overread_sound (n k : Nat) (m m' : Mem Byte) (p q : Int) (h : overread n m p = some (m', q)) :
    Mem.Strays (p + k) m m' ∨ ∃ b c v, m.view p k = b ++ c :: v ∧ Blank b ∧ ¬ c ≤ 32 ∧
      q = p + b.length ∧ m'.cell = m.cell := by
  induction n generalizing m p k with
  | zero => cases h
  | succ n ih =>
    have hgrows := overread_grows _ m m' p q h
    rw [overread] at h
    cases k with
    | zero =>
      left
      split at h
      · exact (Mem.Strays.read p 1 (by omega) (by omega)).behind (overread_grows _ _ _ _ _ h)
      · obtain ⟨rfl, -⟩ := Prod.mk.inj (Option.some.inj h)
        exact Mem.Strays.read p 1 (by omega) (by omega)
    | succ k =>
      split at h
      · rename_i hblank
        have haddr : p + 1 + (k : Int) = p + (k + 1 : Nat) := by omega
        rcases ih k _ (p + 1) h with hstray | ⟨b, c, v, hview, hb, hc, hq, hcell⟩
        · rw [haddr] at hstray
          exact Or.inl (hstray.before (Mem.log_read m p 1))
        · refine Or.inr ⟨m.cell p :: b, c, v, ?_, ?_, hc, ?_, hcell⟩
          · rw [Mem.view_read] at hview
            rw [Mem.view, hview, List.cons_append]
          · intro d hd
            rcases List.mem_cons.mp hd with rfl | hd
            · exact hblank
            · exact hb d hd
          · rw [hq, List.length_cons]
            push_cast
            ring
      · rename_i hblank
        obtain ⟨rfl, rfl⟩ := Prod.mk.inj (Option.some.inj h)
        exact Or.inr ⟨[], m.cell p, m.view (p + 1) k, rfl, (fun _ hd => by cases hd), hblank, by simp, rfl⟩

theorem overread_complete (n k : Nat) (m : Mem Byte) (p : Int) (b v : List Byte) (c : Byte)
    (hview : m.view p k = b ++ c :: v) (hb : Blank b) (hc : ¬ c ≤ 32) (hn : b.length < n) :
    ∃ m', overread n m p = some (m', p + b.length) ∧ Mem.Within p (p + b.length + 1) m m' ∧ m'.cell = m.cell := by
  induction n generalizing m p k b with
  | zero => omega
  | succ n ih =>
    have hread : Mem.Within p (p + b.length + 1) m (m.read p 1) :=
      Mem.Within.read p 1 (Or.inr ⟨le_refl _, by omega⟩)
    obtain ⟨k, rfl⟩ : ∃ j, k = j + 1 := by
      cases k with
      | zero =>
        have hlen := congrArg List.length hview
        simp at hlen
      | succ j => exact ⟨j, rfl⟩
    rw [Mem.view] at hview
    rw [overread]
    cases b with
    | nil =>
      rw [List.nil_append, List.cons.injEq] at hview
      have hcell : ¬ (m.read p 1).cell p ≤ 32 := by
        rw [Mem.cell_read, hview.1]
        exact hc
      rw [if_neg hcell]
      exact ⟨_, by simp, hread, rfl⟩
    | cons d b =>
      rw [List.cons_append, List.cons.injEq] at hview
      have hcell : (m.read p 1).cell p ≤ 32 := by
        rw [Mem.cell_read, hview.1]
        exact hb d (by simp)
      rw [List.length_cons] at hn hread ⊢
      obtain ⟨m', hover, hwithin, hkept⟩ := ih k (m.read p 1) (p + 1) b
        (by rw [Mem.view_read]; exact hview.2) (fun e he => hb e (by simp [he])) (by omega)
      have haddr : p + 1 + (b.length : Int) = p + (b.length + 1 : Nat) := by omega
      rw [haddr] at hover hwithin
      rw [if_pos hcell, hover]
      exact ⟨m', rfl, hread.trans (hwithin.mono (by omega) (le_refl _)), hkept⟩

/-- What a search has to do: to tell what `R` says on the text, or to leave the text. -/
structure Finds (next : Next) (R : List Byte → Option Nat → Prop) : Prop where
  grows : ∀ n m x eob m' y, next n m x eob = some (m', y) → m.log <:+ m'.log
  sound : ∀ n m x (k : Nat) m' y, next n m x (x + k) = some (m', y) → Mem.Strays (x + k) m m' ∨
    ∃ r : Option Nat, R (m.view x k) r ∧ y = r.map (fun (i : Nat) => x + i) ∧ m'.cell = m.cell
  complete : ∀ n m x (k : Nat) r, R (m.view x k) r → k < n →
    ∃ m', next n m x (x + k) = some (m', r.map (fun (i : Nat) => x + i)) ∧ Mem.Within x (x + k) m m' ∧ m'.cell = m.cell
  quoted : ∀ l i, R l (some i) → ∃ u v, l = u ++ quote :: v ∧ u.length = i

theorem next_quote_finds : Finds next_quote NextQuote where
  grows n m x eob m' y h := by
    obtain ⟨rfl, -⟩ := Prod.mk.inj (Option.some.inj h)
    exact (xmemmem_grows ..).1
  sound n m x k m' y h := by
    right
    unfold next_quote at h
    obtain ⟨rfl, rfl⟩ := Prod.mk.inj (Option.some.inj h)
    rw [diff_add, (xmemmem_spec ..).1]
    cases hf : find (ascii ",\"") (m.view x k) with
    | none => exact ⟨none, .absent hf, rfl, (xmemmem_grows ..).2⟩
    | some i =>
      refine ⟨some (i + 1), .found hf, ?_, (xmemmem_grows ..).2⟩
      simp only [Option.map_some, Nat.cast_add, Nat.cast_one]
      rw [Int.add_assoc]
  complete n m x k r h hk := by
    obtain ⟨hfind, hwithin⟩ := xmemmem_spec (ascii ",\"") m x k
    refine ⟨(xmemmem (ascii ",\"") m x k).1, ?_, hwithin, (xmemmem_grows ..).2⟩
    unfold next_quote
    dsimp only
    rw [diff_add, hfind]
    cases h with
    | absent hf => rw [hf]; rfl
    | found hf =>
      rw [hf]
      simp only [Option.map_some, Nat.cast_add, Nat.cast_one]
      rw [Int.add_assoc]
  quoted l i h := by
    cases h with
    | found hf =>
      rename_i i
      obtain ⟨⟨v, hv⟩, hle, -⟩ := (find_eq_some _ _ _).mp hf
      have hl : l = l.take i ++ (ascii ",\"" ++ v) := by rw [hv, List.take_append_drop]
      refine ⟨l.take i ++ ascii ",", v, ?_, ?_⟩
      · rw [List.append_assoc]
        exact hl
      · rw [List.length_append, List.length_take_of_le hle]
        rfl

/-- What is done with the byte in place of a quote. -/
def ValueStep (n : Nat) (m : Mem Byte) (on eob : Int) (m' : Mem Byte) (y : Option Int) : Prop :=
  (m.cell on ≠ quote ∧ next_data n (m.read on 1) (on + 1) eob = some (m', y)) ∨
    (m.cell on = quote ∧ m' = m.read on 1 ∧ y = some on)

/-- What is done with the byte in place of a colon. -/
def KeyStep (n : Nat) (m : Mem Byte) (on eob : Int) (m' : Mem Byte) (y : Option Int) : Prop :=
  (m.cell on ≠ colon ∧ next_data n (m.read on 1) (on + 1) eob = some (m', y)) ∨
    (m.cell on = colon ∧ ∃ m1 on', overread n (m.read on 1) (on + 1) = some (m1, on') ∧ ValueStep n m1 on' eob m' y)

theorem next_data_cases (n : Nat) (m m' : Mem Byte) (bp eob : Int) (y : Option Int)
    (h : next_data (n + 1) m bp eob = some (m', y)) :
    let r := xmemmem tok m bp (diff eob bp)
    (r.2 = none ∧ m' = r.1 ∧ y = none) ∨
    ∃ i m1 on, r.2 = some i ∧ overread n r.1 (bp + i + tok.length) = some (m1, on) ∧ KeyStep n m1 on eob m' y := by
  rw [next_data] at h
  split at h
  · rename_i m1 heq
    rw [heq]
    obtain ⟨rfl, rfl⟩ := Prod.mk.inj (Option.some.inj h)
    exact Or.inl ⟨rfl, rfl, rfl⟩
  · rename_i m1 i heq
    rw [heq]
    obtain ⟨⟨m2, on⟩, hover, h⟩ := Option.bind_eq_some_iff.mp h
    refine Or.inr ⟨i, m2, on, rfl, hover, ?_⟩
    dsimp only at h
    split at h
    · rename_i hcolon
      exact Or.inl ⟨hcolon, h⟩
    · rename_i hcolon
      obtain ⟨⟨m3, on'⟩, hover', h⟩ := Option.bind_eq_some_iff.mp h
      refine Or.inr ⟨not_not.mp hcolon, m3, on', hover', ?_⟩
      dsimp only at h
      split at h
      · rename_i hquote
        exact Or.inl ⟨hquote, h⟩
      · rename_i hquote
        obtain ⟨rfl, rfl⟩ := Prod.mk.inj (Option.some.inj h)
        exact Or.inr ⟨not_not.mp hquote, rfl, rfl⟩

theorem steps_grow (n : Nat) (hn : ∀ m bp eob m' y, next_data n m bp eob = some (m', y) → m.log <:+ m'.log) :
    (∀ m on eob m' y, ValueStep n m on eob m' y → m.log <:+ m'.log) ∧
      ∀ m on eob m' y, KeyStep n m on eob m' y → m.log <:+ m'.log := by
  have hvalue : ∀ m on eob m' y, ValueStep n m on eob m' y → m.log <:+ m'.log := by
    rintro m on eob m' y (⟨-, hon⟩ | ⟨-, rfl, -⟩)
    · exact (Mem.log_read m on 1).trans (hn _ _ _ _ _ hon)
    · exact Mem.log_read m on 1
  refine ⟨hvalue, ?_⟩
  rintro m on eob m' y (⟨-, hon⟩ | ⟨-, m1, on', hover, hstep⟩)
  · exact (Mem.log_read m on 1).trans (hn _ _ _ _ _ hon)
  · exact ((Mem.log_read m on 1).trans (overread_grows _ _ _ _ _ hover)).trans (hvalue _ _ _ _ _ hstep)

theorem next_data_grows (n : Nat) (m : Mem Byte) (bp eob : Int) (m' : Mem Byte) (y : Option Int)
    (h : next_data n m bp eob = some (m', y)) : m.log <:+ m'.log := by
  induction n generalizing m bp eob m' y with
  | zero => cases h
  | succ n ih =>
    have hfound := (xmemmem_grows tok m bp (diff eob bp)).1
    rcases next_data_cases n m m' bp eob y h with ⟨-, rfl, -⟩ | ⟨i, m1, on, -, hover, hkey⟩
    · exact hfound
    · exact (hfound.trans (overread_grows _ _ _ _ _ hover)).trans ((steps_grow n ih).2 _ _ _ _ _ hkey)

theorem view_split (m : Mem Byte) (p : Int) (k : Nat) (a v : List Byte) (c : Byte)
    (h : m.view p k = a ++ c :: v) :
    m.cell (p + a.length) = c ∧ m.view (p + a.length + 1) (k - (a.length + 1)) = v ∧ a.length + 1 + v.length = k := by
  have hlen := congrArg List.length h
  rw [Mem.view_length, List.length_append, List.length_cons] at hlen
  obtain rfl : k = a.length + (v.length + 1) := by omega
  rw [Mem.view_append] at h
  obtain ⟨-, hback⟩ := List.append_inj h (Mem.view_length _ _ _)
  rw [Mem.view, List.cons.injEq] at hback
  refine ⟨hback.1, ?_, by omega⟩
  rw [show a.length + (v.length + 1) - (a.length + 1) = v.length by omega]
  exact hback.2

theorem map_shift (r : Option Nat) (x : Int) (j : Nat) :
    (r.map (j + ·)).map (fun (i : Nat) => x + i) = r.map (fun (i : Nat) => x + j + i) := by
  rw [Option.map_map]
  congr 1
  funext i
  simp only [Function.comp_apply, Nat.cast_add]
  ring

theorem overread_looks (n k : Nat) (m m' : Mem Byte) (p q : Int) (h : overread n m p = some (m', q)) :
    Mem.Strays (p + k) m m' ∨ ∃ b c v, m.view p k = b ++ c :: v ∧ Blank b ∧ ¬ c ≤ 32 ∧ q = p + b.length ∧
      m'.cell = m.cell ∧ m'.cell q = c ∧ m'.view (q + 1) v.length = v ∧ b.length + 1 + v.length = k := by
  rcases overread_sound n k m m' p q h with hstray | ⟨b, c, v, hview, hb, hc, rfl, hcell⟩
  · exact Or.inl hstray
  · obtain ⟨hat, hbehind, hlen⟩ := view_split m p k b v c hview
    rw [show k - (b.length + 1) = v.length by omega] at hbehind
    refine Or.inr ⟨b, c, v, hview, hb, hc, rfl, hcell, by rw [hcell, hat], ?_, hlen⟩
    exact (Mem.view_congr m m' _ _ fun j _ _ => by rw [hcell]).trans hbehind

theorem next_data_on {l v w : List Byte} {i : Nat} (bp : Int) (h : find tok l = some i)
    (hv : l.drop (i + tok.length) = w ++ v) (hw : Dud w) (r : Option Nat) (hr : NextData v r) :
    ∃ r' : Option Nat, NextData l r' ∧
      r.map (fun (j : Nat) => bp + (i + tok.length + w.length : Nat) + j) = r'.map (fun (j : Nat) => bp + j) :=
  ⟨_, .other h hv hw hr, (map_shift r bp _).symm⟩

theorem next_data_sound (n : Nat) (m : Mem Byte) (bp : Int) (k : Nat) (m' : Mem Byte) (y : Option Int)
    (h : next_data n m bp (bp + k) = some (m', y)) : Mem.Strays (bp + k) m m' ∨
      ∃ r : Option Nat, NextData (m.view bp k) r ∧ y = r.map (fun (i : Nat) => bp + i) ∧ m'.cell = m.cell := by
  induction n generalizing m bp k with
  | zero => cases h
  | succ n ih =>
    have hcases := next_data_cases n m m' bp _ y h
    rw [diff_add] at hcases
    obtain ⟨hfound, hcell⟩ := xmemmem_grows tok m bp k
    have hfind := (xmemmem_spec tok m bp k).1
    dsimp only at hcases
    generalize xmemmem tok m bp k = r at hcases hfound hcell hfind
    obtain ⟨m1, found⟩ := r
    dsimp only at hcases hfound hcell hfind
    have hview : ∀ a j, m1.view a j = m.view a j := fun a j => Mem.view_congr _ _ _ _ fun _ _ _ => by rw [hcell]
    rcases hcases with ⟨rfl, rfl, rfl⟩ | ⟨i, m2, on, rfl, hover, hkey⟩
    · exact Or.inr ⟨none, .absent hfind.symm, rfl, hcell⟩
    · have hle := find_le _ _ _ hfind.symm
      rw [Mem.view_length] at hle
      have hdrop := Mem.view_drop m bp k (i + tok.length)
      rw [show bp + (i : Int) + (tok.length : Nat) = bp + (i + tok.length : Nat) by push_cast; ring] at hover
      have hend : bp + (i + tok.length : Nat) + (k - (i + tok.length) : Nat) = bp + k := by omega
      rcases overread_looks n (k - (i + tok.length)) m1 m2 _ on hover with
        hstray | ⟨b, c, v, hb, hblank, hc, rfl, hcell2, hat, hv, hlen⟩
      · rw [hend] at hstray
        exact Or.inl ((hstray.before hfound).behind ((steps_grow n (next_data_grows n)).2 _ _ _ _ _ hkey))
      · rw [hview] at hb
        rw [hb] at hdrop
        have hkeyed := hfound.trans (overread_grows _ _ _ _ _ hover)
        have hnext : bp + (i + tok.length : Nat) + (b.length : Nat) + 1 + (v.length : Nat) = bp + k := by omega
        rcases hkey with ⟨hcolon, hon⟩ | ⟨hcolon, m3, on', hover', hvalue⟩
        · rw [← hnext] at hon
          rcases ih _ _ v.length hon with hstray | ⟨r, hr, hy, hcell3⟩
          · rw [hnext] at hstray
            exact Or.inl (hstray.before (hkeyed.trans (Mem.log_read m2 _ 1)))
          · rw [Mem.view_read, hv] at hr
            rw [hat] at hcolon
            obtain ⟨r', hr', hmap⟩ := next_data_on bp hfind.symm (hdrop.trans (by simp)) (.key hblank hc hcolon) r hr
            refine Or.inr ⟨r', hr', ?_, ?_⟩
            · rw [hy, ← hmap]
              congr 1
              funext j
              simp only [List.length_append, List.length_singleton, Nat.cast_add, Nat.cast_one]
              ring
            · rw [hcell3, Mem.cell_read, hcell2, hcell]
        · rw [hat] at hcolon
          have hvalued := hkeyed.trans (Mem.log_read m2 (bp + (i + tok.length : Nat) + (b.length : Nat)) 1)
          rcases overread_looks n v.length _ m3 _ on' hover' with
            hstray | ⟨b', c', v', hb', hblank', hc', rfl, hcell3, hat', hv', hlen'⟩
          · rw [hnext] at hstray
            exact Or.inl ((hstray.before hvalued).behind ((steps_grow n (next_data_grows n)).1 _ _ _ _ _ hvalue))
          · rw [Mem.view_read, hv] at hb'
            rw [hb', hcolon] at hdrop
            have hkept : m3.cell = m.cell := by rw [hcell3, Mem.cell_read, hcell2, hcell]
            rcases hvalue with ⟨hquote, hon⟩ | ⟨hquote, rfl, rfl⟩
            · rw [show bp + (k : Int) = bp + (i + tok.length : Nat) + (b.length : Nat) + 1 + (b'.length : Nat) + 1 +
                (v'.length : Nat) by omega] at hon ⊢
              rcases ih _ _ v'.length hon with hstray | ⟨r, hr, hy, hcell4⟩
              · exact Or.inl (hstray.before ((hvalued.trans (overread_grows _ _ _ _ _ hover')).trans
                  (Mem.log_read m3 _ 1)))
              · rw [Mem.view_read, hv'] at hr
                rw [hat'] at hquote
                obtain ⟨r', hr', hmap⟩ := next_data_on bp hfind.symm (hdrop.trans (by simp))
                  (.value hblank hblank' hc' hquote) r hr
                refine Or.inr ⟨r', hr', ?_, ?_⟩
                · rw [hy, ← hmap]
                  congr 1
                  funext j
                  simp only [List.length_append, List.length_cons, List.length_nil, Nat.cast_add, Nat.cast_one]
                  push_cast
                  ring
                · rw [hcell4, Mem.cell_read, hkept]
            · rw [hat'] at hquote
              rw [hquote] at hdrop
              refine Or.inr ⟨_, .found hfind.symm hdrop hblank hblank', ?_, hkept⟩
              simp only [Option.map_some, Nat.cast_add, Nat.cast_one]
              congr 1
              ring

theorem next_data_key (n : Nat) (m : Mem Byte) (x : Int) (k i : Nat) (b v : List Byte) (c : Byte)
    (h : find tok (m.view x k) = some i) (hv : (m.view x k).drop (i + tok.length) = b ++ c :: v) (hb : Blank b)
    (hc : ¬ c ≤ 32) (hn : k ≤ n) :
    let on := x + (i + tok.length : Nat) + b.length
    ∃ m1, Mem.Within x (x + k) m m1 ∧ m1.cell = m.cell ∧ m1.cell on = c ∧ m1.view (on + 1) v.length = v ∧
      on + 1 + v.length = x + k ∧ next_data (n + 1) m x (x + k) =
        if c ≠ colon then next_data n m1 (on + 1) (x + k)
        else (overread n m1 (on + 1)).bind fun r =>
          if (r.1.read r.2 1).cell r.2 ≠ quote then next_data n (r.1.read r.2 1) (r.2 + 1) (x + k)
          else some (r.1.read r.2 1, some r.2) := by
  intro on
  obtain ⟨-, hcell⟩ := xmemmem_grows tok m x k
  obtain ⟨hfind, hwithin⟩ := xmemmem_spec tok m x k
  rw [next_data, diff_add]
  rw [h] at hfind
  generalize xmemmem tok m x k = q at hcell hfind hwithin ⊢
  obtain ⟨m1, found⟩ := q
  dsimp only at hcell hfind hwithin ⊢
  subst hfind
  rw [Mem.view_drop] at hv
  have hle := find_le _ _ _ h
  rw [Mem.view_length] at hle
  have hview : m1.view (x + (i + tok.length : Nat)) (k - (i + tok.length)) = b ++ c :: v :=
    (Mem.view_congr m m1 _ _ fun j _ _ => by rw [hcell]).trans hv
  obtain ⟨hat, hbehind, hlen⟩ := view_split m1 _ _ b v c hview
  rw [show k - (i + tok.length) - (b.length + 1) = v.length by omega] at hbehind
  obtain ⟨m2, hover, hlooked, hcell2⟩ := overread_complete n _ m1 _ b v c hview hb hc (by omega)
  have hread : Mem.Within x (x + k) m (m2.read on 1) :=
    (hwithin.trans (hlooked.mono (by omega) (by omega))).trans
      (Mem.Within.read on 1 (Or.inr ⟨by omega, by omega⟩))
  rw [show x + (i + tok.length : Nat) = x + (i : Int) + (tok.length : Nat) by push_cast; ring] at hover
  have hcellon : m2.cell on = c := by rw [hcell2, hat]
  refine ⟨m2.read on 1, hread, by rw [Mem.cell_read, hcell2, hcell], hcellon, ?_, by omega, ?_⟩
  · rw [Mem.view_read]
    exact (Mem.view_congr m1 m2 _ _ fun j _ _ => by rw [hcell2]).trans hbehind
  · have hon : x + (i : Int) + (tok.length : Nat) + b.length = on := by
      unfold on
      push_cast
      ring
    rw [hon] at hover
    dsimp only
    simp only [hover, Option.bind_eq_bind, Option.bind_some, Mem.cell_read, hcellon]

theorem next_data_value (n : Nat) (m : Mem Byte) (x : Int) (k i : Nat) (b b' v : List Byte) (c : Byte)
    (h : find tok (m.view x k) = some i)
    (hv : (m.view x k).drop (i + tok.length) = b ++ colon :: (b' ++ c :: v)) (hb : Blank b) (hb' : Blank b')
    (hc : ¬ c ≤ 32) (hn : k ≤ n) :
    let on := x + (i + tok.length : Nat) + (b.length + 1 + b'.length : Nat)
    ∃ m1, Mem.Within x (x + k) m m1 ∧ m1.cell = m.cell ∧ m1.view (on + 1) v.length = v ∧
      on + 1 + v.length = x + k ∧ next_data (n + 1) m x (x + k) =
        if c ≠ quote then next_data n m1 (on + 1) (x + k) else some (m1, some on) := by
  intro on
  obtain ⟨m1, hwithin, hcell, -, hview, hend, hnext⟩ := next_data_key n m x k i b _ colon h hv hb (by decide) hn
  rw [List.length_append, List.length_cons] at hend
  obtain ⟨m2, hover, hlooked, hcell2⟩ := overread_complete n _ m1 _ b' v c hview hb' hc (by omega)
  obtain ⟨hat, hbehind, hlen⟩ := view_split m1 _ _ b' v c hview
  rw [List.length_append, List.length_cons, show b'.length + (v.length + 1) - (b'.length + 1) = v.length by omega]
    at hbehind
  have hon : x + (i + tok.length : Nat) + (b.length : Nat) + 1 + (b'.length : Nat) = on := by
    unfold on
    push_cast
    ring
  rw [hon] at hover hlooked hat hbehind
  refine ⟨m2.read on 1, ?_, by rw [Mem.cell_read, hcell2, hcell], ?_, by omega, ?_⟩
  · exact (hwithin.trans (hlooked.mono (by omega) (by omega))).trans
      (Mem.Within.read on 1 (Or.inr ⟨by omega, by omega⟩))
  · rw [Mem.view_read]
    exact (Mem.view_congr m1 m2 _ _ fun j _ _ => by rw [hcell2]).trans hbehind
  · rw [hnext, if_neg (by simp), hover]
    simp only [Option.bind_some, Mem.cell_read, hcell2, hat]

theorem next_data_complete (l : List Byte) (r : Option Nat) (h : NextData l r) (n : Nat) (m : Mem Byte) (x : Int)
    (k : Nat) (hl : m.view x k = l) (hn : k < n) :
    ∃ m', next_data n m x (x + k) = some (m', r.map (fun (i : Nat) => x + i)) ∧ Mem.Within x (x + k) m m' ∧
      m'.cell = m.cell := by
  induction h generalizing n m x k with
  | absent h =>
    obtain ⟨n, rfl⟩ : ∃ j, n = j + 1 := ⟨n - 1, by omega⟩
    obtain ⟨hfind, hwithin⟩ := xmemmem_spec tok m x k
    have hcell := (xmemmem_grows tok m x k).2
    rw [hl, h] at hfind
    rw [next_data, diff_add]
    generalize xmemmem tok m x k = q at hfind hwithin hcell ⊢
    obtain ⟨m1, found⟩ := q
    obtain rfl : found = none := hfind
    exact ⟨m1, rfl, hwithin, hcell⟩
  | @found l v b b' i h hv hb hb' =>
    obtain ⟨n, rfl⟩ : ∃ j, n = j + 1 := ⟨n - 1, by omega⟩
    rw [← hl] at h hv
    obtain ⟨m1, hwithin, hcell, -, -, hnext⟩ := next_data_value n m x k i b b' v quote h hv hb hb'
      (by decide) (by omega)
    refine ⟨m1, ?_, hwithin, hcell⟩
    rw [hnext, if_neg (by simp), Option.map_some]
    push_cast
    ring_nf
  | @other l v w i r h hv hw hr ih =>
    obtain ⟨n, rfl⟩ : ∃ j, n = j + 1 := ⟨n - 1, by omega⟩
    rw [← hl] at h hv
    rw [map_shift]
    cases hw with
    | @key b c hb hc hcolon =>
      rw [List.append_assoc, List.singleton_append] at hv
      obtain ⟨m1, hwithin, hcell, -, hview, hend, hnext⟩ := next_data_key n m x k i b v c h hv hb hc (by omega)
      obtain ⟨m', hdone, hthen, hkept⟩ := ih n m1 _ v.length hview (by omega)
      rw [hend] at hdone hthen
      refine ⟨m', ?_, hwithin.trans (hthen.mono (by omega) (le_refl _)), hkept.trans hcell⟩
      rw [hnext, if_pos hcolon, hdone, List.length_append, List.length_singleton]
      push_cast
      ring_nf
    | @value b b' c hb hb' hc hquote =>
      rw [List.append_assoc, List.cons_append, List.append_assoc, List.singleton_append] at hv
      obtain ⟨m1, hwithin, hcell, hview, hend, hnext⟩ := next_data_value n m x k i b b' v c h hv hb hb' hc (by omega)
      obtain ⟨m', hdone, hthen, hkept⟩ := ih n m1 _ v.length hview (by omega)
      rw [hend] at hdone hthen
      refine ⟨m', ?_, hwithin.trans (hthen.mono (by omega) (le_refl _)), hkept.trans hcell⟩
      rw [hnext, if_pos hquote, hdone, List.length_append, List.length_cons, List.length_append, List.length_singleton]
      push_cast
      ring_nf

theorem next_data_quoted (l : List Byte) (r : Option Nat) (h : NextData l r) :
    ∀ i ∈ r, ∃ u v, l = u ++ quote :: v ∧ u.length = i := by
  have hsplit : ∀ (l w : List Byte) (i : Nat), find tok l = some i → l.drop (i + tok.length) = w →
      l = l.take (i + tok.length) ++ w ∧ (l.take (i + tok.length)).length = i + tok.length := by
    intro l w i h hw
    have hle := find_le _ _ _ h
    exact ⟨by rw [← hw, List.take_append_drop], List.length_take_of_le hle⟩
  induction h with
  | absent h => exact fun i hi => by cases hi
  | @found l v b b' i h hv hb hb' =>
    obtain ⟨hl, hlen⟩ := hsplit _ _ _ h hv
    intro j hj
    rw [Option.mem_some_iff] at hj
    refine ⟨l.take (i + tok.length) ++ b ++ [colon] ++ b', v, ?_, ?_⟩
    · simp only [List.append_assoc, List.singleton_append]
      exact hl
    · simp only [List.length_append, List.length_singleton, hlen]
      omega
  | @other l v w i r h hv hw hr ih =>
    obtain ⟨hl, hlen⟩ := hsplit _ _ _ h hv
    intro j hj
    rw [Option.mem_def, Option.map_eq_some_iff] at hj
    obtain ⟨j', hj', rfl⟩ := hj
    obtain ⟨u, v', rfl, rfl⟩ := ih j' hj'
    refine ⟨l.take (i + tok.length) ++ w ++ u, v', ?_, ?_⟩
    · simp only [List.append_assoc]
      exact hl
    · simp only [List.length_append, hlen]

theorem next_data_finds : Finds next_data NextData where
  grows := next_data_grows
  sound := next_data_sound
  complete n m x k r h hk := next_data_complete _ r h n m x k rfl hk
  quoted l i h := next_data_quoted l (some i) h i rfl

/-! ## Strings -/

theorem cell_stored (m : Mem Byte) (x t : Int) (c : Byte) : ((m.read x 1).store t [c]).cell t = c := by
  rw [Mem.cell_store_one, if_pos rfl]

theorem unescape_cases (n : Nat) (m : Mem Byte) (t x : Int) :
    let m1 := (m.read (x + 1) 1).store t [m.cell (x + 1)]
    let m2 := (m1.read (x + 1 + 1) 1).store t [m1.cell (x + 1 + 1)]
    (m.cell (x + 1) = backslash → unescape (n + 1) m t x = unescape n m2 (t + 1) (x + 1 + 1)) ∧
    (m.cell (x + 1) = quote → unescape (n + 1) m t x = some (m1.read t 1, t, x + 1 + 1)) ∧
    (m.cell (x + 1) ≠ backslash → m.cell (x + 1) ≠ quote →
      unescape (n + 1) m t x = unescape n (m1.read t 1) (t + 1) (x + 1)) := by
  intro m1 m2
  have hcell : m1.cell t = m.cell (x + 1) := cell_stored m (x + 1) t _
  refine ⟨fun h => ?_, fun h => ?_, fun hb hq => ?_⟩
  · rw [h] at hcell
    rw [unescape]
    exact if_pos hcell
  · have hb : ¬ m1.cell t = backslash := by
      rw [hcell, h]
      decide
    rw [h] at hcell
    rw [unescape]
    exact (if_neg hb).trans (if_pos hcell)
  · rw [← hcell] at hb hq
    rw [unescape]
    exact (if_neg hb).trans (if_neg hq)

theorem unescape_grows (n : Nat) (m m' : Mem Byte) (t x t' x' : Int)
    (h : unescape n m t x = some (m', t', x')) : (m.read (x + 1) 1).log <:+ m'.log := by
  induction n generalizing m t x with
  | zero => cases h
  | succ n ih =>
    obtain ⟨hesc, hclose, hplain⟩ := unescape_cases n m t x
    have hstore : (m.read (x + 1) 1).log <:+ ((m.read (x + 1) 1).store t [m.cell (x + 1)]).log :=
      List.suffix_cons _ _
    by_cases hb : m.cell (x + 1) = backslash
    · rw [hesc hb] at h
      exact hstore.trans (List.IsSuffix.trans ⟨[_, _, _], rfl⟩ (ih _ _ _ h))
    · by_cases hq : m.cell (x + 1) = quote
      · rw [hclose hq] at h
        obtain ⟨rfl, -⟩ := Prod.mk.inj (Option.some.inj h)
        exact hstore.trans (Mem.log_read _ _ _)
      · rw [hplain hb hq] at h
        exact hstore.trans (List.IsSuffix.trans ⟨[_, _], rfl⟩ (ih _ _ _ h))

theorem literal_escape (c : Byte) (l : List Byte) :
    literal (backslash :: c :: l) = (literal l).map fun r => (c :: r.1, r.2) := by
  rw [literal.eq_def]
  exact if_pos rfl

theorem literal_quote (l : List Byte) : literal (quote :: l) = some ([], l) := by
  rw [literal.eq_def]
  exact (if_neg (by decide)).trans (if_pos rfl)

theorem literal_plain (c : Byte) (l : List Byte) (hb : ¬ c = backslash) (hq : ¬ c = quote) :
    literal (c :: l) = (literal l).map fun r => (c :: r.1, r.2) := by
  rw [literal.eq_def]
  exact (if_neg hb).trans (if_neg hq)

theorem map_cons (c : Byte) (o : Option (List Byte × List Byte)) (d r : List Byte)
    (h : (o.map fun r => (c :: r.1, r.2)) = some (d, r)) : ∃ e, o = some (e, r) ∧ d = c :: e := by
  obtain ⟨⟨e, r'⟩, ho, heq⟩ := Option.map_eq_some_iff.mp h
  obtain ⟨rfl, rfl⟩ := Prod.mk.inj heq
  exact ⟨e, ho, rfl⟩

theorem literal_length (l c r : List Byte) (h : literal l = some (c, r)) :
    ∃ w, l = w ++ r ∧ c.length + 1 ≤ w.length := by
  induction l using literal.induct generalizing c with
  | case1 => cases h
  | case2 => cases h
  | case3 c' l ih =>
    rw [literal_escape] at h
    obtain ⟨e, he, rfl⟩ := map_cons _ _ _ _ h
    obtain ⟨w, rfl, hw⟩ := ih e he
    exact ⟨backslash :: c' :: w, rfl, by simp only [List.length_cons]; omega⟩
  | case4 l =>
    rw [literal_quote] at h
    obtain ⟨rfl, rfl⟩ := Prod.mk.inj (Option.some.inj h)
    exact ⟨[quote], rfl, le_refl _⟩
  | case5 c' l hb hq ih =>
    rw [literal_plain c' l hb hq] at h
    obtain ⟨e, he, rfl⟩ := map_cons _ _ _ _ h
    obtain ⟨w, rfl, hw⟩ := ih e he
    exact ⟨c' :: w, rfl, by simp only [List.length_cons]; omega⟩

theorem text_cons {m m1 m' : Mem Byte} {t eob : Int} {c : Byte} {e : List Byte} (hput : m1.cell t = c)
    (hstart : Mem.Within t eob m m1) (hwithin : Mem.Within (t + 1) eob m1 m') (htext : m'.view (t + 1) e.length = e) :
    Mem.Within t eob m m' ∧ m'.view t (c :: e).length = c :: e := by
  refine ⟨hstart.trans (hwithin.mono (by omega) (le_refl _)), ?_⟩
  rw [List.length_cons, Mem.view, htext, hwithin.cell t (Or.inl (by omega)), hput]

theorem copy_one (m : Mem Byte) (t x eob : Int) (c : Byte) (htx : t < x) (hx : x < eob) :
    Mem.Within t eob m ((m.read x 1).store t [c]) ∧ ∀ j, x ≤ j → ((m.read x 1).store t [c]).cell j = m.cell j := by
  refine ⟨(Mem.Within.read _ 1 (Or.inr ⟨by omega, by omega⟩)).trans (Mem.Within.store t _ (Or.inr ⟨le_refl _, ?_⟩)),
    fun j hj => ?_⟩
  · rw [List.length_singleton]
    omega
  · rw [Mem.cell_store_of_ge _ _ _ _ (by simp; omega), Mem.cell_read]

theorem unescape_complete (l c r : List Byte) (h : literal l = some (c, r)) (n : Nat) (m : Mem Byte) (t x : Int)
    (hview : m.view (x + 1) l.length = l) (ht : t ≤ x) (hn : l.length < n) :
    ∃ m', unescape n m t x = some (m', t + c.length, x + 1 + l.length - r.length) ∧
      (Mem.Within t (x + 1 + l.length) m m' ∧ m'.view t c.length = c) ∧
      ∀ j, x + 1 + l.length - r.length ≤ j → m'.cell j = m.cell j := by
  obtain ⟨n, rfl⟩ : ∃ j, n = j + 1 := ⟨n - 1, by omega⟩
  obtain ⟨hesc, hclose, hplain⟩ := unescape_cases n m t x
  induction l using literal.induct generalizing c n m t x with
  | case1 => cases h
  | case2 => cases h
  | case3 c' l ih =>
    rw [literal_escape] at h
    obtain ⟨e, he, rfl⟩ := map_cons _ _ _ _ h
    obtain ⟨w, hw, hlen⟩ := literal_length l e r he
    have hl := congrArg List.length hw
    rw [List.length_append] at hl
    simp only [List.length_cons] at hview hn ⊢
    obtain ⟨n, rfl⟩ : ∃ j, n = j + 1 := ⟨n - 1, by omega⟩
    rw [Mem.view, Mem.view, List.cons.injEq, List.cons.injEq] at hview
    obtain ⟨hfirst, hsecond, hmore⟩ := hview
    rw [hesc hfirst, hfirst]
    obtain ⟨hcopy, hkept⟩ := copy_one m t (x + 1) (x + 1 + (l.length + 1 + 1 : Nat)) backslash (by omega) (by omega)
    generalize (m.read (x + 1) 1).store t [backslash] = m1 at hcopy hkept ⊢
    rw [hkept _ (by omega), hsecond]
    obtain ⟨hcopy2, hkept2⟩ := copy_one m1 t (x + 1 + 1) (x + 1 + (l.length + 1 + 1 : Nat)) c' (by omega) (by omega)
    have hput := cell_stored m1 (x + 1 + 1) t c'
    generalize (m1.read (x + 1 + 1) 1).store t [c'] = m2 at hcopy2 hkept2 hput ⊢
    have hsame : ∀ j, x + 1 + 1 ≤ j → m2.cell j = m.cell j := fun j hj => (hkept2 j hj).trans (hkept j (by omega))
    obtain ⟨hesc', hclose', hplain'⟩ := unescape_cases n m2 (t + 1) (x + 1 + 1)
    obtain ⟨m', hdone, ⟨hwithin, htext⟩, hrest⟩ := ih e he m2 (t + 1) (x + 1 + 1)
      ((Mem.view_congr _ _ _ _ fun j hj _ => hsame j (by omega)).trans hmore) (by omega) n
      (by omega) hesc' hclose' hplain'
    have hend : x + 1 + 1 + 1 + (l.length : Int) = x + 1 + (l.length + 1 + 1 : Nat) := by omega
    rw [hend] at hdone hwithin hrest
    refine ⟨m', ?_, text_cons hput (hcopy.trans hcopy2) hwithin htext, fun j hj => ?_⟩
    · rw [hdone]
      push_cast
      ring_nf
    · rw [hrest j hj]
      exact hsame j (by omega)
  | case4 l =>
    rw [literal_quote] at h
    obtain ⟨rfl, rfl⟩ := Prod.mk.inj (Option.some.inj h)
    simp only [List.length_cons, List.length_nil] at hview ⊢
    rw [Mem.view, List.cons.injEq] at hview
    rw [hclose hview.1, hview.1]
    obtain ⟨hcopy, hkept⟩ := copy_one m t (x + 1) (x + 1 + (l.length + 1 : Nat)) quote (by omega) (by omega)
    refine ⟨_, ?_, ⟨hcopy.trans (Mem.Within.read t 1 (Or.inr ⟨le_refl _, by omega⟩)), rfl⟩, fun j hj => ?_⟩
    · push_cast
      ring_nf
    · rw [Mem.cell_read]
      exact hkept j (by omega)
  | case5 c' l hb hq ih =>
    rw [literal_plain c' l hb hq] at h
    obtain ⟨e, he, rfl⟩ := map_cons _ _ _ _ h
    obtain ⟨w, hw, hlen⟩ := literal_length l e r he
    have hl := congrArg List.length hw
    rw [List.length_append] at hl
    simp only [List.length_cons] at hview hn ⊢
    obtain ⟨n, rfl⟩ : ∃ j, n = j + 1 := ⟨n - 1, by omega⟩
    rw [Mem.view, List.cons.injEq] at hview
    obtain ⟨hfirst, hmore⟩ := hview
    rw [hplain (hfirst ▸ hb) (hfirst ▸ hq), hfirst]
    obtain ⟨hcopy, hkept⟩ := copy_one m t (x + 1) (x + 1 + (l.length + 1 : Nat)) c' (by omega) (by omega)
    have hput := cell_stored m (x + 1) t c'
    generalize (m.read (x + 1) 1).store t [c'] = m1 at hcopy hkept hput ⊢
    obtain ⟨hesc', hclose', hplain'⟩ := unescape_cases n (m1.read t 1) (t + 1) (x + 1)
    obtain ⟨m', hdone, ⟨hwithin, htext⟩, hrest⟩ := ih e he (m1.read t 1) (t + 1) (x + 1)
      ((Mem.view_read ..).trans ((Mem.view_congr _ _ _ _ fun j hj _ => hkept j (by omega)).trans hmore)) (by omega) n
      (by omega) hesc' hclose' hplain'
    have hend : x + 1 + 1 + (l.length : Int) = x + 1 + (l.length + 1 : Nat) := by omega
    rw [hend] at hdone hwithin hrest
    have hread := hcopy.trans (Mem.Within.read t 1 (Or.inr ⟨le_refl _, by omega⟩))
    refine ⟨m', ?_, text_cons (by rw [Mem.cell_read]; exact hput) hread hwithin htext, fun j hj => ?_⟩
    · rw [hdone]
      push_cast
      ring_nf
    · rw [hrest j hj]
      exact hkept j (by omega)

theorem unescape_turns {n : Nat} {m : Mem Byte} {t x : Int} {q : Mem Byte × Int × Int}
    (h : unescape n m t x = some q) : ∃ j, n = j + 1 := by
  cases n with
  | zero => cases h
  | succ j => exact ⟨j, rfl⟩

theorem unescape_strays (l : List Byte) (h : literal l = none) (n : Nat) (m m' : Mem Byte) (t x t' x' : Int)
    (hview : m.view (x + 1) l.length = l) (ht : t ≤ x) (hdone : unescape n m t x = some (m', t', x')) :
    Mem.Strays (x + 1 + l.length) m m' := by
  have hgrows := unescape_grows n m m' t x t' x' hdone
  induction l using literal.induct generalizing n m t x with
  | case1 => exact (Mem.Strays.read (x + 1) 1 (by omega) (by simp)).behind hgrows
  | case2 =>
    obtain ⟨n, rfl⟩ := unescape_turns hdone
    rw [List.length_singleton] at hview ⊢
    rw [Mem.view, List.cons.injEq] at hview
    rw [(unescape_cases n m t x).1 hview.1] at hdone
    generalize hm1 : (m.read (x + 1) 1).store t [m.cell (x + 1)] = m1 at hdone
    have hlog : m.log <:+ m1.log := by
      rw [← hm1]
      exact ⟨[_, _], rfl⟩
    have hlater := (Mem.log_read _ _ _).trans (unescape_grows _ _ _ _ _ _ _ hdone)
    have hread : Mem.Strays (x + 1 + (1 : Nat)) m1 (m1.read (x + 1 + 1) 1) :=
      Mem.Strays.read _ _ (by omega) (by omega)
    exact (hread.before hlog).behind ((List.suffix_cons _ _).trans hlater)
  | case3 c' l ih =>
    obtain ⟨n, rfl⟩ := unescape_turns hdone
    rw [literal_escape, Option.map_eq_none_iff] at h
    simp only [List.length_cons] at hview ⊢
    rw [Mem.view, Mem.view, List.cons.injEq, List.cons.injEq] at hview
    obtain ⟨hfirst, -, hmore⟩ := hview
    rw [(unescape_cases n m t x).1 hfirst] at hdone
    obtain ⟨-, hkept⟩ := copy_one m t (x + 1) (x + 1 + 1) (m.cell (x + 1)) (by omega) (by omega)
    generalize hm1 : (m.read (x + 1) 1).store t [m.cell (x + 1)] = m1 at hdone hkept
    obtain ⟨-, hkept2⟩ := copy_one m1 t (x + 1 + 1) (x + 1 + 1 + 1) (m1.cell (x + 1 + 1)) (by omega) (by omega)
    generalize hm2 : (m1.read (x + 1 + 1) 1).store t [m1.cell (x + 1 + 1)] = m2 at hdone hkept2
    have hlog : m.log <:+ m2.log := by
      rw [← hm2, ← hm1]
      exact ⟨[_, _, _, _], rfl⟩
    have hrest := ih h n m2 (t + 1) (x + 1 + 1) ((Mem.view_congr _ _ _ _ fun j hj _ =>
      (hkept2 j (by omega)).trans (hkept j (by omega))).trans hmore) (by omega) hdone
      (unescape_grows _ _ _ _ _ _ _ hdone)
    rw [show x + 1 + 1 + 1 + (l.length : Int) = x + 1 + (l.length + 1 + 1 : Nat) by omega] at hrest
    exact hrest.before hlog
  | case4 l =>
    rw [literal_quote] at h
    cases h
  | case5 c' l hb hq ih =>
    obtain ⟨n, rfl⟩ := unescape_turns hdone
    rw [literal_plain c' l hb hq, Option.map_eq_none_iff] at h
    simp only [List.length_cons] at hview ⊢
    rw [Mem.view, List.cons.injEq] at hview
    obtain ⟨hfirst, hmore⟩ := hview
    rw [(unescape_cases n m t x).2.2 (hfirst ▸ hb) (hfirst ▸ hq)] at hdone
    obtain ⟨-, hkept⟩ := copy_one m t (x + 1) (x + 1 + 1) (m.cell (x + 1)) (by omega) (by omega)
    generalize hm1 : (m.read (x + 1) 1).store t [m.cell (x + 1)] = m1 at hdone hkept
    have hlog : m.log <:+ (m1.read t 1).log := by
      rw [← hm1]
      exact ⟨[_, _, _], rfl⟩
    have hrest := ih h n (m1.read t 1) (t + 1) (x + 1) ((Mem.view_read ..).trans ((Mem.view_congr _ _ _ _ fun j hj _ =>
      hkept j (by omega)).trans hmore)) (by omega) hdone (unescape_grows _ _ _ _ _ _ _ hdone)
    rw [show x + 1 + 1 + (l.length : Int) = x + 1 + (l.length + 1 : Nat) by omega] at hrest
    exact hrest.before hlog

theorem unescape_more (n k : Nat) (m : Mem Byte) (t x : Int) (q : Mem Byte × Int × Int)
    (h : unescape n m t x = some q) : unescape (n + k) m t x = some q := by
  induction n generalizing m t x with
  | zero => cases h
  | succ n ih =>
    obtain ⟨hesc, hclose, hplain⟩ := unescape_cases n m t x
    obtain ⟨hesc', hclose', hplain'⟩ := unescape_cases (n + k) m t x
    rw [Nat.add_right_comm]
    by_cases hb : m.cell (x + 1) = backslash
    · rw [hesc hb] at h
      rw [hesc' hb]
      exact ih _ _ _ h
    · by_cases hq : m.cell (x + 1) = quote
      · rw [hclose hq] at h
        rw [hclose' hq]
        exact h
      · rw [hplain hb hq] at h
        rw [hplain' hb hq]
        exact ih _ _ _ h

/-- What the loop comes to at the end of a string. -/
structure Unescaped (v c l : List Byte) (m m1 : Mem Byte) (t x t1 x1 : Int) : Prop where
  target : t1 = t + c.length
  source : x1 + l.length = x + 1 + v.length
  behind : t1 < x1
  within : Mem.Within t (x + 1 + v.length) m m1
  text : m1.view t c.length = c
  rest : m1.view x1 l.length = l

theorem unescape_literal (v c l : List Byte) (h : literal v = some (c, l)) (m : Mem Byte) (t x : Int)
    (hview : m.view (x + 1) v.length = v) (ht : t ≤ x) :
    (∀ n, v.length < n → ∃ m1 t1 x1, unescape n m t x = some (m1, t1, x1)) ∧
      ∀ n m1 t1 x1, unescape n m t x = some (m1, t1, x1) → Unescaped v c l m m1 t x t1 x1 := by
  refine ⟨fun n hn => ?_, fun n m1 t1 x1 hun => ?_⟩
  · obtain ⟨m1, hdone, -⟩ := unescape_complete v c l h n m t x hview ht hn
    exact ⟨m1, _, _, hdone⟩
  · obtain ⟨w, hw, hlen⟩ := literal_length v c l h
    have hl := congrArg List.length hw
    rw [List.length_append] at hl
    obtain ⟨m1', hdone, ⟨hwithin, htext⟩, hkept⟩ := unescape_complete v c l h (n + (v.length + 1)) m t x hview ht
      (by omega)
    -- the turns that were enough find the same
    obtain ⟨rfl, h2⟩ := Prod.mk.inj (Option.some.inj ((unescape_more n _ m t x _ hun).symm.trans hdone))
    obtain ⟨rfl, rfl⟩ := Prod.mk.inj h2
    have hrest : m.view (x + 1 + w.length) l.length = l := by
      have hmid := Mem.view_mid m (x + 1) v.length w l [] (hview.trans (by rw [hw, List.append_nil]))
      exact hmid
    refine ⟨rfl, by omega, by omega, hwithin, htext, ?_⟩
    rw [show x + 1 + (v.length : Int) - l.length = x + 1 + w.length by omega] at hkept ⊢
    exact (Mem.view_congr _ _ _ _ fun j hj _ => hkept j hj).trans hrest

/-! ## Extents -/

variable {next : Next} {R : List Byte → Option Nat → Prop}

theorem extents_cases (n : Nat) (m m' : Mem Byte) (eob t x t' : Int)
    (h : extents next (n + 1) m eob t x = some (m', t')) :
    ∃ m1 t1 x1 m2 y, unescape n m t x = some (m1, t1, x1) ∧ next n m1 x1 eob = some (m2, y) ∧
      ((y = none ∧ m' = m2.move t1 x1 (diff eob x1)) ∨
       ∃ z, y = some z ∧ extents next n (m2.move t1 x1 (diff z x1)) eob (t1 + diff z x1) z = some (m', t')) := by
  rw [extents] at h
  obtain ⟨⟨m1, t1, x1⟩, hun, h⟩ := Option.bind_eq_some_iff.mp h
  obtain ⟨⟨m2, y⟩, hnext, h⟩ := Option.bind_eq_some_iff.mp h
  refine ⟨m1, t1, x1, m2, y, hun, hnext, ?_⟩
  cases y with
  | none => exact Or.inl ⟨rfl, (Prod.mk.inj (Option.some.inj h)).1.symm⟩
  | some z => exact Or.inr ⟨z, rfl, h⟩

theorem log_move (m : Mem Byte) (d s : Int) (k : Nat) : m.log <:+ (m.move d s k).log := ⟨[_, _], rfl⟩

theorem extents_grows (hR : Finds next R) (n : Nat) (m m' : Mem Byte) (eob t x t' : Int)
    (h : extents next n m eob t x = some (m', t')) : m.log <:+ m'.log := by
  induction n generalizing m t x with
  | zero => cases h
  | succ n ih =>
    obtain ⟨m1, t1, x1, m2, y, hun, hnext, hrest⟩ := extents_cases n m m' eob t x t' h
    have hfound := ((Mem.log_read m _ _).trans (unescape_grows _ _ _ _ _ _ _ hun)).trans (hR.grows _ _ _ _ _ _ hnext)
    rcases hrest with ⟨-, rfl⟩ | ⟨z, -, hrest⟩
    · exact hfound.trans (log_move _ _ _ _)
    · exact (hfound.trans (log_move _ _ _ _)).trans (ih _ _ _ hrest)

theorem extents_sound (hR : Finds next R) (n : Nat) (m m' : Mem Byte) (t x t' : Int) (v : List Byte)
    (hview : m.view (x + 1) v.length = v) (ht : t ≤ x)
    (h : extents next n m (x + 1 + v.length) t x = some (m', t')) :
    Mem.Strays (x + 1 + v.length) m m' ∨ ∃ c l, literal v = some (c, l) ∧ Closed R l := by
  induction n generalizing m t x v with
  | zero => cases h
  | succ n ih =>
    obtain ⟨m1, t1, x1, m2, y, hun, hnext, hrest⟩ := extents_cases n m m' _ t x t' h
    have hstart := (Mem.log_read m _ _).trans (unescape_grows _ _ _ _ _ _ _ hun)
    have hlater : m2.log <:+ m'.log := by
      rcases hrest with ⟨-, rfl⟩ | ⟨z, -, hrest⟩
      · exact log_move _ _ _ _
      · exact (log_move _ _ _ _).trans (extents_grows hR _ _ _ _ _ _ _ hrest)
    cases hlit : literal v with
    | none =>
      exact Or.inl ((unescape_strays v hlit n m m1 t x t1 x1 hview ht hun).behind
        ((hR.grows _ _ _ _ _ _ hnext).trans hlater))
    | some cl =>
      obtain ⟨c, l⟩ := cl
      have hu := (unescape_literal v c l hlit m t x hview ht).2 n m1 t1 x1 hun
      rw [← hu.source] at hnext hrest ⊢
      rcases hR.sound n m1 x1 l.length m2 y hnext with hstray | ⟨r, hr, rfl, hcell⟩
      · exact Or.inl ((hstray.before hstart).behind hlater)
      · rw [hu.rest] at hr
        rcases hrest with ⟨hnone, -⟩ | ⟨z, hz, hrest⟩
        · rw [Option.map_eq_none_iff] at hnone
          rw [hnone] at hr
          exact Or.inr ⟨c, l, rfl, .absent hr⟩
        · obtain ⟨i, rfl, rfl⟩ := Option.map_eq_some_iff.mp hz
          obtain ⟨u, v', rfl, rfl⟩ := hR.quoted l i hr
          have hbehind := hu.behind
          have hmove := diff_add x1 u.length
          rw [hmove] at hrest
          have hview' : (m2.move t1 x1 u.length).view (x1 + u.length + 1) v'.length = v' := by
            have hmid := Mem.view_mid m1 x1 _ (u ++ [quote]) v' [] (hu.rest.trans (by simp))
            rw [List.length_append, List.length_singleton] at hmid
            rw [Mem.view_move_after _ _ _ _ _ _ (by omega), Mem.view_congr m1 m2 _ _ fun j _ _ => by rw [hcell]]
            rw [show x1 + (u.length : Int) + 1 = x1 + (u.length + 1 : Nat) by push_cast; ring]
            exact hmid
          have hend : x1 + ((u ++ quote :: v').length : Int) = x1 + u.length + 1 + v'.length := by
            rw [List.length_append, List.length_cons]
            push_cast
            ring
          rw [hend] at hrest ⊢
          rcases ih (m2.move t1 x1 u.length) (t1 + u.length) (x1 + u.length) v' hview' (by omega) hrest with
            hstray | ⟨c', l', hlit', hclosed⟩
          · exact Or.inl (hstray.before ((hstart.trans (hR.grows _ _ _ _ _ _ hnext)).trans (log_move _ _ _ _)))
          · exact Or.inr ⟨c, _, rfl, .extent hr hlit' hclosed⟩

theorem extents_turn (hR : Finds next R) (l : List Byte) (r : Option Nat) (hr : R l r) (n : Nat) (m : Mem Byte)
    (t x : Int) (v c : List Byte) (hlit : literal v = some (c, l)) (hview : m.view (x + 1) v.length = v) (ht : t ≤ x)
    (hn : v.length < n) :
    ∃ m2 x1, x1 + l.length = x + 1 + v.length ∧ t + c.length < x1 ∧ m2.view x1 l.length = l ∧
      Mem.Within t (x + 1 + v.length) m m2 ∧ m2.view t c.length = c ∧
      extents next (n + 1) m (x + 1 + v.length) t x =
        r.elim (some (m2.move (t + c.length) x1 l.length, t + c.length + l.length)) fun (i : Nat) =>
          extents next n (m2.move (t + c.length) x1 i) (x + 1 + v.length) (t + c.length + i) (x1 + i) := by
  obtain ⟨hdone, hspec⟩ := unescape_literal v c l hlit m t x hview ht
  obtain ⟨m1, t1, x1, hun⟩ := hdone n hn
  have hu := hspec n m1 t1 x1 hun
  obtain ⟨w, hw, hlen⟩ := literal_length v c l hlit
  have hlv := congrArg List.length hw
  rw [List.length_append] at hlv
  have hsource := hu.source
  have hbehind := hu.behind
  have htarget := hu.target
  obtain ⟨m2, hnext, hwithin, hcell⟩ := hR.complete n m1 x1 l.length r (by rw [hu.rest]; exact hr) (by omega)
  have hsame : ∀ a j, m2.view a j = m1.view a j := fun a j => Mem.view_congr _ _ _ _ fun _ _ _ => by rw [hcell]
  rw [hsource] at hnext hwithin
  refine ⟨m2, x1, hsource, by omega, (hsame _ _).trans hu.rest,
    hu.within.trans (hwithin.mono (by omega) (le_refl _)), (hsame _ _).trans hu.text, ?_⟩
  rw [extents, hun]
  simp only [Option.bind_eq_bind, Option.bind_some]
  rw [hnext]
  simp only [Option.bind_some]
  cases r with
  | none =>
    rw [Option.map_none, Option.elim_none, ← hsource]
    dsimp only
    rw [diff_add, htarget]
  | some i =>
    rw [Option.map_some, Option.elim_some]
    dsimp only
    rw [diff_add, htarget]

theorem extents_complete (hR : Finds next R) (l out : List Byte) (hl : Massaged R l out) (n : Nat) (m : Mem Byte)
    (t x : Int) (v c : List Byte) (hlit : literal v = some (c, l)) (hview : m.view (x + 1) v.length = v) (ht : t ≤ x)
    (hn : v.length + 1 < n) :
    ∃ m', extents next n m (x + 1 + v.length) t x = some (m', t + (c ++ out).length) ∧
      Mem.Within t (x + 1 + v.length) m m' ∧ m'.view t (c ++ out).length = c ++ out := by
  induction hl generalizing n m t x v c with
  | @absent l h =>
    obtain ⟨n, rfl⟩ : ∃ j, n = j + 1 := ⟨n - 1, by omega⟩
    obtain ⟨m2, x1, hsource, hbehind, hrest, hwithin, htext, hturn⟩ :=
      extents_turn hR l none h n m t x v c hlit hview ht (by omega)
    refine ⟨m2.move (t + c.length) x1 l.length, ?_, hwithin.trans (Mem.Within.move _ _ _ (Or.inr ⟨by omega, by omega⟩)
      (Or.inr ⟨by omega, by omega⟩)), ?_⟩
    · rw [hturn, Option.elim_none, List.length_append]
      push_cast
      ring_nf
    · rw [List.length_append, Mem.view_move_append, htext, hrest]
  | @extent u v' c' l' out' h hc hl ih =>
    obtain ⟨n, rfl⟩ : ∃ j, n = j + 1 := ⟨n - 1, by omega⟩
    obtain ⟨m2, x1, hsource, hbehind, hrest, hwithin, htext, hturn⟩ :=
      extents_turn hR _ (some u.length) h n m t x v c hlit hview ht (by omega)
    obtain ⟨w, hw, hlen⟩ := literal_length v c _ hlit
    have hlv := congrArg List.length hw
    simp only [List.length_append, List.length_cons] at hlv hsource hrest
    have hfront : m2.view x1 u.length = u := by
      have hmid := Mem.view_mid m2 x1 _ [] u (quote :: v') hrest
      simpa using hmid
    have hmore : m2.view (x1 + u.length + 1) v'.length = v' := by
      have hmid := Mem.view_mid m2 x1 _ (u ++ [quote]) v' [] (hrest.trans (by simp))
      rw [List.length_append, List.length_singleton] at hmid
      rw [show x1 + (u.length : Int) + 1 = x1 + (u.length + 1 : Nat) by push_cast; ring]
      exact hmid
    have hmoved : Mem.Within t (x + 1 + v.length) m (m2.move (t + c.length) x1 u.length) :=
      hwithin.trans (Mem.Within.move _ _ _ (Or.inr ⟨by omega, by omega⟩) (Or.inr ⟨by omega, by omega⟩))
    have hgap : (m2.move (t + c.length) x1 u.length).view t (c.length + u.length) = c ++ u := by
      rw [Mem.view_move_append, htext, hfront]
    have hend : x1 + (u.length : Int) + 1 + v'.length = x + 1 + v.length := by omega
    obtain ⟨m', hdone, hthen, htail⟩ := ih n (m2.move (t + c.length) x1 u.length) (t + c.length + u.length)
      (x1 + u.length) v' c' hc (by rw [Mem.view_move_after _ _ _ _ _ _ (by omega), hmore]) (by omega) (by omega)
    rw [hend] at hdone hthen
    refine ⟨m', ?_, hmoved.trans (hthen.mono (by omega) (le_refl _)), ?_⟩
    · rw [hturn, Option.elim_some, hdone]
      simp only [List.length_append]
      push_cast
      ring_nf
    · have hback : t + c.length + u.length = t + (c.length + u.length : Nat) := by
        push_cast
        ring
      rw [hback] at hthen htail
      rw [show (c ++ (u ++ c' ++ out')).length = c.length + u.length + (c' ++ out').length by
        simp only [List.length_append]
        omega]
      rw [Mem.view_append, htail, hthen.view t _ (Or.inl (le_refl _)), hgap]
      simp only [List.append_assoc]

/-! ## The whole line -/

theorem massage_sound (hR : Finds next R) (n : Nat) (m m' : Mem Byte) (buf : Int) (bsz z : Nat)
    (h : massage next n m buf bsz = some (m', z)) :
    Mem.Strays (buf + bsz) m m' ∨ Closed R (m.view buf bsz) := by
  obtain ⟨⟨m1, x⟩, hnext, h⟩ := Option.bind_eq_some_iff.mp h
  have hfound := hR.grows _ _ _ _ _ _ hnext
  have hlater : m1.log <:+ m'.log := by
    cases x with
    | none =>
      obtain ⟨rfl, -⟩ := Prod.mk.inj (Option.some.inj h)
      exact List.suffix_refl _
    | some x =>
      obtain ⟨⟨m2, t⟩, hdone, heq⟩ := Option.map_eq_some_iff.mp h
      obtain ⟨rfl, -⟩ := Prod.mk.inj heq
      exact extents_grows hR _ _ _ _ _ _ _ hdone
  rcases hR.sound n m buf bsz m1 x hnext with hstray | ⟨r, hr, rfl, hcell⟩
  · exact Or.inl (hstray.behind hlater)
  · cases r with
    | none => exact Or.inr (.absent hr)
    | some i =>
      obtain ⟨⟨m2, t⟩, hdone, heq⟩ := Option.map_eq_some_iff.mp h
      obtain ⟨rfl, -⟩ := Prod.mk.inj heq
      obtain ⟨u, v, huv, rfl⟩ := hR.quoted _ i hr
      have hlen := congrArg List.length huv
      rw [Mem.view_length, List.length_append, List.length_cons] at hlen
      have hview := Mem.view_mid m buf bsz (u ++ [quote]) v [] (huv.trans (by simp))
      rw [List.length_append, List.length_singleton] at hview
      have hadd : buf + (u.length : Int) + 1 = buf + (u.length + 1 : Nat) := by
        push_cast
        ring
      have hend : buf + (bsz : Int) = buf + u.length + 1 + v.length := by omega
      rw [hend] at hdone ⊢
      rcases extents_sound hR n m1 m2 (buf + u.length) (buf + u.length) t v (by
        rw [Mem.view_congr m m1 _ _ fun _ _ _ => by rw [hcell], hadd]
        exact hview) (le_refl _) hdone with hstray | ⟨c, l, hlit, hclosed⟩
      · exact Or.inl (hstray.before hfound)
      · rw [huv] at hr ⊢
        exact Or.inr (.extent hr hlit hclosed)

theorem massaged_length (l out : List Byte) (h : Massaged R l out) : out.length ≤ l.length := by
  induction h with
  | absent h => exact le_refl _
  | @extent u v c l out h hc hl ih =>
    obtain ⟨w, rfl, hw⟩ := literal_length v c l hc
    simp only [List.length_append, List.length_cons]
    omega

theorem massage_complete (hR : Finds next R) (n : Nat) (m : Mem Byte) (buf : Int) (bsz : Nat) (out : List Byte)
    (h : Massaged R (m.view buf bsz) out) (hn : bsz < n) :
    ∃ m', massage next n m buf bsz = some (m', out.length) ∧ Mem.Within buf (buf + bsz) m m' ∧
      m'.view buf out.length = out ∧ out.length ≤ bsz := by
  generalize hl : m.view buf bsz = l at h
  have hlen := congrArg List.length hl
  rw [Mem.view_length] at hlen
  have hshort := massaged_length l out h
  cases h with
  | absent h =>
    obtain ⟨m1, hnext, hwithin, hcell⟩ := hR.complete n m buf bsz none (by rw [hl]; exact h) hn
    refine ⟨m1, ?_, hwithin, ?_, le_of_eq hlen.symm⟩
    · unfold massage
      simp only [hnext, Option.bind_eq_bind, Option.bind_some, Option.map_none]
      rw [hlen]
    · rw [← hlen, Mem.view_congr m m1 _ _ fun _ _ _ => by rw [hcell], hl]
  | @extent u v c l out h hc hout =>
    obtain ⟨m1, hnext, hwithin, hcell⟩ := hR.complete n m buf bsz (some u.length) (by rw [hl]; exact h) hn
    rw [List.length_append, List.length_cons] at hlen
    have hsame : ∀ a j, m1.view a j = m.view a j := fun a j => Mem.view_congr _ _ _ _ fun _ _ _ => by rw [hcell]
    have hview := Mem.view_mid m buf bsz (u ++ [quote]) v [] (hl.trans (by simp))
    have hfront := Mem.view_mid m buf bsz [] u (quote :: v) hl
    rw [List.length_append, List.length_singleton, Nat.cast_add, Nat.cast_one, ← Int.add_assoc] at hview
    rw [List.length_nil, Nat.cast_zero, Int.add_zero] at hfront
    obtain ⟨m2, hdone, hthen, htext⟩ := extents_complete hR l out hout n m1 (buf + u.length) (buf + u.length) v c hc
      ((hsame _ _).trans hview) (le_refl _) (by omega)
    have hend : buf + (u.length : Int) + 1 + v.length = buf + bsz := by omega
    rw [hend] at hdone hthen
    refine ⟨m2, ?_, hwithin.trans (hthen.mono (by omega) (le_refl _)), ?_, ?_⟩
    · unfold massage
      simp only [hnext, Option.bind_eq_bind, Option.bind_some, Option.map_some, hdone]
      congr 2
      simp only [List.length_append]
      omega
    · rw [List.append_assoc, List.length_append, Mem.view_append, htext, hthen.view _ _ (Or.inl (le_refl _)),
        hsame, hfront]
    · simp only [List.length_append, List.length_cons] at hshort ⊢
      omega

/-! ## Staying in the line -/

/-- `massage` comes to an end, and touches nothing but the line, which gets no longer. -/
def Stays (next : Next) (m : Mem Byte) (buf : Int) (bsz : Nat) : Prop :=
  ∃ n m' z, massage next n m buf bsz = some (m', z) ∧ Mem.Within buf (buf + bsz) m m' ∧ z ≤ bsz

theorem stays_iff (hR : Finds next R) (m : Mem Byte) (buf : Int) (bsz : Nat) :
    Stays next m buf bsz ↔ Closed R (m.view buf bsz) := by
  constructor
  · rintro ⟨n, m', z, hdone, hwithin, -⟩
    rcases massage_sound hR n m m' buf bsz z hdone with hstray | hclosed
    · exact absurd hwithin hstray.not_within
    · exact hclosed
  · intro hclosed
    obtain ⟨out, hout⟩ := (closed_iff R _).mp hclosed
    obtain ⟨m', hdone, hwithin, -, hle⟩ := massage_complete hR (bsz + 1) m buf bsz out hout (by omega)
    exact ⟨_, m', _, hdone, hwithin, hle⟩

/-- **`massage` stays in its line** when all that it finds there is closed. -/
theorem massage_stays (m : Mem Byte) (buf : Int) (bsz : Nat) :
    (Stays next_data m buf bsz ↔ Closed NextData (m.view buf bsz)) ∧
      (Stays next_quote m buf bsz ↔ Closed NextQuote (m.view buf bsz)) :=
  ⟨stays_iff next_data_finds m buf bsz, stays_iff next_quote_finds m buf bsz⟩

/-- As many turns as there are bytes are enough for a closed line. If they are not `massage` has left the line, and it
is not said where it goes from there. -/
def run (next : Next) : Snarf.Massage := fun m a n => (massage next (n + 1) m a n).getD (m.read (a + n) 1, n)

theorem run_stays (hR : Finds next R) (m : Mem Byte) (a : Int) (n : Nat) (h : Closed R (m.view a n)) :
    Mem.Within a (a + n) m (run next m a n).1 ∧ (run next m a n).2 ≤ n := by
  obtain ⟨out, hout⟩ := (closed_iff R _).mp h
  obtain ⟨m', hdone, hwithin, -, hle⟩ := massage_complete hR (n + 1) m a n out hout (by omega)
  unfold run
  rw [hdone, Option.getD_some]
  exact ⟨hwithin, hle⟩

/-- Which `massage` takes the place of the weak one. -/
inductive Program
  | btsp | trtwss | spacebtc | paymium | other

def Program.unfolder : Program → Unfolder
  | .btsp | .trtwss => ⟨run next_data, Closed NextData, run_stays next_data_finds⟩
  | .spacebtc | .paymium => ⟨run next_quote, Closed NextQuote, run_stays next_quote_finds⟩
  | .other => weak

/-- A line that ends in a string. -/
def openLine : Mem Byte := ⟨fun i => if i = 0 then 44 else if i = 1 then quote else nl, 3, []⟩

theorem open_not_closed : ¬ Closed NextQuote [44, quote, nl] := by
  have hnext : ∀ r, NextQuote [44, quote, nl] r → r = some 1 := by
    intro r h
    have hat : find (ascii ",\"") [44, quote, nl] = some 0 := by decide
    cases h with
    | absent h => cases hat.symm.trans h
    | found h => rw [Option.some.inj (h.symm.trans hat)]
  intro h
  generalize hl : [44, quote, nl] = l at h hnext
  cases h with
  | absent h => cases hnext _ h
  | @extent u v c l h hc hrest =>
    have hu : u.length = 1 := Option.some.inj (hnext _ h)
    obtain ⟨a, rfl⟩ := List.length_eq_one_iff.mp hu
    simp only [List.singleton_append, List.cons.injEq, true_and] at hl
    have hopen : literal [nl] = none := by decide
    rw [← hl.2, hopen] at hc
    cases hc

theorem open_string_strays :
    ¬ ∀ (m : Mem Byte) (buf : Int) (bsz : Nat) (body : List Byte), m.view buf bsz = body ++ [nl] →
      Stays next_data m buf bsz ∧ Stays next_quote m buf bsz := by
  intro h
  exact open_not_closed ((stays_iff next_quote_finds openLine 0 3).mp (h openLine 0 3 [44, quote] (by decide)).2)

end Coins.Snarf.Massage
