import Coins.Quotes.Tokens

/-!
# The finaliser

`btsp2b.c` and `cex2b.c` write `tok[r].start = -1ULL` behind the tokens that were counted, so that loops
over stretches of tokens end there. Behind the finaliser there is what was there before.
-/

open Coins.Numeral Coins.Questions Coins.Forest

namespace Coins.Quotes

open jsmntype_t

/-- `tok[r].start = -1ULL` -/
def finaliser (t : jsmntok_t) : jsmntok_t := { t with start := npos }

/-- What is there without the JSON part `on` and its tokens: what was there before, and the front of the
line. -/
def before (old : (c : Cell) → c.Ans) (line on : List Byte) : (c : Cell) → c.Ans
  | .tok i => old (.tok i)
  | .byte p =>
    let at_ := line.length - on.length + p
    if p < 0 ∧ 0 ≤ at_ then line.getD at_.toNat 0 else old (.byte p)
  | .str p => old (.str p)
  | .room cap n => old (.room cap n)
  | .null => old .null

section
variable (on : List Byte) (ts : List jsmntok_t) (old : (c : Cell) → c.Ans)

/-- The token in the place behind the last one. -/
def leftover : jsmntok_t := old (.tok ts.length)

/-- The memory once the finaliser is in its place. -/
def finalised : (c : Cell) → c.Ans := memory on (ts ++ [finaliser (leftover ts old)]) old

end

/-- `for (; tok[i + 1U].start < end; i++)`: the last `i`. -/
def skip (eot fuel i : Nat) : Prog Nat := do
  let j ← ffw eot fuel (i + 1)
  pure (j - 1)

/-- `tokncpy` behind what is in `buf`. -/
def tokncpy (buf : List Byte) (i : Nat) : Prog (List Byte) := do
  memncpy buf (← text (← toks i))

/-- The two tokens behind `tok[i]`. -/
def level (hdr : List Byte) (i : Nat) : Prog (List Byte) := do
  let buf ← tokncpy hdr (i + 1)
  let buf ← memncpy buf [tab]
  let buf ← tokncpy buf (i + 2)
  memncpy buf [nl]

/-- A level for each array from `tok[i]` on that begins in front of `eot`: header `lab`, its first two
tokens. Its tag is `lvl`, and `more` for the next ones. -/
def side (lab : Byte → List Byte) (more : Byte) (eot : Nat) : Nat → Byte → Nat → Prog (List (List Byte))
  | 0, _, _ => pure []
  | fuel + 1, lvl, i => do
    if (← toks i).start < eot then
      if (← toks i).type ≠ JSMN_ARRAY then side lab more eot fuel lvl (i + 1) else
      let buf ← level (lab lvl) i
      let out ← side lab more eot fuel more (i + 3)
      pure (buf :: out)
    else pure []

/-! ## Cells that there are -/

/-- A place in `tok[n]`, or a cell of another kind. -/
def in_array (n : Nat) : Cell → Bool
  | .tok i => decide (0 ≤ i ∧ i < n)
  | _ => true

/-- A place in `tok[n]`, a byte, or a stretch of an array that is long enough. -/
def legal (n : Nat) : Cell → Bool
  | .tok i => decide (0 ≤ i ∧ i < n)
  | .byte _ => true
  | .str _ => true
  | .room cap k => decide (k ≤ cap)
  | .null => false

section
variable {on : List Byte} {ts : List jsmntok_t}

theorem run_legal {n : Nat} (hn : ts.length ≤ n) (old : (c : Cell) → c.Ans) {α : Type} {q : Prog α} {a : α}
    (h : Query.run (known on ts) q = some a) :
    Query.run (Query.limited (legal n) (memory on ts old)) q = some a := by
  refine Query.run_mono (fun c x hx => ?_) q a h
  have hok : legal n c = true := by
    cases c with
    | tok i =>
      change (if 0 ≤ i then ts[i.toNat]? else none) = some x at hx
      split at hx
      · rename_i hi
        have hlt := (List.getElem?_eq_some_iff.mp hx).1
        exact decide_eq_true ⟨hi, by omega⟩
      · cases hx
    | byte p => rfl
    | str p => rfl
    | room cap k =>
      change (if k ≤ cap then some () else none) = some x at hx
      split at hx
      · rename_i hk
        exact decide_eq_true hk
      · cases hx
    | null => cases hx
  unfold Query.limited
  rw [if_pos hok, memory_known on ts old c x hx]

theorem asked_bytes (env : (c : Cell) → c.Ans) (p : Int) (n : Nat) :
    ∀ c ∈ Query.asked env (bytes p n), ∃ q, c = Cell.byte q := by
  induction n generalizing p with
  | zero =>
    unfold bytes
    intro c hc
    cases hc
  | succ n ih =>
    unfold bytes
    rw [Query.asked_bind, Query.asked_bind]
    intro c hc
    simp only [List.mem_append, Query.asked_pure, List.not_mem_nil, or_false] at hc
    rcases hc with hc | hc
    · exact ⟨p, List.mem_singleton.mp hc⟩
    · exact ih _ c hc

theorem length_bytes (env : (c : Cell) → c.Ans) (p : Int) (n : Nat) :
    ((bytes p n).eval env).length = n := by
  induction n generalizing p with
  | zero => rfl
  | succ n ih =>
    unfold bytes
    rw [Query.eval_bind, Query.eval_bind, Query.eval_pure, List.length_cons, ih]

theorem eval_bytes_eq (old : (c : Cell) → c.Ans) (p : Nat) (w : List Byte) (hp : p ≤ on.length) (hw : 0 ∉ w) :
    (bytes p w.length).eval (memory on ts old) = w ↔ w <+: on.drop p := by
  induction w generalizing p with
  | nil => simp [bytes]
  | cons c w ih =>
    simp only [List.mem_cons, not_or] at hw
    have hbyte : ∀ b, (on ++ [0])[p]? = some b → (byte_at p).eval (memory on ts old) = b := by
      intro b hb
      exact eval_known ((run_byte_at p).trans hb) old
    rw [List.length_cons]
    unfold bytes
    rw [Query.eval_bind, Query.eval_bind, Query.eval_pure]
    by_cases hlt : p < on.length
    · have hnext := ih (p + 1) (by omega) hw.2
      rw [Int.natCast_add] at hnext
      rw [hbyte on[p] (by rw [List.getElem?_append_left hlt, List.getElem?_eq_getElem hlt]),
        List.drop_eq_getElem_cons hlt, List.cons_prefix_cons, List.cons_eq_cons, eq_comm, ← hnext]
      exact Iff.rfl
    · have hend : p = on.length := by omega
      subst hend
      rw [hbyte 0 (by simp), List.drop_length]
      constructor
      · intro h
        exact absurd (List.cons_eq_cons.mp h).1 hw.1
      · intro h
        have := h.length_le
        rw [List.length_cons, List.length_nil] at this
        omega

theorem hash_four (old : (c : Cell) → c.Ans) {t : jsmntok_t} (ht : Within on t) {w : List Byte}
    (hlen : w.length = 4) (hw : 0 ∉ w) :
    hash ((bytes t.ptr 4).eval (memory on ts old)) = hash w ↔ w <+: on.drop t.start := by
  have heq : (bytes t.start w.length).eval (memory on ts old) = w ↔ w <+: on.drop t.start :=
    eval_bytes_eq old t.start w (Nat.le_trans ht.ordered ht.inside) hw
  rw [hlen] at heq
  rw [ptr_within ht, ← heq]
  exact ⟨hash_four_inj _ _ (length_bytes ..) hlen, fun h => by rw [h]⟩

theorem run_skip_tree {e : Json} (hnested : e.nested jsmntok_t.start jsmntok_t.end_ = true)
    {i : Nat} {b : jsmntok_t} {bs : List jsmntok_t} (hdrop : ts.drop i = e.pre ++ b :: bs)
    (hb : e.root.end_ ≤ b.start) (fuel : Nat) (hfuel : e.pre.length ≤ fuel) :
    Query.run (known on ts) (skip e.root.end_ fuel i) = some (i + e.pre.length - 1) := by
  have hpos : 0 < e.pre.length := by
    rw [pre_eq]
    exact Nat.succ_pos _
  unfold skip
  rw [Query.run_then _ (run_ffw_tree hnested hdrop hb (Nat.lt_succ_self i) (by omega) fuel hfuel)]
  rfl

end

/-! ## Levels -/

/-- A price, a quantity, and what else there is. -/
structure Level where
  a : jsmntok_t
  p : jsmntok_t
  q : jsmntok_t
  more : List Json

def Level.json (v : Level) : Json := .node v.a (.node v.p [] :: .node v.q [] :: v.more)

/-- Nothing in it but itself looks like a level. -/
def Level.Single (v : Level) : Prop := v.a.type = JSMN_ARRAY ∧ ∀ t ∈ pres v.more, t.type ≠ JSMN_ARRAY

section
variable (on : List Byte) {ts : List jsmntok_t} (lab : Byte → List Byte) (more : Byte)

def Level.row (lvl : Byte) (v : Level) : List Byte :=
  lab lvl ++ span on v.p ++ [tab] ++ span on v.q ++ [nl]

/-- The records of a side, the first one with the tag `lvl`. -/
def rows (lvl : Byte) : List Level → List (List Byte)
  | [] => []
  | v :: vs => v.row on lab lvl :: vs.map (Level.row on lab more)

theorem rows_more (vs : List Level) : rows on lab more more vs = vs.map (Level.row on lab more) := by
  cases vs <;> rfl

variable {on}

theorem run_tokncpy {i : Nat} {l : List jsmntok_t} {k : Nat} {t : jsmntok_t} (hdrop : ts.drop i = l)
    (hk : l[k]? = some t) (ht : Within on t) (buf : List Byte) :
    Query.run (known on ts) (tokncpy buf (i + k)) =
      if (buf ++ span on t).length ≤ 256 then some (buf ++ span on t) else none := by
  unfold tokncpy
  rw [Query.run_then _ (run_at hdrop k hk), Query.run_then _ (run_text ht), run_memncpy]

theorem run_level {v : Level} {i : Nat} {l : List jsmntok_t} (hdrop : ts.drop i = v.a :: v.p :: v.q :: l)
    (hp : Within on v.p) (hq : Within on v.q) (lvl : Byte) :
    Query.run (known on ts) (level (lab lvl) i) =
      if (v.row on lab lvl).length ≤ 256 then some (v.row on lab lvl) else none := by
  unfold level Level.row
  rw [Query.run_bind, run_tokncpy hdrop (k := 1) rfl hp]
  split
  · rw [Option.bind_some, run_memncpy_then]
    split
    · rw [Query.run_bind, run_tokncpy hdrop (k := 2) rfl hq]
      split
      · exact run_memncpy ..
      · rename_i hfar
        rw [if_neg (fun h => hfar (Nat.le_trans (by simp) h))]
        rfl
    · rename_i hfar
      rw [if_neg (fun h => hfar (Nat.le_trans (by simp) h))]
  · rename_i hfar
    rw [if_neg (fun h => hfar (Nat.le_trans (by simp) h))]
    rfl

theorem run_side_plain {eot : Nat} (l : List jsmntok_t) (i fuel : Nat) (lvl : Byte) {rest : List jsmntok_t}
    (hdrop : ts.drop i = l ++ rest) (hl : ∀ t ∈ l, t.start < eot ∧ t.type ≠ JSMN_ARRAY)
    (hfuel : l.length ≤ fuel) :
    Query.run (known on ts) (side lab more eot fuel lvl i) =
      Query.run (known on ts) (side lab more eot (fuel - l.length) lvl (i + l.length)) := by
  induction l generalizing i fuel with
  | nil => rfl
  | cons t l ih =>
    obtain ⟨fuel, rfl⟩ : ∃ f, fuel = f + 1 := ⟨fuel - 1, by rw [List.length_cons] at hfuel; omega⟩
    obtain ⟨hstart, htype⟩ := hl t (List.mem_cons_self ..)
    conv => lhs; unfold side
    rw [Query.run_then _ (run_here hdrop), if_pos hstart, Query.run_then _ (run_here hdrop), if_pos htype,
      ih (i + 1) fuel (drop_more (l := [t]) hdrop) (fun t ht => hl t (List.mem_cons_of_mem _ ht))
        (by rw [List.length_cons] at hfuel; omega), List.length_cons]
    congr 2 <;> omega

/-- **A side**: a record for each level, if there is room. -/
theorem run_side {eot : Nat} {next : jsmntok_t} {rest : List jsmntok_t} (hnext : eot ≤ next.start)
    (vs : List Level) (hsingle : ∀ v ∈ vs, v.Single) (i l fuel : Nat) (lvl : Byte)
    (hall : nestedAll jsmntok_t.start jsmntok_t.end_ l eot (vs.map Level.json) = true)
    (hdrop : ts.drop i = pres (vs.map Level.json) ++ next :: rest)
    (hin : ∀ t ∈ pres (vs.map Level.json), Within on t) (hfuel : (pres (vs.map Level.json)).length < fuel) :
    Query.run (known on ts) (side lab more eot fuel lvl i) =
      if ∀ r ∈ rows on lab more lvl vs, r.length ≤ 256 then some (rows on lab more lvl vs) else none := by
  induction vs generalizing i l fuel lvl with
  | nil =>
    obtain ⟨fuel, rfl⟩ := Nat.exists_eq_succ_of_ne_zero (Nat.ne_of_gt hfuel)
    unfold side
    rw [Query.run_then _ (run_here hdrop), if_neg (by omega), if_pos (by simp [rows])]
    rfl
  | cons v vs ih =>
    obtain ⟨fuel, rfl⟩ := Nat.exists_eq_succ_of_ne_zero (Nat.ne_of_gt (Nat.zero_lt_of_lt hfuel))
    obtain ⟨harray, hmore⟩ := hsingle v (List.mem_cons_self ..)
    have hlow := nestedAll_mem _ _ _ hall
    obtain ⟨hlo, hhi, hnested, hrest⟩ := (nestedAll_cons ..).mp hall
    have hlast := rows_more on lab more vs
    simp only [List.map_cons, Level.json, pres_cons, pre_node, pres_nil, List.nil_append, List.cons_append]
      at hdrop hin hfuel hlow
    have hlevel : ts.drop (i + 3) = pres v.more ++ (pres (vs.map Level.json) ++ next :: rest) := by
      rw [← List.append_assoc]
      exact drop_more (l := [v.a, v.p, v.q]) hdrop
    have hplain : Query.run (known on ts) (side lab more eot fuel more (i + 3)) = _ :=
      run_side_plain lab more (pres v.more) (i + 3) fuel more hlevel
        (fun t ht => ⟨by have := hlow t (by simp [ht]); omega, hmore t ht⟩)
        (by simp only [List.length_cons, List.length_append] at hfuel; omega)
    have hnext := ih (fun w hw => hsingle w (List.mem_cons_of_mem _ hw)) (i + 3 + (pres v.more).length) _
      (fuel - (pres v.more).length) more hrest (drop_more hlevel) (fun t ht => hin t (by simp [ht]))
      (by simp only [List.length_cons, List.length_append] at hfuel; omega)
    have hfit := @List.forall_mem_cons _ (fun r => r.length ≤ 256) (v.row on lab lvl) (rows on lab more more vs)
    unfold side
    rw [Query.run_then _ (run_here hdrop), if_pos (by have := hlow v.a (by simp); omega),
      Query.run_then _ (run_here hdrop), if_neg (not_not.mpr harray), Query.run_bind,
      run_level lab hdrop (hin _ (by simp)) (hin _ (by simp)), rows, ← hlast]
    by_cases hv : (v.row on lab lvl).length ≤ 256
    · rw [if_pos hv, Option.bind_some, Query.run_bind, hplain, hnext]
      by_cases hvs : ∀ r ∈ rows on lab more more vs, r.length ≤ 256
      · rw [if_pos hvs, if_pos (hfit.mpr ⟨hv, hvs⟩)]
        rfl
      · rw [if_neg hvs, if_neg (fun h => hvs (hfit.mp h).2)]
        rfl
    · rw [if_neg hv, if_neg (fun h => hv (hfit.mp h).1)]
      rfl

end

end Coins.Quotes
