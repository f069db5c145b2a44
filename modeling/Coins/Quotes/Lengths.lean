import Coins.Quotes.Hit2b
import Coins.Quotes.Inside

/-!
# The buffer of `hit2b`

Every symbol stays in the buffer for all that follows, so what is in front of a price grows with each.
-/

open Coins.Numeral Coins.Questions

namespace Coins.Quotes.Hit2b

open jsmntype_t hit_side_t

/-! ## Fields -/

/-- The length of a price, and that of the size behind it if there is one. -/
structure Item where
  price : Nat
  size : Option Nat

/-- With the separators. -/
def Item.len (e : Item) : Nat := e.price + 1 + e.size.elim 0 (· + 1)

/-- The length of a symbol, or a list. -/
inductive Part
  | name (z : Nat)
  | list (es : List Item)

section
variable (env : (c : Cell) → c.Ans)

def tok (i : Nat) : jsmntok_t := (toks i).eval env

/-- The next `n` entries behind `tok[i]`, and the token that `i` is at in the end. -/
def items : Nat → Nat → List Item × Nat
  | 0, i => ([], i)
  | n + 1, i =>
    if (tok env (i + 1)).type ≠ JSMN_OBJECT then ([], i + 1)
    else if (tok env (i + 2)).type ≠ JSMN_STRING then ([], i + 2)
    else if (memcmp_at (tok env (i + 2)).ptr (ascii "price")).eval env then ([], i + 3)
    else if (tok env (i + 4)).type ≠ JSMN_STRING then ([⟨(tok env (i + 3)).len, none⟩], i + 4)
    else
      let sized := !(memcmp_at (tok env (i + 4)).ptr (ascii "size")).eval env
      let r := items n (i + 5)
      (⟨(tok env (i + 3)).len, if sized then some (tok env (i + 5)).len else none⟩ :: r.1, r.2)

/-- `tok[i]` behind `symbol`, and the token that `i` is at in the end. -/
def nameAt (i : Nat) : Option Part × Nat :=
  if (tok env i).type = JSMN_STRING then (some (.name (tok env i).len), i) else (none, i)

/-- `tok[i]` behind the name of a side. -/
def listAt (i : Nat) : Option Part × Nat :=
  if (tok env i).type = JSMN_ARRAY then
    (some (.list (items env (tok env i).size i).1), (items env (tok env i).size i).2)
  else (none, i)

def part (i : Nat) : Option Part × Nat :=
  if (tok env i).type ≠ JSMN_STRING then (none, i)
  else
    let hx := hash ((bytes (tok env i).ptr 3).eval env)
    if hx = hx_sym then nameAt env (i + 1)
    else if hx = hx_bid ∨ hx = hx_ask ∨ hx = hx_tra then listAt env (i + 1)
    else (none, i)

/-- The symbols and lists of a line. -/
def parts (r : Nat) : Nat → Nat → List Part
  | 0, _ => []
  | fuel + 1, i => if i < r then (part env i).1.toList ++ parts r fuel ((part env i).2 + 1) else []

end

/-! ## What has to fit -/

/-- Behind `h` bytes, with what announces a reset behind a symbol. -/
def Part.fits (rstp : Bool) (h : Nat) : Part → Prop
  | .name z => h + z + 1 ≤ 256 ∧ (rstp = true → h + z + 8 ≤ 256)
  | .list es => h + 5 ≤ 256 ∧ ∀ e ∈ es, h + 5 + e.len ≤ 256

/-- What is in front of the next part. -/
def Part.behind (h : Nat) : Part → Nat
  | .name z => h + z + 1
  | .list _ => h

def PartsFit (rstp : Bool) : Nat → List Part → Prop
  | _, [] => True
  | h, p :: ps => p.fits rstp h ∧ PartsFit rstp (p.behind h) ps

section
variable {env : (c : Cell) → c.Ans} {α : Type}

theorem eval_entries (hdr : List Byte) (n i : Nat) :
    ((entries hdr n i).eval env).2 = (items env n i).2 := by
  induction n generalizing i with
  | zero => rfl
  | succ n ih =>
    unfold entries items tok
    simp only [Query.eval_bind, eval_memncpy, apply_ite (Query.eval env), Query.eval_pure, apply_ite Prod.snd, ih,
      ite_self]

theorem inside_entries (hdr : List Byte) (n i : Nat) :
    Inside env (entries hdr n i) ↔ ∀ e ∈ (items env n i).1, hdr.length + e.len ≤ 256 := by
  induction n generalizing i with
  | zero => simp [entries, items]
  | succ n ih =>
    unfold entries items tok
    simp only [inside_bind, inside_ite, inside_toks, inside_memcmp_at, inside_memncpy, inside_text, inside_pure,
      eval_memncpy, true_and, and_true, ih, List.length_append, List.length_singleton, length_text]
    by_cases hobj : ((toks (i + 1)).eval env).type ≠ JSMN_OBJECT
    · simp [hobj]
    · by_cases hstr : ((toks (i + 2)).eval env).type ≠ JSMN_STRING
      · simp [hobj, hstr]
      · by_cases hprice : (memcmp_at ((toks (i + 2)).eval env).ptr (ascii "price")).eval env = true
        · simp [hobj, hstr, hprice]
        · generalize ((toks (i + 3)).eval env).len = price
          generalize ((toks (i + 5)).eval env).len = size
          simp only [if_neg hobj, if_neg hstr, if_neg hprice]
          by_cases hstr' : ((toks (i + 4)).eval env).type ≠ JSMN_STRING
          · simp only [if_pos hstr', and_true, List.forall_mem_singleton, Item.len, Option.elim_none, Nat.add_zero]
            omega
          · simp only [if_neg hstr']
            generalize (memcmp_at ((toks (i + 4)).eval env).ptr (ascii "size")).eval env = missing
            cases missing with
            | true =>
              simp only [if_true, Bool.not_true, Bool.false_eq_true, if_false, List.forall_mem_cons, Item.len,
                Option.elim_none, Nat.add_zero, Nat.add_assoc]
              constructor
              · rintro ⟨-, h, hmore⟩
                exact ⟨h, hmore⟩
              · rintro ⟨h, hmore⟩
                exact ⟨by omega, h, hmore⟩
            | false =>
              simp only [if_true, Bool.not_false, Bool.false_eq_true, if_false, List.forall_mem_cons, Item.len,
                Option.elim_some]
              constructor
              · rintro ⟨-, -, -, h, hmore⟩
                exact ⟨by omega, hmore⟩
              · rintro ⟨h, hmore⟩
                exact ⟨by omega, by omega, by omega, by omega, hmore⟩

theorem sides_length (sd : hit_side_t) : (sides sd).length = 4 := by
  cases sd <;> rfl

/-- A turn over `p`, with `buf` in front. -/
structure Turns (env : (c : Cell) → c.Ans) (rstp : Bool) (buf : List Byte) (p : Option Part × Nat) (q : Prog Turn) :
    Prop where
  inside : Inside env q ↔ ∀ x, p.1 = some x → x.fits rstp buf.length
  buf : (q.eval env).buf.length = p.1.elim buf.length (Part.behind buf.length)
  i : (q.eval env).i = p.2

theorem turns_none (rstp : Bool) (buf : List Byte) (i : Nat) :
    Turns env rstp buf (none, i) (pure ⟨[], buf, i⟩) := ⟨by simp, rfl, rfl⟩

theorem Turns.after {rstp : Bool} {buf : List Byte} {p : Option Part × Nat} {α : Type} {a : Prog α}
    {f : α → Prog Turn} (ha : Inside env a) (h : Turns env rstp buf p (f (a.eval env))) :
    Turns env rstp buf p (a >>= f) where
  inside := by rw [inside_bind, and_iff_right ha, h.inside]
  buf := by rw [Query.eval_bind, h.buf]
  i := by rw [Query.eval_bind, h.i]

theorem turns_name (rstp : Bool) (buf : List Byte) (i : Nat) (t : jsmntok_t) :
    Turns env rstp buf (some (.name t.len), i) (do
      let buf ← memncpy buf (← text t)
      let buf ← memncpy buf [tab]
      if rstp then
        let clr ← memncpy buf (ascii "clr0\t\t\n")
        pure ⟨[clr], buf, i⟩
      else pure ⟨[], buf, i⟩) := by
  have hclr : (ascii "clr0\t\t\n").length = 7 := by decide
  have hlen : ((text t).eval env).length = t.len := length_text t
  generalize t.len = z at hlen
  refine ⟨?_, ?_, ?_⟩
  · simp only [inside_bind, inside_ite, inside_memncpy, inside_text, inside_pure, eval_memncpy, hclr,
      true_and, and_true,
      List.length_append, List.length_singleton, hlen, Option.some.injEq, forall_eq', Part.fits]
    cases rstp with
    | true =>
      simp only [if_true, true_imp_iff]
      omega
    | false =>
      simp only [Bool.false_eq_true, if_false, false_imp_iff, and_true]
      omega
  · cases rstp <;> simp [Part.behind, hlen, Nat.add_assoc]
  · cases rstp <;> simp

theorem turns_symbol (rstp : Bool) (buf : List Byte) (i : Nat) :
    Turns env rstp buf (nameAt env i) (symbol rstp buf i) := by
  unfold symbol nameAt tok
  refine Turns.after (inside_toks i) ?_
  split
  · exact Turns.after (inside_toks i) (turns_name rstp buf i _)
  · exact turns_none rstp buf i

theorem turns_array (rstp : Bool) (buf : List Byte) (sd : hit_side_t) (i : Nat) :
    Turns env rstp buf (listAt env i) (array buf sd i) := by
  unfold array listAt tok
  refine Turns.after (inside_toks i) ?_
  split
  · have hlen : (buf ++ sides sd ++ [tab]).length = buf.length + 5 := by
      rw [List.length_append, List.length_append, sides_length, List.length_singleton]
    refine ⟨?_, ?_, ?_⟩
    · simp only [arr, inside_bind, inside_memncpy, eval_memncpy, inside_toks, inside_entries, inside_pure, hlen,
        true_and, and_true, List.length_append, sides_length, List.length_singleton, Option.some.injEq,
        forall_eq', Part.fits]
      constructor
      · rintro ⟨-, h, hall⟩
        exact ⟨by omega, hall⟩
      · rintro ⟨h, hall⟩
        exact ⟨by omega, by omega, hall⟩
    · rw [Query.eval_bind]
      rfl
    · simp only [arr, Query.eval_bind, eval_memncpy, eval_entries, Query.eval_pure]
  · exact turns_none rstp buf i

theorem turns_turn (rstp : Bool) (buf : List Byte) (i : Nat) :
    Turns env rstp buf (part env i) (turn rstp buf i) := by
  unfold turn part tok
  refine Turns.after (inside_toks i) ?_
  split
  · exact turns_none rstp buf i
  · refine Turns.after (inside_bytes _ 3) ?_
    generalize hash ((bytes ((toks i).eval env).ptr 3).eval env) = hx
    simp only
    split
    · exact turns_symbol rstp buf (i + 1)
    · by_cases hbid : hx = hx_bid
      · rw [if_pos hbid, if_pos (Or.inl hbid)]
        exact turns_array rstp buf SIDE_BID (i + 1)
      · by_cases hask : hx = hx_ask
        · rw [if_neg hbid, if_pos hask, if_pos (Or.inr (Or.inl hask))]
          exact turns_array rstp buf SIDE_ASK (i + 1)
        · by_cases htra : hx = hx_tra
          · rw [if_neg hbid, if_neg hask, if_pos htra, if_pos (Or.inr (Or.inr htra))]
            exact turns_array rstp buf SIDE_TRA (i + 1)
          · rw [if_neg hbid, if_neg hask, if_neg htra, if_neg (by simp [hbid, hask, htra])]
            exact turns_none rstp buf i

theorem inside_scan (rstp : Bool) (r fuel : Nat) (buf : List Byte) (i : Nat) :
    Inside env (scan rstp r fuel buf i) ↔ PartsFit rstp buf.length (parts env r fuel i) := by
  induction fuel generalizing buf i with
  | zero => simp [scan, parts, PartsFit]
  | succ fuel ih =>
    obtain ⟨hinside, hbuf, hi⟩ : Turns env rstp buf (part env i) (turn rstp buf i) := turns_turn rstp buf i
    unfold scan parts
    rw [inside_ite]
    split
    · rw [inside_bind, inside_bind, hinside, ih, hbuf, hi, and_iff_left (inside_pure _)]
      cases (part env i).1 with
      | none => simp
      | some p => simp [PartsFit]
    · simp [PartsFit]

/-- A line that passes the checks has room for its parts behind the two times. -/
def ProcessFits (env : (c : Cell) → c.Ans) (rt : tv_t) (r : Nat) : Prop :=
  let hx := hash ((text (tok env 1)).eval env)
  let xt := smstotv ((str_at ((tok_at (r - 1)).eval env).ptr).eval env)
  (tok env 0).type = JSMN_OBJECT → (tok env 1).type = JSMN_STRING → (tok env 2).type = JSMN_OBJECT →
    (hx = hx_incr ∨ hx = hx_full) → ((tok_at (r - 2)).eval env).type = JSMN_STRING →
    ((tok_at (r - 1)).eval env).type = JSMN_PRIMITIVE →
    (memcmp_at ((tok_at (r - 2)).eval env).ptr (ascii "timestamp")).eval env = false → xt ≠ NOT_A_TIME →
    PartsFit (decide (hx ≠ hx_incr)) (times xt rt).length (parts env r r 3)

theorem inside_check (c d : Prop) [Decidable c] (a : α) (q : Prog α) (P : Prop) (hd : d ↔ ¬ c) (h : Inside env q ↔ P) :
    Inside env (if c then pure a else q) ↔ (d → P) := by
  rw [inside_ite, hd]
  by_cases hc : c
  · simp [hc]
  · simp [hc, h]

theorem inside_process (rt : tv_t) (r : Nat) : Inside env (process rt r) ↔ ProcessFits env rt r := by
  have htok : ∀ i : Int, Inside env (tok_at i) := fun i => (inside_get _).mpr trivial
  unfold process ProcessFits tok
  simp only [inside_bind, inside_toks, true_and]
  refine inside_check _ _ _ _ _ (by simp) ?_
  simp only [inside_bind, inside_toks, true_and]
  refine inside_check _ _ _ _ _ (by simp) ?_
  simp only [inside_bind, inside_toks, true_and]
  refine inside_check _ _ _ _ _ (by simp) ?_
  simp only [inside_bind, inside_toks, inside_text, true_and]
  refine inside_check _ _ _ _ _ (by simp [or_iff_not_imp_left]) ?_
  simp only [inside_bind, htok, true_and]
  refine inside_check _ _ _ _ _ (by simp) ?_
  simp only [inside_bind, htok, true_and]
  refine inside_check _ _ _ _ _ (by simp) ?_
  simp only [inside_bind, htok, inside_memcmp_at, true_and]
  refine inside_check _ _ _ _ _ (by simp) ?_
  simp only [inside_bind, htok, inside_str_at, true_and]
  refine inside_check _ _ _ _ _ (by simp) ?_
  rw [inside_bind, and_iff_left (inside_pure _)]
  exact inside_scan ..

end

/-! ## Lines -/

/-- Nothing is written behind the buffer for the line. -/
def Contained (old : (c : Cell) → c.Ans) (line : List Byte) : Prop :=
  match json_part countof (chr '\x7b') line with
  | none => True
  | some (rt, on, ts) => Inside (memory on ts old) (process rt ts.length)

/-- If the line is taken for market data there is room for it. -/
def Fits (old : (c : Cell) → c.Ans) (line : List Byte) : Prop :=
  match json_part countof (chr '\x7b') line with
  | none => True
  | some (rt, on, ts) => ProcessFits (memory on ts old) rt ts.length

theorem contained_iff (old : (c : Cell) → c.Ans) (line : List Byte) : Contained old line ↔ Fits old line := by
  unfold Contained Fits
  split
  · rfl
  · exact inside_process ..

end Coins.Quotes.Hit2b
