import Coins.Quotes.Hit2b
import Coins.Quotes.Inside

/-!
# `cex2b`

The processor of `cex2b.c`: it looks for the time, the pair and the two sides of a book, and prints the levels
when it has been through all tokens.
-/

open Coins.Numeral Coins.Questions

namespace Coins.Quotes.Cex2b

open jsmntype_t
open Hit2b (smstotv times)

def hx_time : hx_t := hash (ascii "time")
def hx_stmp : hx_t := hash (ascii "timestamp")
def hx_pair : hx_t := hash (ascii "pair")
def hx_bids : hx_t := hash (ascii "bids")
def hx_asks : hx_t := hash (ascii "asks")

/-- The number of places in `tok`. -/
def countof : Nat := 65536

/-- What is looked for; indexes are -1 as long as there is nothing. -/
structure Found where
  xt : tv_t
  pair : Int
  bids : Int
  asks : Int

/-! ## Looking -/

/-- `ffw`: the last of the tokens in front of the end of `tok[i]`. -/
def past (i : Nat) : Prog Nat := do
  let t ← toks i
  skip t.end_ (countof + 1) i

/-- Once round the loop: what has been found, and the token that `i` is at. -/
def look (f : Found) (i : Nat) : Prog (Option (Found × Nat)) := do
  let hx := hash (← text (← toks i))
  if hx = hx_time then
    if (← toks (i + 1)).type ≠ JSMN_PRIMITIVE then pure none else
    let xt := smstotv (← str_at (← toks (i + 1)).ptr)
    pure (some ({ f with xt := xt }, i + 1))
  else if hx = hx_stmp then
    if (← toks (i + 1)).type ≠ JSMN_PRIMITIVE then pure none else
    let xt := (strtotv (← str_at (← toks (i + 1)).ptr)).1
    pure (some ({ f with xt := xt }, i + 1))
  else if hx = hx_pair then
    if (← toks (i + 1)).type ≠ JSMN_STRING then pure none else
    pure (some ({ f with pair := i + 1 }, i + 1))
  else if hx = hx_bids then
    if (← toks (i + 1)).type ≠ JSMN_ARRAY then pure none else
    let j ← past (i + 1)
    pure (some ({ f with bids := i + 1 }, j))
  else if hx = hx_asks then
    if (← toks (i + 1)).type ≠ JSMN_ARRAY then pure none else
    let j ← past (i + 1)
    pure (some ({ f with asks := i + 1 }, j))
  else pure (some (f, i))

def scan (r : Nat) : Nat → Found → Nat → Prog (Option Found)
  | 0, f, _ => pure (some f)
  | fuel + 1, f, i => do
    if i < r then
      match ← look f i with
      | none => pure none
      | some (f, i) => scan r fuel f (i + 1)
    else pure (some f)

/-- With `r` tokens, up to where the finaliser is written. -/
def snarf (r : Nat) : Prog (Option Found) := do
  -- top-level element should be an object
  if (← toks 0).type ≠ JSMN_OBJECT then pure none else
  -- make sure we're dealing with market data
  if r ≤ 3 then pure none else
  if (← toks 3).type ≠ JSMN_STRING then pure none else
  if ← memcmp_at (← toks 3).ptr (ascii "data") then pure none else
  if (← toks 4).type ≠ JSMN_OBJECT then pure none else
  match ← scan r r ⟨NOT_A_TIME, -1, -1, -1⟩ 5 with
  | none => pure none
  | some f =>
    -- check that we've got them all
    if r ≤ f.pair ∨ r ≤ f.bids ∨ r ≤ f.asks ∨ f.xt = NOT_A_TIME then pure none else
    pure (some f)

/-! ## Printing -/

/-- The levels between `tok[b]` and its end. -/
def levels (hdr : List Byte) (b : Int) : Prog (List (List Byte)) := do
  let t ← tok_at b
  side (fun _ => hdr) 0 t.end_ (countof + 1) 0 (b + 1).toNat

def books (rt : tv_t) (f : Found) : Prog (List (List Byte)) := do
  let buf ← memncpy [] (times f.xt rt)
  let buf ← memncpy buf (← text (← tok_at f.pair))
  let buf ← memncpy buf [tab]
  -- bids first
  let hdr ← memncpy buf [chr 'B', chr '2', tab]
  let bids ← levels hdr f.bids
  -- asks next
  let hdr ← memncpy buf [chr 'A', chr '2', tab]
  let asks ← levels hdr f.asks
  pure (bids ++ asks)

/-- `old` is what was in the token array and around the line. -/
def procln (old : (c : Cell) → c.Ans) (line : List Byte) : Output :=
  match json_part countof (chr '\x7b') line with
  | none => ⟨-1, []⟩
  | some (rt, on, ts) =>
    match (snarf ts.length).eval (memory on ts (before old line on)) with
    | none => ⟨-1, []⟩
    | some f => ⟨0, (books rt f).eval (finalised on ts (before old line on))⟩

/-! ## What has to fit -/

/-- The arrays from `tok[i]` on that begin in front of `eot`. -/
def arrays (tok : Nat → jsmntok_t) (eot : Nat) : Nat → Nat → List Nat
  | 0, _ => []
  | fuel + 1, i =>
    if (tok i).start < eot then
      if (tok i).type ≠ JSMN_ARRAY then arrays tok eot fuel (i + 1) else i :: arrays tok eot fuel (i + 3)
    else []

section
variable (env : (c : Cell) → c.Ans)

/-- The levels between `tok[b]` and its end. -/
def levelsOf (b : Int) : List Nat :=
  arrays (fun i => (toks i).eval env) ((tok_at b).eval env).end_ (countof + 1) (b + 1).toNat

/-- Behind `h` bytes each level has room for its price and its quantity, which are behind the array. -/
def LevelsFit (h : Nat) (b : Int) : Prop :=
  ∀ i ∈ levelsOf env b, h + ((toks (i + 1)).eval env).len + ((toks (i + 2)).eval env).len + 2 ≤ 256

/-- The bytes in front of the levels. -/
def headLen (rt : tv_t) (f : Found) : Nat := (times f.xt rt).length + ((tok_at f.pair).eval env).len + 4

def BooksFit (rt : tv_t) (f : Found) : Prop :=
  headLen env rt f ≤ 256 ∧ LevelsFit env (headLen env rt f) f.bids ∧ LevelsFit env (headLen env rt f) f.asks

variable {env}

@[simp] theorem inside_tok_at (i : Int) : Inside env (tok_at i) := (inside_get _).mpr trivial

theorem inside_level (hdr : List Byte) (i : Nat) :
    Inside env (level hdr i) ↔
      hdr.length + ((toks (i + 1)).eval env).len + ((toks (i + 2)).eval env).len + 2 ≤ 256 := by
  unfold level tokncpy
  simp only [inside_bind, inside_toks, inside_text, inside_memncpy, eval_memncpy, Query.eval_bind, length_text,
    List.length_append, List.length_singleton, true_and]
  omega

theorem inside_side (hdr : List Byte) (eot fuel : Nat) (lvl : Byte) (i : Nat) :
    Inside env (side (fun _ => hdr) lvl eot fuel lvl i) ↔
      ∀ j ∈ arrays (fun i => (toks i).eval env) eot fuel i,
        hdr.length + ((toks (j + 1)).eval env).len + ((toks (j + 2)).eval env).len + 2 ≤ 256 := by
  induction fuel generalizing i with
  | zero => simp [side, arrays]
  | succ fuel ih =>
    unfold side arrays
    simp only [inside_bind, inside_toks, true_and, inside_ite]
    split
    · split
      · exact ih (i + 1)
      · rw [inside_level, ih, List.forall_mem_cons, and_iff_left (inside_pure _)]
    · simp

theorem inside_levels (hdr : List Byte) (b : Int) : Inside env (levels hdr b) ↔ LevelsFit env hdr.length b := by
  unfold levels LevelsFit levelsOf
  rw [inside_bind, and_iff_right (inside_tok_at b)]
  exact inside_side hdr _ (countof + 1) 0 (b + 1).toNat

theorem inside_books (rt : tv_t) (f : Found) : Inside env (books rt f) ↔ BooksFit env rt f := by
  have hlen : ∀ sd : Byte, (times f.xt rt ++ (text ((tok_at f.pair).eval env)).eval env ++ [tab] ++
      [sd, chr '2', tab]).length = headLen env rt f := by
    intro sd
    unfold headLen
    simp only [List.length_append, List.length_cons, List.length_nil, length_text]
  unfold books BooksFit
  simp only [inside_bind, inside_memncpy, eval_memncpy, inside_tok_at, inside_text, inside_levels, inside_pure,
    List.nil_append, hlen, true_and, and_true]
  unfold headLen
  simp only [List.length_append, List.length_cons, List.length_nil, length_text]
  constructor
  · rintro ⟨-, -, -, hhead, hbids, -, hasks⟩
    exact ⟨by omega, hbids, hasks⟩
  · rintro ⟨hhead, hbids, hasks⟩
    exact ⟨by omega, by omega, by omega, by omega, hbids, by omega, hasks⟩

/-! ### Nothing is written before -/

theorem inside_past (i : Nat) : Inside env (past i) := by
  unfold past skip
  simp

theorem inside_look (f : Found) (i : Nat) : Inside env (look f i) := by
  unfold look
  simp only [inside_bind, inside_toks, inside_text, true_and]
  generalize hash ((text ((toks i).eval env)).eval env) = hx
  split
  · simp [inside_ite]
  · split
    · simp [inside_ite]
    · split
      · simp [inside_ite]
      · split
        · simp [inside_ite, inside_past]
        · split
          · simp [inside_ite, inside_past]
          · simp

theorem inside_scan (r fuel : Nat) (f : Found) (i : Nat) : Inside env (scan r fuel f i) := by
  induction fuel generalizing f i with
  | zero => exact inside_pure _
  | succ fuel ih =>
    unfold scan
    split
    · rw [inside_bind]
      refine ⟨inside_look f i, ?_⟩
      cases (look f i).eval env with
      | none => exact inside_pure _
      | some g => exact ih g.1 (g.2 + 1)
    · exact inside_pure _

theorem inside_snarf (r : Nat) : Inside env (snarf r) := by
  have hlast : Inside env (match (scan r r ⟨NOT_A_TIME, -1, -1, -1⟩ 5).eval env with
      | none => pure none
      | some f => if r ≤ f.pair ∨ r ≤ f.bids ∨ r ≤ f.asks ∨ f.xt = NOT_A_TIME then pure none else pure (some f)) := by
    split
    · exact inside_pure _
    · split <;> exact inside_pure _
  unfold snarf
  simp only [inside_bind, inside_ite, inside_toks, inside_memcmp_at, inside_scan, inside_pure, true_and,
    hlast, ite_self]

end

/-! ## Lines -/

/-- Nothing is written behind the buffer for the line. -/
def Contained (old : (c : Cell) → c.Ans) (line : List Byte) : Prop :=
  match json_part countof (chr '\x7b') line with
  | none => True
  | some (rt, on, ts) =>
    Inside (memory on ts (before old line on)) (snarf ts.length) ∧
      match (snarf ts.length).eval (memory on ts (before old line on)) with
      | none => True
      | some f => Inside (finalised on ts (before old line on)) (books rt f)

/-- If the line is taken for a book there is room for it. -/
def Fits (old : (c : Cell) → c.Ans) (line : List Byte) : Prop :=
  match json_part countof (chr '\x7b') line with
  | none => True
  | some (rt, on, ts) =>
    match (snarf ts.length).eval (memory on ts (before old line on)) with
    | none => True
    | some f => BooksFit (finalised on ts (before old line on)) rt f

theorem contained_iff (old : (c : Cell) → c.Ans) (line : List Byte) : Contained old line ↔ Fits old line := by
  unfold Contained Fits
  split
  · rfl
  · rw [and_iff_right (inside_snarf _)]
    split
    · rfl
    · exact inside_books ..

end Coins.Quotes.Cex2b
