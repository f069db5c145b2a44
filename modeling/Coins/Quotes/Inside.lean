import Coins.Quotes.Sentinel

/-!
# Room for a record

Records are put together in arrays of 256 bytes by `memncpy`, which does not know how long they are. When
everything that is written lies inside comes down to sums of lengths.
-/

open Coins.Numeral Coins.Questions

namespace Coins.Quotes

def inside : Cell → Prop
  | .room cap n => n ≤ cap
  | _ => True

/-- Nothing is written behind an array. -/
def Inside {α : Type} (env : (c : Cell) → c.Ans) (q : Prog α) : Prop := Query.Only inside env q

section
variable {env : (c : Cell) → c.Ans} {α β : Type}

@[simp] theorem inside_pure (a : α) : Inside env (pure a) := Query.only_pure inside env a

@[simp] theorem inside_bind (q : Prog α) (f : α → Prog β) :
    Inside env (q >>= f) ↔ Inside env q ∧ Inside env (f (q.eval env)) := Query.only_bind inside env q f

@[simp] theorem inside_get (c : Cell) : Inside env (Query.get c) ↔ inside c := Query.only_get inside env c

theorem inside_ite (c : Prop) [Decidable c] (q r : Prog α) :
    Inside env (if c then q else r) ↔ if c then Inside env q else Inside env r := by
  split <;> rfl

theorem inside_known {on : List Byte} {ts : List jsmntok_t} {q : Prog α} {a : α}
    (h : Query.run (known on ts) q = some a) (old : (c : Cell) → c.Ans) : Inside (memory on ts old) q := by
  refine Query.only_of_run _ _ (memory_known on ts old) h fun c hc => ?_
  cases c with
  | room cap n =>
    change (if n ≤ cap then some () else none : Option Unit).isSome = true at hc
    split at hc
    · assumption
    · cases hc
  | _ => trivial

/-! ## What is only read -/

@[simp] theorem inside_toks (i : Nat) : Inside env (toks i) := (inside_get _).mpr trivial

@[simp] theorem inside_byte_at (p : Int) : Inside env (byte_at p) := (inside_get _).mpr trivial

@[simp] theorem inside_str_at (p : Int) : Inside env (str_at p) := (inside_get _).mpr trivial

@[simp] theorem inside_bytes (p : Int) (n : Nat) : Inside env (bytes p n) := by
  intro c hc
  obtain ⟨q, rfl⟩ := asked_bytes env p n c hc
  trivial

@[simp] theorem inside_text (t : jsmntok_t) : Inside env (text t) := by
  unfold text
  exact inside_bytes t.ptr t.len

@[simp] theorem inside_memcmp_at (p : Int) (w : List Byte) : Inside env (memcmp_at p w) := by
  induction w generalizing p with
  | nil =>
    unfold memcmp_at
    exact inside_pure false
  | cons c w ih =>
    unfold memcmp_at
    rw [inside_bind]
    refine ⟨inside_byte_at p, ?_⟩
    split
    · exact ih (p + 1)
    · exact inside_pure true

@[simp] theorem inside_ffw (eot fuel i : Nat) : Inside env (ffw eot fuel i) := by
  induction fuel generalizing i with
  | zero =>
    unfold ffw
    exact inside_pure i
  | succ fuel ih =>
    unfold ffw
    rw [inside_bind]
    refine ⟨inside_toks i, ?_⟩
    split
    · exact ih (i + 1)
    · exact inside_pure i

/-! ## What is written -/

@[simp] theorem inside_room (cap n : Nat) : Inside env (room cap n) ↔ n ≤ cap := inside_get _

@[simp] theorem inside_memncpy (buf w : List Byte) : Inside env (memncpy buf w) ↔ buf.length + w.length ≤ 256 := by
  unfold memncpy
  simp

@[simp] theorem length_text (t : jsmntok_t) : ((text t).eval env).length = t.len := by
  unfold text
  exact length_bytes env t.ptr t.len

/-- A record of four pieces: what all records begin with, side and level, price, and quantity. -/
def record (lab tag p q : List Byte) : Prog (List Byte) := do
  let buf ← memncpy lab tag
  let buf ← memncpy buf p
  let buf ← memncpy buf [tab]
  let buf ← memncpy buf q
  memncpy buf [nl]

@[simp] theorem eval_record (lab tag p q : List Byte) :
    (record lab tag p q).eval env = lab ++ tag ++ p ++ [tab] ++ q ++ [nl] := by
  unfold record
  simp

@[simp] theorem inside_record (lab tag p q : List Byte) :
    Inside env (record lab tag p q) ↔ lab.length + tag.length + p.length + q.length + 2 ≤ 256 := by
  unfold record
  simp only [inside_bind, inside_memncpy, eval_memncpy, List.length_append, List.length_singleton]
  omega

end

end Coins.Quotes
