import Mathlib.Data.List.Basic
import Mathlib.Tactic.Linarith

/-!
# Lines

Text over any alphabet with a separator: what it says once empty lines are dropped, and its
complete lines with the unfinished one at the end.
-/

namespace Coins.Lines

variable {α : Type} [DecidableEq α] (nl : α)

/-! ## Up to empty lines -/

/-- Drops a separator right behind another one. The flag says that one has just gone by. -/
def squeeze : Bool → List α → List α
  | _, [] => []
  | p, c :: cs =>
    if c = nl then (if p then squeeze true cs else c :: squeeze true cs) else c :: squeeze false cs

/-- Runs of separators become one, a leading separator goes. -/
def collapse (l : List α) : List α := squeeze nl true l

/-- The text ends right behind a separator. -/
def atBreak : Bool → List α → Bool
  | p, [] => p
  | _, c :: cs => atBreak (decide (c = nl)) cs

def Same (a b : List α) : Prop := collapse nl a = collapse nl b

variable {nl}

theorem squeeze_append (p : Bool) (a b : List α) :
    squeeze nl p (a ++ b) = squeeze nl p a ++ squeeze nl (atBreak nl p a) b := by
  induction a generalizing p with
  | nil => rfl
  | cons c cs ih =>
    by_cases hc : c = nl
    · cases p <;> simp [squeeze, atBreak, hc, ih]
    · simp [squeeze, atBreak, hc, ih]

theorem atBreak_squeeze (p : Bool) (a : List α) : atBreak nl p (squeeze nl p a) = atBreak nl p a := by
  induction a generalizing p with
  | nil => rfl
  | cons c cs ih =>
    by_cases hc : c = nl
    · cases p <;> simp [squeeze, atBreak, hc, ih]
    · simp [squeeze, atBreak, hc, ih]

theorem atBreak_append (p : Bool) (a b : List α) :
    atBreak nl p (a ++ b) = atBreak nl (atBreak nl p a) b := by
  induction a generalizing p with
  | nil => rfl
  | cons c cs ih => simp [atBreak, ih]

theorem Same.refl (a : List α) : Same nl a a := rfl

theorem Same.symm {a b : List α} (h : Same nl a b) : Same nl b a := Eq.symm h

theorem Same.trans {a b c : List α} (h : Same nl a b) (h' : Same nl b c) : Same nl a c :=
  Eq.trans h h'

theorem Same.atBreak {a b : List α} (h : Same nl a b) : atBreak nl true a = atBreak nl true b := by
  rw [← atBreak_squeeze true a, ← atBreak_squeeze true b]
  exact congrArg _ h

theorem Same.append {a b : List α} (h : Same nl a b) (c : List α) : Same nl (a ++ c) (b ++ c) := by
  have h' : squeeze nl true a = squeeze nl true b := h
  simp only [Same, collapse, squeeze_append]
  rw [h', h.atBreak]

theorem same_sep (a : List α) (h : atBreak nl true a = true) : Same nl (a ++ [nl]) a := by
  simp [Same, collapse, squeeze_append, h, squeeze]

@[simp] theorem atBreak_sep (p : Bool) (a : List α) : atBreak nl p (a ++ [nl]) = true := by
  simp [atBreak_append, atBreak]

/-! ## Complete lines -/

variable (nl)

/-- The complete lines, without their separators, and what stands behind the last of them. -/
def split : List α → List (List α) × List α
  | [] => ([], [])
  | c :: cs =>
    if c = nl then ([] :: (split cs).1, (split cs).2)
    else match (split cs).1 with
      | [] => ([], c :: (split cs).2)
      | l :: ls => ((c :: l) :: ls, (split cs).2)

def lines (l : List α) : List (List α) := (split nl l).1

def rest (l : List α) : List α := (split nl l).2

variable {nl}

@[simp] theorem lines_nil : lines nl [] = [] := rfl
@[simp] theorem rest_nil : rest nl [] = [] := rfl

theorem split_of_not_mem (l : List α) (h : nl ∉ l) : split nl l = ([], l) := by
  induction l with
  | nil => rfl
  | cons c cs ih =>
    have hc : ¬ c = nl := fun he => h (by simp [he])
    have hcs : nl ∉ cs := fun he => h (by simp [he])
    simp [split, hc, ih hcs]

theorem split_line (l t : List α) (h : nl ∉ l) :
    split nl (l ++ nl :: t) = (l :: lines nl t, rest nl t) := by
  induction l with
  | nil => simp [split, lines, rest]
  | cons c cs ih =>
    have hc : ¬ c = nl := fun he => h (by simp [he])
    have hcs : nl ∉ cs := fun he => h (by simp [he])
    simp [split, hc, ih hcs]

theorem lines_of_not_mem (l : List α) (h : nl ∉ l) : lines nl l = [] := by
  rw [lines, split_of_not_mem l h]

theorem rest_of_not_mem (l : List α) (h : nl ∉ l) : rest nl l = l := by
  rw [rest, split_of_not_mem l h]

theorem lines_line (l t : List α) (h : nl ∉ l) : lines nl (l ++ nl :: t) = l :: lines nl t := by
  rw [lines, split_line l t h]

theorem rest_line (l t : List α) (h : nl ∉ l) : rest nl (l ++ nl :: t) = rest nl t := by
  rw [rest, split_line l t h]

variable (nl) in
theorem line_cases (l : List α) :
    nl ∉ l ∨ ∃ a t, l = a ++ nl :: t ∧ nl ∉ a ∧ t.length < l.length := by
  induction l with
  | nil => simp
  | cons c cs ih =>
    by_cases hc : c = nl
    · exact Or.inr ⟨[], cs, by simp [hc], by simp, by simp⟩
    · have hc' : ¬ nl = c := fun he => hc he.symm
      rcases ih with h | ⟨a, t, rfl, ha, ht⟩
      · left
        simpa [hc'] using h
      · refine Or.inr ⟨c :: a, t, rfl, ?_, by simp; omega⟩
        simpa [hc'] using ha

theorem split_append (a b : List α) :
    split nl (a ++ b) = (lines nl a ++ lines nl (rest nl a ++ b), rest nl (rest nl a ++ b)) := by
  induction hn : a.length using Nat.strong_induction_on generalizing a with
  | _ n ih =>
    rcases line_cases nl a with h | ⟨l, t, rfl, hl, ht⟩
    · rw [lines_of_not_mem a h, rest_of_not_mem a h]
      rfl
    · have := ih t.length (hn ▸ ht) t rfl
      rw [List.append_assoc, List.cons_append, split_line _ _ hl, lines_line _ _ hl,
        rest_line _ _ hl, lines, rest, this, List.cons_append]

theorem lines_append (a b : List α) :
    lines nl (a ++ b) = lines nl a ++ lines nl (rest nl a ++ b) := by
  rw [lines, split_append]

theorem rest_append (a b : List α) : rest nl (a ++ b) = rest nl (rest nl a ++ b) := by
  rw [rest, split_append]

theorem not_mem_rest (l : List α) : nl ∉ rest nl l := by
  induction hn : l.length using Nat.strong_induction_on generalizing l with
  | _ n ih =>
    rcases line_cases nl l with h | ⟨a, t, rfl, ha, ht⟩
    · rwa [rest_of_not_mem l h]
    · rw [rest_line a t ha]
      exact ih t.length (hn ▸ ht) t rfl

theorem not_mem_lines (l a : List α) (h : a ∈ lines nl l) : nl ∉ a := by
  induction hn : l.length using Nat.strong_induction_on generalizing l with
  | _ n ih =>
    rcases line_cases nl l with hl | ⟨b, t, rfl, hb, ht⟩
    · rw [lines_of_not_mem l hl] at h
      cases h
    · rw [lines_line b t hb] at h
      rcases List.mem_cons.mp h with rfl | h
      · exact hb
      · exact ih t.length (hn ▸ ht) t h rfl

theorem lines_length (l : List α) : (lines nl l).length = l.count nl := by
  induction hn : l.length using Nat.strong_induction_on generalizing l with
  | _ n ih =>
    rcases line_cases nl l with hl | ⟨a, t, rfl, ha, ht⟩
    · rw [lines_of_not_mem l hl, List.count_eq_zero_of_not_mem hl]
      rfl
    · rw [lines_line a t ha, List.length_cons, ih t.length (hn ▸ ht) t rfl, List.count_append,
        List.count_eq_zero_of_not_mem ha, List.count_cons_self, Nat.zero_add]

theorem rest_concat (l : List α) : rest nl (l ++ [nl]) = [] := by
  rw [rest_append, rest_line (rest nl l) [] (not_mem_rest l), rest_nil]

theorem lines_rest (l : List α) : (lines nl l).flatMap (· ++ [nl]) ++ rest nl l = l := by
  induction hn : l.length using Nat.strong_induction_on generalizing l with
  | _ n ih =>
    rcases line_cases nl l with h | ⟨a, t, rfl, ha, ht⟩
    · simp [lines_of_not_mem l h, rest_of_not_mem l h]
    · have := ih t.length (hn ▸ ht) t rfl
      rw [lines_line a t ha, rest_line a t ha]
      simp [this]

theorem rest_length_le (l : List α) : (rest nl l).length ≤ l.length := by
  have h : ((lines nl l).flatMap (· ++ [nl]) ++ rest nl l).length = l.length :=
    congrArg List.length (lines_rest l)
  rw [List.length_append] at h
  omega

theorem drop_rest (l : List α) (k : Nat) (h : k + (rest nl l).length = l.length) :
    l.drop k = rest nl l := by
  have hl : (lines nl l).flatMap (· ++ [nl]) ++ rest nl l = l := lines_rest l
  have hk : k = ((lines nl l).flatMap (· ++ [nl])).length := by
    have := congrArg List.length hl
    rw [List.length_append] at this
    omega
  conv_lhs => rw [← hl, hk]
  rw [List.drop_left]

example : split 0 [1, 0, 0, 2, 3] = ([[1], []], [2, 3]) := by decide
example : collapse 0 [0, 1, 0, 0, 2] = [1, 0, 2] := by decide

end Coins.Lines
