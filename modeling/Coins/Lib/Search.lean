import Mathlib.Data.List.Infix
import Mathlib.Tactic.Linarith

/-! # The first occurrence of one list in another -/

namespace Coins.Search

variable {α : Type} [DecidableEq α]

/-- Where `ndl` first occurs in a list. -/
def find (ndl : List α) : List α → Option Nat
  | [] => if ndl = [] then some 0 else none
  | c :: cs => if ndl <+: c :: cs then some 0 else (find ndl cs).map (· + 1)

theorem find_here (ndl hay : List α) (h : ndl <+: hay) : find ndl hay = some 0 := by
  cases hay with
  | nil => simp [find, List.prefix_nil.mp h]
  | cons c cs => simp [find, h]

theorem find_later (ndl : List α) (c : α) (cs : List α) (h : ¬ ndl <+: c :: cs) :
    find ndl (c :: cs) = (find ndl cs).map (· + 1) := by
  simp [find, h]

theorem find_eq_none (ndl hay : List α) : find ndl hay = none ↔ ¬ ndl <:+: hay := by
  induction hay with
  | nil => simp [find]
  | cons c cs ih =>
    by_cases h : ndl <+: c :: cs
    · simp [find_here _ _ h, h.isInfix]
    · rw [find_later _ _ _ h, Option.map_eq_none_iff, ih, List.infix_cons_iff]
      simp [h]

theorem find_eq_some (ndl hay : List α) (i : Nat) :
    find ndl hay = some i ↔ ndl <+: hay.drop i ∧ i ≤ hay.length ∧ ∀ j < i, ¬ ndl <+: hay.drop j := by
  induction hay generalizing i with
  | nil =>
    by_cases h : ndl = []
    · simp only [find, h, if_true, Option.some.injEq, List.drop_nil, List.length_nil]
      constructor
      · rintro rfl; simp
      · rintro ⟨-, hi, -⟩; omega
    · simp [find, h]
  | cons c cs ih =>
    by_cases h : ndl <+: c :: cs
    · rw [find_here _ _ h, Option.some.injEq]
      constructor
      · rintro rfl; simp [h]
      · rintro ⟨-, -, hmin⟩
        by_contra hne
        exact hmin 0 (by omega) (by simpa using h)
    · rw [find_later _ _ _ h, Option.map_eq_some_iff]
      constructor
      · rintro ⟨k, hk, rfl⟩
        obtain ⟨hp, hle, hmin⟩ := (ih k).mp hk
        refine ⟨by simpa using hp, by simpa using hle, ?_⟩
        intro j hj
        cases j with
        | zero => simpa using h
        | succ j => simpa using hmin j (by omega)
      · rintro ⟨hp, hle, hmin⟩
        cases i with
        | zero => exact absurd (by simpa using hp) h
        | succ i =>
          refine ⟨i, (ih i).mpr ⟨by simpa using hp, by simpa using hle, ?_⟩, rfl⟩
          intro j hj
          simpa using hmin (j + 1) (by omega)

theorem find_mono (ndl a b : List α) (i : Nat) (h : find ndl a = some i) :
    find ndl (a ++ b) = some i := by
  obtain ⟨hp, hle, hmin⟩ := (find_eq_some _ _ _).mp h
  have hlen : i + ndl.length ≤ a.length := by
    have := hp.length_le
    rw [List.length_drop] at this
    omega
  refine (find_eq_some _ _ _).mpr ⟨?_, by simp; omega, ?_⟩
  · rw [List.drop_append_of_le_length hle]
    exact hp.trans (List.prefix_append _ _)
  · intro j hj hpre
    apply hmin j hj
    rw [List.drop_append_of_le_length (by omega)] at hpre
    exact List.prefix_of_prefix_length_le hpre (List.prefix_append _ _) (by simp; omega)

theorem find_le (ndl hay : List α) (i : Nat) (h : find ndl hay = some i) :
    i + ndl.length ≤ hay.length := by
  obtain ⟨hp, hle, -⟩ := (find_eq_some _ _ _).mp h
  have := hp.length_le
  rw [List.length_drop] at this
  omega

theorem find_inside (ndl a b c : List α) (i : Nat) (h : find ndl (a ++ b ++ c) = some i)
    (hlt : a.length + b.length < i + ndl.length) : find ndl b = none := by
  obtain ⟨-, -, hmin⟩ := (find_eq_some _ _ _).mp h
  cases hb : find ndl b with
  | none => rfl
  | some j =>
    obtain ⟨hp, -, -⟩ := (find_eq_some _ _ _).mp hb
    have hle := find_le _ _ _ hb
    refine absurd ?_ (hmin (a.length + j) (by omega))
    rw [List.append_assoc, ← List.drop_drop, List.drop_left, List.drop_append_of_le_length (by omega)]
    exact hp.trans (List.prefix_append _ _)

theorem find_tail (ndl a b : List α) (i : Nat) (h : find ndl (a ++ b) = some i)
    (hle : a.length ≤ i) : find ndl b = some (i - a.length) := by
  obtain ⟨hp, hi, hmin⟩ := (find_eq_some _ _ _).mp h
  rw [List.length_append] at hi
  refine (find_eq_some _ _ _).mpr ⟨?_, by omega, fun j hj hpre => ?_⟩
  · rwa [show i = a.length + (i - a.length) by omega, ← List.drop_drop, List.drop_left] at hp
  · refine hmin (a.length + j) (by omega) ?_
    rwa [← List.drop_drop, List.drop_left]

end Coins.Search
