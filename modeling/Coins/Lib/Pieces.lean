import Coins.Lib.Search

/-!
# Pieces

A text in which a separator stands in front of every piece, and the search for a piece that begins
with a given key.
-/

open Coins.Search

namespace Coins.Pieces

variable {α : Type} (sep : α)

/-- The pieces, a separator in front of each. -/
def tail (fs : List (List α)) : List α := fs.flatMap (sep :: ·)

@[simp] theorem tail_nil : tail sep [] = [] := rfl

@[simp] theorem tail_cons (f : List α) (fs : List (List α)) : tail sep (f :: fs) = sep :: (f ++ tail sep fs) := by
  simp [tail]

theorem exists_pieces (l : List α) : ∃ a fs, l = a ++ tail sep fs ∧ sep ∉ a ∧ ∀ f ∈ fs, sep ∉ f := by
  induction l with
  | nil => exact ⟨[], [], rfl, List.not_mem_nil, fun f hf => (nomatch hf)⟩
  | cons b l ih =>
    obtain ⟨a, fs, rfl, ha, hfs⟩ := ih
    by_cases hb : b = sep
    · refine ⟨[], a :: fs, ?_, List.not_mem_nil, fun f hf => ?_⟩
      · rw [hb, tail_cons, List.nil_append]
      · rcases List.mem_cons.mp hf with rfl | hf
        · exact ha
        · exact hfs f hf
    · exact ⟨b :: a, fs, rfl, fun hmem => (List.mem_cons.mp hmem).elim (fun he => hb he.symm) ha, hfs⟩

theorem length_le_tail (fs : List (List α)) : fs.length ≤ (tail sep fs).length := by
  induction fs with
  | nil => exact le_refl _
  | cons f fs ih =>
    rw [tail_cons, List.length_cons, List.length_cons, List.length_append]
    omega

theorem tail_concat (fs : List (List α)) (e : List α) :
    tail sep (fs ++ [e]) = sep :: (fs.flatMap (· ++ [sep]) ++ e) := by
  induction fs with
  | nil => simp
  | cons f fs ih =>
    rw [List.cons_append, tail_cons, ih]
    simp

variable {sep} in
theorem prefix_tail (k f : List α) (fs : List (List α)) (hk : sep ∉ k) :
    k <+: f ++ tail sep fs ↔ k <+: f := by
  refine ⟨fun h => ?_, fun h => h.trans (List.prefix_append _ _)⟩
  rcases List.prefix_or_prefix_of_prefix h (List.prefix_append f (tail sep fs)) with hp | ⟨t, rfl⟩
  · exact hp
  · have ht : t <+: tail sep fs := (List.prefix_append_right_inj f).mp h
    cases t with
    | nil => simp
    | cons c cs =>
      cases fs with
      | nil => simp at ht
      | cons g gs =>
        rw [tail_cons] at ht
        exact absurd (by simp [(List.cons_prefix_cons.mp ht).1]) hk

section
variable [DecidableEq α]

/-- What is behind the key of a piece. -/
def value (k f : List α) : Option (List α) := if k <+: f then some (f.drop k.length) else none

/-- What is behind the key in the first piece that has it, and the pieces behind that one. -/
def after (k : List α) : List (List α) → Option (List α × List (List α))
  | [] => none
  | f :: fs =>
    match value k f with
    | some v => some (v, fs)
    | none => after k fs

theorem value_eq_some (k f v : List α) : value k f = some v ↔ f = k ++ v := by
  unfold value
  constructor
  · intro h
    split at h
    · rename_i hp
      obtain ⟨t, rfl⟩ := hp
      rw [List.drop_left] at h
      rw [Option.some.inj h]
    · cases h
  · rintro rfl
    rw [if_pos (List.prefix_append k v), List.drop_left]

theorem value_eq_none (k f : List α) : value k f = none ↔ ¬ k <+: f := by
  unfold value
  split <;> simp [*]

theorem after_suffix (k v : List α) (fs gs : List (List α)) (h : after k fs = some (v, gs)) :
    (k ++ v) :: gs <:+ fs := by
  induction fs with
  | nil => cases h
  | cons f fs ih =>
    unfold after at h
    cases hv : value k f with
    | some w =>
      rw [hv] at h
      obtain ⟨rfl, rfl⟩ := Prod.mk.inj (Option.some.inj h)
      rw [(value_eq_some k f w).mp hv]
    | none =>
      rw [hv] at h
      exact (ih h).trans (List.suffix_cons f fs)

/-! ## Searching the text -/

variable {sep}

theorem find_plain (k a l : List α) (ha : sep ∉ a) :
    find (sep :: k) (a ++ l) = (find (sep :: k) l).map (· + a.length) := by
  induction a with
  | nil => simp
  | cons c cs ih =>
    have hc : sep ≠ c := fun h => ha (by simp [h])
    have hnp : ¬ sep :: k <+: c :: (cs ++ l) := fun h => hc (List.cons_prefix_cons.mp h).1
    rw [List.cons_append, find_later _ _ _ hnp, ih (fun h => ha (List.mem_cons_of_mem _ h)),
      Option.map_map, List.length_cons]
    rfl

theorem find_none (k a : List α) (fs : List (List α)) (hk : sep ∉ k) (ha : sep ∉ a)
    (hfs : ∀ f ∈ fs, sep ∉ f) (h : after k fs = none) : find (sep :: k) (a ++ tail sep fs) = none := by
  induction fs generalizing a with
  | nil =>
    rw [find_plain k a _ ha, tail_nil]
    rfl
  | cons f fs ih =>
    unfold after at h
    cases hv : value k f with
    | some w =>
      rw [hv] at h
      cases h
    | none =>
      rw [hv] at h
      have hnp : ¬ sep :: k <+: sep :: (f ++ tail sep fs) := by
        intro hp
        exact (value_eq_none k f).mp hv ((prefix_tail k f fs hk).mp (List.cons_prefix_cons.mp hp).2)
      have hrest := ih f (hfs f (by simp)) (fun g hg => hfs g (List.mem_cons_of_mem _ hg)) h
      rw [find_plain k a _ ha, tail_cons, find_later _ _ _ hnp, hrest]
      rfl

theorem find_some (k a v : List α) (fs gs : List (List α)) (hk : sep ∉ k) (ha : sep ∉ a)
    (hfs : ∀ f ∈ fs, sep ∉ f) (h : after k fs = some (v, gs)) :
    ∃ u, find (sep :: k) (a ++ tail sep fs) = some u.length ∧
      a ++ tail sep fs = u ++ (sep :: k) ++ (v ++ tail sep gs) := by
  induction fs generalizing a with
  | nil => cases h
  | cons f fs ih =>
    unfold after at h
    rw [find_plain k a _ ha, tail_cons]
    cases hv : value k f with
    | some w =>
      rw [hv] at h
      obtain ⟨rfl, rfl⟩ := Prod.mk.inj (Option.some.inj h)
      obtain rfl := (value_eq_some k f w).mp hv
      refine ⟨a, ?_, by simp⟩
      rw [find_here _ _ (by simp)]
      simp
    | none =>
      rw [hv] at h
      have hnp : ¬ sep :: k <+: sep :: (f ++ tail sep fs) := by
        intro hp
        exact (value_eq_none k f).mp hv ((prefix_tail k f fs hk).mp (List.cons_prefix_cons.mp hp).2)
      obtain ⟨u, hu, htext⟩ := ih f (hfs f (by simp)) (fun g hg => hfs g (List.mem_cons_of_mem _ hg)) h
      refine ⟨a ++ sep :: u, ?_, by rw [htext]; simp⟩
      rw [find_later _ _ _ hnp, hu]
      simp
      omega

end

end Coins.Pieces
