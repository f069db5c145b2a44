import Mathlib.Data.List.Sort

/-!
# Marks in a stream

A stream comes in pieces, and some of the pieces bear a mark. Two ways to cut the same stream have
the same marks in the same order as soon as they have the same marks in the same places.
-/

namespace Coins.Marks

variable {α β γ : Type} (bytes : α → List β) (mark : α → Option γ)

/-- The marks, each with the place where its piece begins. The first piece begins at `i`. -/
def marks (i : Nat) : List α → List (Nat × γ)
  | [] => []
  | a :: as => ((mark a).map fun e => (i, e)).toList ++ marks (i + (bytes a).length) as

theorem marks_snd (i : Nat) (l : List α) :
    (marks bytes mark i l).map Prod.snd = l.filterMap mark := by
  induction l generalizing i with
  | nil => rfl
  | cons a as ih =>
    rw [marks, List.map_append, ih, List.filterMap_cons]
    cases mark a <;> rfl

theorem mem_marks (i j : Nat) (e : γ) (l : List α) :
    (j, e) ∈ marks bytes mark i l ↔ ∃ before a after, l = before ++ a :: after ∧
      j = i + (before.flatMap bytes).length ∧ mark a = some e := by
  induction l generalizing i with
  | nil => simp [marks]
  | cons a as ih =>
    have hhead : (j, e) ∈ ((mark a).map fun e => (i, e)).toList ↔ j = i ∧ mark a = some e := by
      rw [Option.mem_toList, Option.map_eq_some_iff]
      constructor
      · rintro ⟨x, hx, hxe⟩
        obtain ⟨rfl, rfl⟩ := Prod.mk.inj hxe
        exact ⟨rfl, hx⟩
      · rintro ⟨rfl, hx⟩
        exact ⟨e, hx, rfl⟩
    rw [marks, List.mem_append, ih, hhead]
    constructor
    · rintro (⟨hj, he⟩ | ⟨before, b, after, rfl, hj, he⟩)
      · exact ⟨[], a, as, rfl, by simpa using hj, he⟩
      · refine ⟨a :: before, b, after, rfl, ?_, he⟩
        rw [hj, List.flatMap_cons, List.length_append, Nat.add_assoc]
    · rintro ⟨before, b, after, hl, hj, he⟩
      cases before with
      | nil =>
        obtain ⟨rfl, rfl⟩ := List.cons.inj hl
        exact Or.inl ⟨by simpa using hj, he⟩
      | cons c before =>
        obtain ⟨rfl, rfl⟩ := List.cons.inj hl
        refine Or.inr ⟨before, b, after, rfl, ?_, he⟩
        rw [hj, List.flatMap_cons, List.length_append, Nat.add_assoc]

theorem marks_sorted (i : Nat) (l : List α) (hne : ∀ a ∈ l, bytes a ≠ []) :
    (marks bytes mark i l).Pairwise fun x y => x.1 < y.1 := by
  induction l generalizing i with
  | nil => exact List.Pairwise.nil
  | cons a as ih =>
    rw [marks, List.pairwise_append]
    refine ⟨?_, ih _ fun b hb => hne b (List.mem_cons_of_mem _ hb), ?_⟩
    · cases mark a <;> simp
    · intro x hx y hy
      have hpos := List.length_pos_of_ne_nil (hne a List.mem_cons_self)
      obtain ⟨before, b, after, -, hj, -⟩ := (mem_marks bytes mark _ y.1 y.2 as).mp hy
      obtain ⟨e, -, rfl⟩ : ∃ e, mark a = some e ∧ (i, e) = x := by
        simpa [Option.map_eq_some_iff] using hx
      simp only
      omega

variable {bytes mark}

theorem filterMap_eq {α' : Type} {bytes' : α' → List β} {mark' : α' → Option γ} {l : List α}
    {l' : List α'} (hne : ∀ a ∈ l, bytes a ≠ []) (hne' : ∀ a ∈ l', bytes' a ≠ [])
    (h : ∀ j e, (j, e) ∈ marks bytes mark 0 l ↔ (j, e) ∈ marks bytes' mark' 0 l') :
    l.filterMap mark = l'.filterMap mark' := by
  rw [← marks_snd bytes mark 0 l, ← marks_snd bytes' mark' 0 l']
  congr 1
  have hirr : Std.Irrefl fun x y : Nat × γ => x.1 < y.1 := ⟨fun x => lt_irrefl x.1⟩
  have hanti : Std.Antisymm fun x y : Nat × γ => x.1 < y.1 :=
    ⟨fun x y hxy hyx => absurd hxy (lt_asymm hyx)⟩
  exact (marks_sorted bytes mark 0 l hne).eq_of_mem_iff (marks_sorted bytes' mark' 0 l' hne')
    fun a => h a.1 a.2

end Coins.Marks
