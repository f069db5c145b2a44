import Mathlib.Data.List.Basic
import Mathlib.Data.List.Infix

/-!
# Histories

A history grows at its end. What has to hold of every event when it happens, and what has happened
since the last event of some kind.
-/

namespace Coins.History

variable {α : Type}

/-- `P` holds of every event and all that happened before it. -/
def Always (P : List α → α → Prop) (h : List α) : Prop := ∀ pre a, pre ++ [a] <+: h → P pre a

theorem always_nil (P : List α → α → Prop) : Always P [] := by
  intro pre a h
  have := h.length_le
  simp at this

theorem always_concat (P : List α → α → Prop) (h : List α) (a : α) :
    Always P (h ++ [a]) ↔ Always P h ∧ P h a := by
  unfold Always
  constructor
  · intro hall
    exact ⟨fun pre b hp => hall pre b (hp.trans (List.prefix_append h [a])), hall h a (List.prefix_refl _)⟩
  · rintro ⟨hall, ha⟩ pre b hp
    rcases List.prefix_concat_iff.mp hp with heq | hp
    · obtain ⟨rfl, hb⟩ := List.append_inj' heq rfl
      obtain rfl := List.singleton_inj.mp hb
      exact ha
    · exact hall pre b hp

theorem Always.and {P Q : List α → α → Prop} {h : List α} (hP : Always P h) (hQ : Always Q h) :
    Always (fun pre a => P pre a ∧ Q pre a) h :=
  fun pre a hp => ⟨hP pre a hp, hQ pre a hp⟩

theorem Always.append {P : List α → α → Prop} {h : List α} (hall : Always P h) (l : List α)
    (hl : ∀ pre, ∀ a ∈ l, P pre a) : Always P (h ++ l) := by
  induction l generalizing h with
  | nil => rwa [List.append_nil]
  | cons a l ih =>
    rw [List.append_cons]
    apply ih ((always_concat P h a).mpr ⟨hall, hl h a List.mem_cons_self⟩)
    exact fun pre b hb => hl pre b (List.mem_cons_of_mem a hb)

/-- What happened after the last event with `p`. -/
def since (p : α → Prop) [DecidablePred p] (h : List α) : List α :=
  h.foldl (fun l a => if p a then [] else l ++ [a]) []

section
variable (p : α → Prop) [DecidablePred p]

@[simp] theorem since_nil : since p [] = [] := rfl

theorem since_concat (h : List α) (a : α) :
    since p (h ++ [a]) = if p a then [] else since p h ++ [a] := by
  unfold since
  rw [List.foldl_append]
  rfl

end

end Coins.History
