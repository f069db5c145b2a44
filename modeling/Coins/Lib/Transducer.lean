import Mathlib.Data.List.Basic

/-!
# Transducers

A machine that reads a stream one symbol at a time and puts out some text for each. It cannot tell
how the stream was cut, so it says what a decoder that reads in pieces has to put out.
-/

namespace Coins.Transducer

variable {σ α β : Type}

/-- The state after a stream, and all that was put out. -/
def feed (step : σ → α → σ × List β) : σ → List α → σ × List β
  | s, [] => (s, [])
  | s, a :: as =>
    let r := step s a
    let t := feed step r.1 as
    (t.1, r.2 ++ t.2)

variable (step : σ → α → σ × List β)

@[simp] theorem feed_nil (s : σ) : feed step s [] = (s, []) := rfl

theorem feed_cons (s : σ) (a : α) (as : List α) :
    feed step s (a :: as) =
      ((feed step (step s a).1 as).1, (step s a).2 ++ (feed step (step s a).1 as).2) := rfl

theorem feed_append (s : σ) (a b : List α) :
    feed step s (a ++ b) =
      ((feed step (feed step s a).1 b).1, (feed step s a).2 ++ (feed step (feed step s a).1 b).2) := by
  induction a generalizing s with
  | nil => simp [feed]
  | cons x xs ih => simp [feed, ih]

theorem feed_concat (s : σ) (a : List α) (x : α) :
    feed step s (a ++ [x]) =
      ((step (feed step s a).1 x).1, (feed step s a).2 ++ (step (feed step s a).1 x).2) := by
  rw [feed_append]
  simp [feed]

/-- `P` holds of every symbol and the state it meets. -/
def Each (P : σ → α → Prop) : σ → List α → Prop
  | _, [] => True
  | s, a :: as => P s a ∧ Each P (step s a).1 as

theorem Each.mono {P Q : σ → α → Prop} (hPQ : ∀ s a, P s a → Q s a) {s : σ} {l : List α}
    (h : Each step P s l) : Each step Q s l := by
  induction l generalizing s with
  | nil => exact h
  | cons a as ih => exact ⟨hPQ _ _ h.1, ih h.2⟩

theorem Each.of_kept {P Q : σ → α → Prop} (I : σ → Prop)
    (h : ∀ s a, I s → Q s a → P s a ∧ I (step s a).1) {s : σ} {l : List α} (hs : I s)
    (hQ : Each step Q s l) : Each step P s l := by
  induction l generalizing s with
  | nil => trivial
  | cons a as ih =>
    obtain ⟨hP, hI⟩ := h s a hs hQ.1
    exact ⟨hP, ih hI hQ.2⟩

theorem feed_simulates {τ γ : Type} (step' : τ → γ → τ × List β) (f : α → List γ) {Q : σ → α → Prop}
    (R : σ → τ → Prop)
    (h : ∀ s t a, R s t → Q s a →
      R (step s a).1 (feed step' t (f a)).1 ∧ (step s a).2 = (feed step' t (f a)).2)
    {s : σ} {t : τ} {l : List α} (hR : R s t) (hQ : Each step Q s l) :
    R (feed step s l).1 (feed step' t (l.flatMap f)).1 ∧
      (feed step s l).2 = (feed step' t (l.flatMap f)).2 := by
  induction l generalizing s t with
  | nil => exact ⟨hR, rfl⟩
  | cons a as ih =>
    obtain ⟨hR', hout⟩ := h s t a hR hQ.1
    obtain ⟨hend, hrest⟩ := ih hR' hQ.2
    rw [List.flatMap_cons, feed_append, feed_cons]
    exact ⟨hend, by rw [hout, hrest]⟩

end Coins.Transducer
