import Mathlib.Data.List.Basic

/-!
# Decoders and formats

A decoder is a program over a state. It may come to an end, give up with an error, or do what no program may do:
fail an assertion, or go outside of an array. A format says which inputs begin with which value and what is behind
it. The rules put decoders together as formats are put together.
-/

namespace Coins.Decoder

inductive Outcome (ε α : Type)
  | ok (a : α)
  | fail (e : ε)
  | crash
deriving DecidableEq

namespace Outcome

variable {ε α β : Type}

def bind : Outcome ε α → (α → Outcome ε β) → Outcome ε β
  | ok a, f => f a
  | fail e, _ => fail e
  | crash, _ => crash

instance : Monad (Outcome ε) where
  pure := ok
  bind := bind

theorem bind_eq_ok {x : Outcome ε α} {f : α → Outcome ε β} {b : β} (h : x.bind f = ok b) :
    ∃ a, x = ok a ∧ f a = ok b := by
  cases x with
  | ok a => exact ⟨a, rfl, h⟩
  | fail e => cases h
  | crash => cases h

theorem bind_ne_crash {x : Outcome ε α} {f : α → Outcome ε β} (hx : x ≠ crash) (hf : ∀ a, x = ok a → f a ≠ crash) :
    x.bind f ≠ crash := by
  cases x with
  | ok a => exact hf a rfl
  | fail e => exact nofun
  | crash => exact absurd rfl hx

end Outcome

abbrev Prog (σ ε α : Type) := StateT σ (Outcome ε) α

section
variable {σ ε α β : Type}

def crash : Prog σ ε α := fun _ => .crash

def fail (e : ε) : Prog σ ε α := fun _ => .fail e

def assert (p : Prop) [Decidable p] : Prog σ ε Unit := if p then pure () else crash

/-- What was found at an index, if anything. -/
def must : Option α → Prog σ ε α
  | some a => pure a
  | none => crash

theorem bind_apply (m : Prog σ ε α) (f : α → Prog σ ε β) (s : σ) :
    (m >>= f) s = (m s).bind fun p => f p.1 p.2 := rfl

theorem pure_apply (a : α) (s : σ) : (pure a : Prog σ ε α) s = .ok (a, s) := rfl

theorem bind_ok {m : Prog σ ε α} {s t : σ} {a : α} (h : m s = .ok (a, t)) (f : α → Prog σ ε β) :
    (m >>= f) s = f a t := by
  rw [bind_apply, h]
  rfl

theorem bind_fail {m : Prog σ ε α} {s : σ} {e : ε} (h : m s = .fail e) (f : α → Prog σ ε β) :
    (m >>= f) s = .fail e := by
  rw [bind_apply, h]
  rfl

theorem assert_bind {p : Prop} [Decidable p] (h : p) (f : Unit → Prog σ ε β) (s : σ) :
    (assert p >>= f) s = f () s := by
  rw [assert, if_pos h]
  rfl

theorem must_bind {x : Option α} {a : α} (h : x = some a) (f : α → Prog σ ε β) (s : σ) :
    (must x >>= f) s = f a s := by
  rw [h]
  rfl

theorem get_bind (f : σ → Prog σ ε β) (s : σ) : ((get : Prog σ ε σ) >>= f) s = f s s := rfl

theorem modify_bind (g : σ → σ) (f : PUnit → Prog σ ε β) (s : σ) :
    ((modify g : Prog σ ε PUnit) >>= f) s = f ⟨⟩ (g s) := rfl

end

/-! ## Formats -/

abbrev Format (β α : Type) := β → α → β → Prop

/-- One thing and then the next. -/
def Format.andThen {β α γ : Type} (R : Format β α) (S : α → Format β γ) : Format β γ :=
  fun p c r => ∃ a q, R p a q ∧ S a q c r

/-- How a decoder's states are seen by a format: those it can be in, those in which it has read behind the end, the
input that is left, the ends that leave room enough, and the error of those that do not. -/
structure Seen (σ ε β : Type) where
  good : σ → Prop
  lost : σ → Prop
  view : σ → β
  fits : σ → β → Prop
  full : ε
  fits_view : ∀ s, good s → fits s (view s)

/-- A run that reads `R`, and no more than that. What it returns stands for what is read; if it is made up it stands
for something at least. -/
structure Reads {σ ε α β γ : Type} (V : Seen σ ε β) (s : σ) (x : Outcome ε (α × σ)) (rel : α → γ → Prop)
    (R : Format β γ) : Prop where
  safe : x ≠ .crash
  kept : ∀ a t, x = .ok (a, t) → V.good t ∧ (∃ c, rel a c) ∧ V.fits t = V.fits s ∧ (V.lost s → V.lost t)
  sound : ∀ a t, x = .ok (a, t) → ¬ V.lost t → ∃ c, rel a c ∧ R (V.view s) c (V.view t)
  complete : ∀ c v, R (V.view s) c v → ¬ V.lost s → V.fits s v →
    ∃ a t, x = .ok (a, t) ∧ rel a c ∧ V.view t = v ∧ ¬ V.lost t
  full : ∀ c v, R (V.view s) c v → ¬ V.lost s → ¬ V.fits s v → x = .fail V.full

/-- It returns what is read, and that satisfies `A`. -/
def Is {α : Type} (A : α → Prop) (a c : α) : Prop := a = c ∧ A a

namespace Reads

variable {σ ε α α' γ δ β : Type} {V : Seen σ ε β} {s : σ} {x : Outcome ε (α × σ)} {rel : α → γ → Prop}
  {R S : Format β γ}

theorem congr (h : Reads V s x rel R) (hR : ∀ c v, R (V.view s) c v ↔ S (V.view s) c v) : Reads V s x rel S where
  safe := h.safe
  kept := h.kept
  sound a t hx hl := by
    obtain ⟨c, hc, hread⟩ := h.sound a t hx hl
    exact ⟨c, hc, (hR c _).mp hread⟩
  complete c v hv hl hf := h.complete c v ((hR c v).mpr hv) hl hf
  full c v hv hl hf := h.full c v ((hR c v).mpr hv) hl hf

theorem mono {rel' : α → γ → Prop} (h : Reads V s x rel R) (hrel : ∀ a c, rel a c → rel' a c) : Reads V s x rel' R where
  safe := h.safe
  kept a t hx := by
    obtain ⟨hgood, ⟨c, hc⟩, hrest⟩ := h.kept a t hx
    exact ⟨hgood, ⟨c, hrel a c hc⟩, hrest⟩
  sound a t hx hl := by
    obtain ⟨c, hc, hread⟩ := h.sound a t hx hl
    exact ⟨c, hrel a c hc, hread⟩
  complete c v hv hl hf := by
    obtain ⟨a, t, hx, hc, hrest⟩ := h.complete c v hv hl hf
    exact ⟨a, t, hx, hrel a c hc, hrest⟩
  full := h.full

theorem map {rel' : α → δ → Prop} (h : Reads V s x rel R) (g : γ → δ) (hg : ∀ a c, rel a c → rel' a (g c)) :
    Reads V s x rel' fun p b q => ∃ c, b = g c ∧ R p c q where
  safe := h.safe
  kept a t hx := by
    obtain ⟨hgood, ⟨c, hc⟩, hrest⟩ := h.kept a t hx
    exact ⟨hgood, ⟨g c, hg a c hc⟩, hrest⟩
  sound a t hx hl := by
    obtain ⟨c, hc, hread⟩ := h.sound a t hx hl
    exact ⟨g c, hg a c hc, c, rfl, hread⟩
  complete b v hv hl hf := by
    obtain ⟨c, rfl, hread⟩ := hv
    obtain ⟨a, t, hx, hc, hrest⟩ := h.complete c v hread hl hf
    exact ⟨a, t, hx, hg a c hc, hrest⟩
  full b v hv hl hf := by
    obtain ⟨c, -, hread⟩ := hv
    exact h.full c v hread hl hf

theorem pure {a : α} {c : γ} (hs : V.good s) (hac : rel a c) :
    Reads V s (.ok (a, s)) rel fun p b q => b = c ∧ q = p where
  safe := nofun
  kept b t h := by
    cases h
    exact ⟨hs, ⟨c, hac⟩, rfl, id⟩
  sound b t h _ := by
    cases h
    exact ⟨c, hac, rfl, rfl⟩
  complete b v h hl _ := by
    obtain ⟨rfl, rfl⟩ := h
    exact ⟨a, s, rfl, hac, rfl, hl⟩
  full b v h _ hf := by
    obtain ⟨-, rfl⟩ := h
    exact absurd (V.fits_view s hs) hf

theorem after {t : σ} (h : Reads V t x rel R) (hfits : V.fits t = V.fits s) (hlost : V.lost s ↔ V.lost t)
    (hR : ∀ c v, R (V.view t) c v ↔ S (V.view s) c v) : Reads V s x rel S where
  safe := h.safe
  kept a u hx := by
    obtain ⟨hgood, hc, hf, hl⟩ := h.kept a u hx
    exact ⟨hgood, hc, hf.trans hfits, hl ∘ hlost.mp⟩
  sound a u hx hl := by
    obtain ⟨c, hc, hread⟩ := h.sound a u hx hl
    exact ⟨c, hc, (hR c _).mp hread⟩
  complete c v hv hl hf := h.complete c v ((hR c v).mpr hv) (mt hlost.mpr hl) (hfits ▸ hf)
  full c v hv hl hf := h.full c v ((hR c v).mpr hv) (mt hlost.mpr hl) (hfits ▸ hf)

theorem fail {e : ε} (hno : ∀ c v, R (V.view s) c v → ¬ V.lost s → False) :
    Reads V s (.fail e : Outcome ε (α × σ)) rel R where
  safe := nofun
  kept _ _ h := nomatch h
  sound _ _ h := nomatch h
  complete c v hv hl _ := (hno c v hv hl).elim
  full c v hv hl _ := (hno c v hv hl).elim

theorem fail_full (hno : ∀ c v, R (V.view s) c v → ¬ V.fits s v) :
    Reads V s (.fail V.full : Outcome ε (α × σ)) rel R where
  safe := nofun
  kept _ _ h := nomatch h
  sound _ _ h := nomatch h
  complete c v hv _ hf := (hno c v hv hf).elim
  full _ _ _ _ _ := rfl

theorem bind {m : Prog σ ε α} {f : α → Prog σ ε α'} {rel' : α' → δ → Prop} {S : γ → Format β δ}
    (hm : Reads V s (m s) rel R)
    (hf : ∀ a c t, m s = .ok (a, t) → V.good t → rel a c → Reads V t (f a t) rel' (S c))
    (hgrow : ∀ c b q r, R (V.view s) c q → S c q b r → V.fits s r → V.fits s q) :
    Reads V s ((m >>= f) s) rel' (R.andThen S) where
  safe := by
    apply Outcome.bind_ne_crash hm.safe
    rintro ⟨a, t⟩ hx
    obtain ⟨hgood, ⟨c, hc⟩, -⟩ := hm.kept a t hx
    exact (hf a c t hx hgood hc).safe
  kept b u h := by
    obtain ⟨⟨a, t⟩, hx, hy⟩ := Outcome.bind_eq_ok h
    obtain ⟨hgood, ⟨c, hc⟩, hfits, hlost⟩ := hm.kept a t hx
    obtain ⟨hgood', hb, hfits', hlost'⟩ := (hf a c t hx hgood hc).kept b u hy
    exact ⟨hgood', hb, hfits'.trans hfits, hlost' ∘ hlost⟩
  sound b u h hl := by
    obtain ⟨⟨a, t⟩, hx, hy⟩ := Outcome.bind_eq_ok h
    obtain ⟨hgood, ⟨c₀, hc₀⟩, -, -⟩ := hm.kept a t hx
    obtain ⟨-, -, -, hlost⟩ := (hf a c₀ t hx hgood hc₀).kept b u hy
    obtain ⟨c, hc, hR⟩ := hm.sound a t hx (hl ∘ hlost)
    obtain ⟨d, hd, hS⟩ := (hf a c t hx hgood hc).sound b u hy hl
    exact ⟨d, hd, c, V.view t, hR, hS⟩
  complete d r h hl hfit := by
    obtain ⟨c, q, hR, hS⟩ := h
    obtain ⟨a, t, hx, hc, rfl, hlt⟩ := hm.complete c q hR hl (hgrow c d q r hR hS hfit)
    obtain ⟨hgood, -, hfits, -⟩ := hm.kept a t hx
    obtain ⟨b, u, hy, hd, hv, hlu⟩ := (hf a c t hx hgood hc).complete d r hS hlt (hfits ▸ hfit)
    exact ⟨b, u, (bind_ok hx f).trans hy, hd, hv, hlu⟩
  full d r h hl hfit := by
    obtain ⟨c, q, hR, hS⟩ := h
    by_cases hq : V.fits s q
    · obtain ⟨a, t, hx, hc, rfl, hlt⟩ := hm.complete c q hR hl hq
      obtain ⟨hgood, -, hfits, -⟩ := hm.kept a t hx
      exact (bind_ok hx f).trans ((hf a c t hx hgood hc).full d r hS hlt (hfits ▸ hfit))
    · exact bind_fail (hm.full c q hR hl hq) f

end Reads

end Coins.Decoder
