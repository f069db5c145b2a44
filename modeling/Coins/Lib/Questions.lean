import Mathlib.Data.List.Basic

/-!
# Questions

A computation over cells that asks for their contents one after the other, and may go by the answers.
It depends on the cells it asks for and on no others. Searches go through a row of cells.
-/

namespace Coins.Questions

/-- Cells `ι`, their contents `τ` and the result. -/
inductive Query (ι : Type) (τ : ι → Type) (α : Type)
  | done (a : α)
  | ask (c : ι) (k : τ c → Query ι τ α)

namespace Query

variable {ι : Type} {τ : ι → Type} {α β : Type}

def bind : Query ι τ α → (α → Query ι τ β) → Query ι τ β
  | done a, f => f a
  | ask c k, f => ask c fun x => (k x).bind f

instance monad : Monad (Query ι τ) where
  pure := done
  bind := bind

def get (c : ι) : Query ι τ (τ c) := ask c done

/-- What comes out of it when `env` answers. -/
def eval (env : (c : ι) → τ c) : Query ι τ α → α
  | done a => a
  | ask c k => (k (env c)).eval env

/-- The cells that are asked for. -/
def asked (env : (c : ι) → τ c) : Query ι τ α → List ι
  | done _ => []
  | ask c k => c :: (k (env c)).asked env

/-- What comes out of it when some answers are known, if these are enough. -/
def run (known : (c : ι) → Option (τ c)) : Query ι τ α → Option α
  | done a => some a
  | ask c k => (known c).bind fun x => (k x).run known

/-! ## One after the other -/

section
variable (env : (c : ι) → τ c) (known : (c : ι) → Option (τ c))

@[simp] theorem eval_pure (a : α) : eval env (pure a : Query ι τ α) = a := rfl

@[simp] theorem eval_get (c : ι) : eval env (get c : Query ι τ (τ c)) = env c := rfl

@[simp] theorem eval_bind (q : Query ι τ α) (f : α → Query ι τ β) :
    eval env (q >>= f) = eval env (f (eval env q)) := by
  change eval env (bind q f) = _
  induction q with
  | done a => rfl
  | ask c k ih => exact ih (env c)

@[simp] theorem asked_pure (a : α) : asked env (pure a : Query ι τ α) = [] := rfl

@[simp] theorem asked_get (c : ι) : asked env (get c : Query ι τ (τ c)) = [c] := rfl

@[simp] theorem asked_bind (q : Query ι τ α) (f : α → Query ι τ β) :
    asked env (q >>= f) = asked env q ++ asked env (f (eval env q)) := by
  change asked env (bind q f) = _
  induction q with
  | done a => rfl
  | ask c k ih => exact congrArg (c :: ·) (ih (env c))

@[simp] theorem run_pure (a : α) : run known (pure a : Query ι τ α) = some a := rfl

@[simp] theorem run_get (c : ι) : run known (get c : Query ι τ (τ c)) = known c := by
  exact Option.bind_fun_some _

@[simp] theorem run_bind (q : Query ι τ α) (f : α → Query ι τ β) :
    run known (q >>= f) = (run known q).bind fun a => run known (f a) := by
  change run known (bind q f) = _
  induction q with
  | done a => rfl
  | ask c k ih =>
    change (known c).bind (fun x => run known (bind (k x) f)) =
      ((known c).bind fun x => run known (k x)).bind _
    rw [Option.bind_assoc]
    exact congrArg _ (funext ih)

theorem run_then {q : Query ι τ α} {a : α} (h : run known q = some a) (f : α → Query ι τ β) :
    run known (q >>= f) = run known (f a) := by
  rw [run_bind, h, Option.bind_some]

end

/-! ## What it depends on -/

/-- `env` has what is known. -/
def Extends (known : (c : ι) → Option (τ c)) (env : (c : ι) → τ c) : Prop :=
  ∀ c x, known c = some x → env c = x

variable {known : (c : ι) → Option (τ c)} {env : (c : ι) → τ c}

theorem run_some (h : Extends known env) (q : Query ι τ α) (a : α) (hq : run known q = some a) :
    eval env q = a ∧ ∀ c ∈ asked env q, (known c).isSome = true := by
  induction q with
  | done b => exact ⟨Option.some.inj hq, fun c hc => by cases hc⟩
  | ask c k ih =>
    unfold run at hq
    cases hc : known c with
    | none =>
      rw [hc] at hq
      cases hq
    | some x =>
      rw [hc] at hq
      obtain ⟨heval, hasked⟩ := ih x hq
      unfold eval asked
      rw [h c x hc]
      refine ⟨heval, fun d hd => ?_⟩
      rcases List.mem_cons.mp hd with rfl | hd
      · rw [hc]
        rfl
      · exact hasked d hd

theorem run_none (h : Extends known env) (q : Query ι τ α) (hq : run known q = none) :
    ∃ c ∈ asked env q, known c = none := by
  induction q with
  | done b => cases hq
  | ask c k ih =>
    unfold run at hq
    unfold asked
    cases hc : known c with
    | none => exact ⟨c, List.mem_cons_self .., hc⟩
    | some x =>
      rw [hc] at hq
      rw [h c x hc]
      obtain ⟨d, hd, hn⟩ := ih x hq
      exact ⟨d, List.mem_cons_of_mem _ hd, hn⟩

theorem run_isSome (h : Extends known env) (q : Query ι τ α) :
    (run known q).isSome = true ↔ ∀ c ∈ asked env q, (known c).isSome = true := by
  constructor
  · intro hq
    obtain ⟨a, ha⟩ := Option.isSome_iff_exists.mp hq
    exact (run_some h q a ha).2
  · intro hall
    cases hq : run known q with
    | some a => rfl
    | none =>
      obtain ⟨c, hc, hn⟩ := run_none h q hq
      have := hall c hc
      rw [hn] at this
      cases this

/-- What is known, over what was there before. -/
def patched (known : (c : ι) → Option (τ c)) (old : (c : ι) → τ c) (c : ι) : τ c := (known c).getD (old c)

theorem patched_extends (known : (c : ι) → Option (τ c)) (old : (c : ι) → τ c) : Extends known (patched known old) := by
  intro c x hx
  unfold patched
  rw [hx]
  rfl

theorem run_decided [∀ c, Nonempty (τ c)] (known : (c : ι) → Option (τ c)) (q : Query ι τ α) (a : α) :
    (∀ old, eval (patched known old) q = a ∧ ∀ c ∈ asked (patched known old) q, (known c).isSome = true) ↔
      run known q = some a := by
  constructor
  · intro h
    obtain ⟨heval, hasked⟩ := h fun c => (inferInstance : Nonempty (τ c)).some
    obtain ⟨b, hb⟩ := Option.isSome_iff_exists.mp ((run_isSome (patched_extends known _) q).mpr hasked)
    rw [hb, ← heval, (run_some (patched_extends known _) q b hb).1]
  · intro h old
    exact run_some (patched_extends known old) q a h

/-! ## Cells that may be asked for -/

/-- The contents of the cells with `ok`. -/
def limited (ok : ι → Bool) (env : (c : ι) → τ c) (c : ι) : Option (τ c) :=
  if ok c = true then some (env c) else none

theorem limited_extends (ok : ι → Bool) (env : (c : ι) → τ c) : Extends (limited ok env) env := by
  intro c x hx
  unfold limited at hx
  split at hx
  · exact Option.some.inj hx
  · cases hx

theorem limited_isSome (ok : ι → Bool) (env : (c : ι) → τ c) (c : ι) :
    (limited ok env c).isSome = ok c := by
  unfold limited
  split
  · rename_i h
    exact h.symm
  · rename_i h
    rw [Bool.not_eq_true] at h
    exact h.symm

theorem run_limited (ok : ι → Bool) (env : (c : ι) → τ c) (q : Query ι τ α) (a : α) :
    run (limited ok env) q = some a ↔ eval env q = a ∧ ∀ c ∈ asked env q, ok c = true := by
  constructor
  · intro h
    obtain ⟨heval, hasked⟩ := run_some (limited_extends ok env) q a h
    refine ⟨heval, fun c hc => ?_⟩
    rw [← limited_isSome ok env]
    exact hasked c hc
  · rintro ⟨heval, hasked⟩
    have hsome := (run_isSome (limited_extends ok env) q).mpr fun c hc => by
      rw [limited_isSome]
      exact hasked c hc
    obtain ⟨b, hb⟩ := Option.isSome_iff_exists.mp hsome
    rw [hb, ← heval, (run_some (limited_extends ok env) q b hb).1]

/-- Nothing but cells with `ok` is asked for. -/
def Only (ok : ι → Prop) (env : (c : ι) → τ c) (q : Query ι τ α) : Prop := ∀ c ∈ asked env q, ok c

section
variable (ok : ι → Prop) (env : (c : ι) → τ c)

@[simp] theorem only_pure (a : α) : Only ok env (pure a : Query ι τ α) := fun _ h => nomatch h

@[simp] theorem only_get (c : ι) : Only ok env (get c : Query ι τ (τ c)) ↔ ok c := by
  simp [Only]

@[simp] theorem only_bind (q : Query ι τ α) (f : α → Query ι τ β) :
    Only ok env (q >>= f) ↔ Only ok env q ∧ Only ok env (f (eval env q)) := by
  simp [Only, or_imp, forall_and]

theorem only_of_run {known : (c : ι) → Option (τ c)} (h : Extends known env) {q : Query ι τ α} {a : α}
    (hq : run known q = some a) (hok : ∀ c, (known c).isSome = true → ok c) : Only ok env q :=
  fun c hc => hok c ((run_some h q a hq).2 c hc)

end

theorem run_mono {known more : (c : ι) → Option (τ c)} (h : ∀ c x, known c = some x → more c = some x)
    (q : Query ι τ α) (a : α) (hq : run known q = some a) : run more q = some a := by
  induction q with
  | done b => exact hq
  | ask c k ih =>
    unfold run at hq ⊢
    cases hc : known c with
    | none =>
      rw [hc] at hq
      cases hq
    | some x =>
      rw [hc] at hq
      rw [h c x hc]
      exact ih x hq

/-! ## Rows of cells -/

/-- The answers of `n` places from `i` on. -/
def stretch (look : Int → Query ι τ α) : Int → Nat → Query ι τ (List α)
  | _, 0 => pure []
  | i, n + 1 => do
    let x ← look i
    let xs ← stretch look (i + 1) n
    pure (x :: xs)

/-- Of `n` places from `i` on, the first that answers `c`. -/
def first [DecidableEq α] (look : Int → Query ι τ α) (c : α) : Int → Nat → Query ι τ (Option Int)
  | _, 0 => pure none
  | i, n + 1 => do
    if (← look i) = c then pure (some i) else first look c (i + 1) n

section
variable (known : (c : ι) → Option (τ c)) (look : Int → Query ι τ α)

/-- From `i` on the answers are known to be `l`. -/
def Shows (i : Int) (l : List α) : Prop := ∀ (j : Nat) x, l[j]? = some x → run known (look (i + j)) = some x

variable {known look} {i : Int} {x : α} {l : List α}

theorem Shows.head (h : Shows known look i (x :: l)) : run known (look i) = some x := by
  have := h 0 x rfl
  rwa [Int.natCast_zero, Int.add_zero] at this

theorem Shows.drop (h : Shows known look i l) (k : Nat) : Shows known look (i + k) (l.drop k) := by
  intro j x hx
  rw [List.getElem?_drop] at hx
  have := h (k + j) x hx
  rwa [Int.natCast_add, ← Int.add_assoc] at this

theorem Shows.tail (h : Shows known look i (x :: l)) : Shows known look (i + 1) l := h.drop 1

theorem Shows.left {r : List α} (h : Shows known look i (l ++ r)) : Shows known look i l := by
  intro j x hx
  apply h j x
  rw [List.getElem?_append_left (List.getElem?_eq_some_iff.mp hx).1, hx]

theorem run_stretch (n : Nat) (h : Shows known look i l) (hn : n ≤ l.length) :
    run known (stretch look i n) = some (l.take n) := by
  induction n generalizing i l with
  | zero => rfl
  | succ n ih =>
    cases l with
    | nil => cases hn
    | cons x l =>
      unfold stretch
      rw [run_then known h.head, run_then known (ih h.tail (Nat.le_of_succ_le_succ hn))]
      rfl

variable [DecidableEq α] {c : α}

theorem run_first (a b : List α) (n : Nat) (h : Shows known look i (a ++ c :: b)) (hc : c ∉ a)
    (hn : a.length < n) : run known (first look c i n) = some (some (i + a.length)) := by
  induction a generalizing i n with
  | nil =>
    obtain ⟨n, rfl⟩ := Nat.exists_eq_succ_of_ne_zero (Nat.ne_of_gt hn)
    unfold first
    rw [run_then known h.head, if_pos rfl]
    simp
  | cons x a ih =>
    obtain ⟨n, rfl⟩ := Nat.exists_eq_succ_of_ne_zero (Nat.ne_of_gt (Nat.zero_lt_of_lt hn))
    rw [List.length_cons] at hn ⊢
    rw [List.mem_cons, not_or] at hc
    unfold first
    rw [run_then known h.head, if_neg (Ne.symm hc.1), ih n h.tail hc.2 (by omega), Int.natCast_add]
    congr 2
    omega

theorem run_first_on (a : List α) (n : Nat) (h : Shows known look i a) (hc : c ∉ a) (hn : a.length ≤ n) :
    run known (first look c i n) = run known (first look c (i + a.length) (n - a.length)) := by
  induction a generalizing i n with
  | nil => simp
  | cons x a ih =>
    obtain ⟨n, rfl⟩ := Nat.exists_eq_succ_of_ne_zero (Nat.ne_of_gt (Nat.lt_of_lt_of_le (Nat.succ_pos _) hn))
    rw [List.length_cons] at hn ⊢
    rw [List.mem_cons, not_or] at hc
    conv => lhs; unfold first
    rw [run_then known h.head, if_neg (Ne.symm hc.1), ih n h.tail hc.2 (by omega), Nat.succ_sub_succ,
      Int.natCast_add, Int.add_assoc, Int.add_comm 1]
    rfl

theorem run_first_none (a : List α) (h : Shows known look i a) (hc : c ∉ a) :
    run known (first look c i a.length) = some none := by
  rw [run_first_on a a.length h hc (Nat.le_refl _), Nat.sub_self]
  rfl

end

end Query

end Coins.Questions
