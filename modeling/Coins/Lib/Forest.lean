import Mathlib.Data.List.Basic

/-!
# Trees in a text

Trees whose nodes take a stretch of a text each, from `lo` on and up to `hi`, and the list of the nodes
in the order in which they begin.
-/

namespace Coins.Forest

inductive Branch (α : Type)
  | node (root : α) (kids : List (Branch α))

variable {α : Type}

def Branch.root : Branch α → α
  | node a _ => a

def Branch.kids : Branch α → List (Branch α)
  | node _ ts => ts

@[simp] theorem root_node (a : α) (ts : List (Branch α)) : (Branch.node a ts).root = a := rfl

mutual

/-- A node in front of what is below it. -/
def Branch.pre : Branch α → List α
  | .node a ts => a :: pres ts

def pres : List (Branch α) → List α
  | [] => []
  | t :: ts => t.pre ++ pres ts

end

@[simp] theorem pres_nil : pres ([] : List (Branch α)) = [] := by
  unfold pres
  rfl

@[simp] theorem pres_cons (t : Branch α) (ts : List (Branch α)) : pres (t :: ts) = t.pre ++ pres ts := by
  rw [pres]

@[simp] theorem pre_node (a : α) (ts : List (Branch α)) : (Branch.node a ts).pre = a :: pres ts := by
  rw [Branch.pre]

theorem pre_eq (t : Branch α) : t.pre = t.root :: pres t.kids := by
  cases t
  exact pre_node ..

@[simp] theorem pres_append (ts us : List (Branch α)) : pres (ts ++ us) = pres ts ++ pres us := by
  induction ts with
  | nil => simp
  | cons t ts ih => simp [ih]

theorem mem_pres {ts : List (Branch α)} {t : Branch α} (ht : t ∈ ts) {a : α} (ha : a ∈ t.pre) : a ∈ pres ts := by
  induction ts with
  | nil => cases ht
  | cons u ts ih =>
    rw [pres_cons, List.mem_append]
    rcases List.mem_cons.mp ht with rfl | ht
    · exact Or.inl ha
    · exact Or.inr (ih ht)

theorem length_le_pres (ts : List (Branch α)) : ts.length ≤ (pres ts).length := by
  induction ts with
  | nil => simp
  | cons t ts ih =>
    rw [pres_cons, pre_eq]
    simp only [List.length_cons, List.length_append]
    omega

section
variable (lo hi : α → Nat)

mutual

/-- What is below a node lies between its ends. -/
def Branch.nested : Branch α → Bool
  | .node a ts => decide (lo a ≤ hi a) && nestedAll (lo a) (hi a) ts

/-- One behind the other between `l` and `h`. -/
def nestedAll : Nat → Nat → List (Branch α) → Bool
  | _, _, [] => true
  | l, h, t :: ts =>
    decide (l < lo t.root) && decide (hi t.root < h) && t.nested && nestedAll (hi t.root) h ts

end

variable {lo hi}

@[simp] theorem nested_node (a : α) (ts : List (Branch α)) :
    (Branch.node a ts).nested lo hi = true ↔ lo a ≤ hi a ∧ nestedAll lo hi (lo a) (hi a) ts = true := by
  rw [Branch.nested, Bool.and_eq_true, decide_eq_true_eq]

@[simp] theorem nestedAll_nil (l h : Nat) : nestedAll lo hi l h [] = true := by
  rw [nestedAll]

@[simp] theorem nestedAll_cons (l h : Nat) (t : Branch α) (ts : List (Branch α)) :
    nestedAll lo hi l h (t :: ts) = true ↔
      l < lo t.root ∧ hi t.root < h ∧ t.nested lo hi = true ∧ nestedAll lo hi (hi t.root) h ts = true := by
  rw [nestedAll]
  simp only [Bool.and_eq_true, decide_eq_true_eq, and_assoc]

theorem nested_le (t : Branch α) (ht : t.nested lo hi = true) : lo t.root ≤ hi t.root := by
  cases t
  exact ((nested_node ..).mp ht).1

theorem nested_kids (t : Branch α) (ht : t.nested lo hi = true) :
    nestedAll lo hi (lo t.root) (hi t.root) t.kids = true := by
  cases t
  exact ((nested_node ..).mp ht).2

theorem nestedAll_split (l h : Nat) (hlh : l ≤ h) (ts us : List (Branch α))
    (hall : nestedAll lo hi l h (ts ++ us) = true) :
    ∃ m, l ≤ m ∧ m ≤ h ∧ (∀ t ∈ ts, hi t.root ≤ m) ∧ nestedAll lo hi m h us = true := by
  induction ts generalizing l with
  | nil => exact ⟨l, Nat.le_refl l, hlh, fun t ht => (by cases ht), hall⟩
  | cons t ts ih =>
    obtain ⟨hlt, hend, ht, hts⟩ := (nestedAll_cons ..).mp hall
    obtain ⟨m, hlm, hmh, hm, hus⟩ := ih _ (Nat.le_of_lt hend) hts
    have := nested_le t ht
    refine ⟨m, by omega, hmh, fun u hu => ?_, hus⟩
    rcases List.mem_cons.mp hu with rfl | hu
    · exact hlm
    · exact hm u hu

theorem nestedAll_nested (l h : Nat) (ts : List (Branch α)) (hall : nestedAll lo hi l h ts = true)
    (t : Branch α) (ht : t ∈ ts) : t.nested lo hi = true := by
  induction ts generalizing l with
  | nil => cases ht
  | cons u ts ih =>
    obtain ⟨-, -, hu, hts⟩ := (nestedAll_cons ..).mp hall
    rcases List.mem_cons.mp ht with rfl | ht
    · exact hu
    · exact ih _ hts ht

mutual

theorem nested_mem : ∀ (t : Branch α), t.nested lo hi = true → ∀ a ∈ t.pre,
    lo t.root ≤ lo a ∧ lo a ≤ hi a ∧ hi a ≤ hi t.root
  | .node r ts, ht, a, ha => by
    obtain ⟨hle, hts⟩ := (nested_node ..).mp ht
    rcases List.mem_cons.mp (pre_node r ts ▸ ha) with rfl | ha
    · exact ⟨Nat.le_refl _, hle, Nat.le_refl _⟩
    · obtain ⟨hl, hlh, hh⟩ := nestedAll_mem ts _ _ hts a ha
      exact ⟨Nat.le_of_lt hl, hlh, Nat.le_of_lt hh⟩

theorem nestedAll_mem : ∀ (ts : List (Branch α)) (l h : Nat), nestedAll lo hi l h ts = true →
    ∀ a ∈ pres ts, l < lo a ∧ lo a ≤ hi a ∧ hi a < h
  | [], _, _, _, a, ha => by
    rw [pres_nil] at ha
    cases ha
  | t :: ts, l, h, hall, a, ha => by
    obtain ⟨hl, hh, ht, hts⟩ := (nestedAll_cons ..).mp hall
    rw [pres_cons, List.mem_append] at ha
    rcases ha with ha | ha
    · obtain ⟨hr, hlh, hend⟩ := nested_mem t ht a ha
      exact ⟨by omega, hlh, by omega⟩
    · obtain ⟨hr, hlh, hend⟩ := nestedAll_mem ts _ _ hts a ha
      have := nested_le t ht
      exact ⟨by omega, hlh, hend⟩

end

theorem nestedAll_next (ts : List (Branch α)) (l h : Nat) (hall : nestedAll lo hi l h ts = true)
    (hlh : l ≤ h) (next : α) (rest : List α) (hnext : h ≤ lo next) :
    ∃ b bs, pres ts ++ next :: rest = b :: bs ∧ l ≤ lo b := by
  cases ts with
  | nil => exact ⟨next, rest, rfl, by omega⟩
  | cons t ts =>
    have hlt := ((nestedAll_cons ..).mp hall).1
    refine ⟨t.root, pres t.kids ++ (pres ts ++ next :: rest), ?_, Nat.le_of_lt hlt⟩
    rw [pres_cons, pre_eq]
    simp

end

end Coins.Forest
