import Coins.Lib.Memory
import Mathlib.Tactic.Ring

/-!
# Writing into a buffer

A cursor is a buffer and the number of cells that have been filled from its front. Writing goes on
where the cursor stands. A stretch of cells can be turned around in place, two cells a step.
-/

namespace Coins.Memory

variable {α : Type}

structure Cursor (α : Type) where
  mem : Mem α
  base : Int
  len : Nat

namespace Cursor

def start (m : Mem α) (base : Int) : Cursor α := ⟨m, base, 0⟩

def put (c : Cursor α) (l : List α) : Cursor α :=
  { c with mem := c.mem.store (c.base + c.len) l, len := c.len + l.length }

/-- Looks at `n` cells. -/
def look (c : Cursor α) (a : Int) (n : Nat) : Cursor α := { c with mem := c.mem.read a n }

def text (c : Cursor α) : List α := c.mem.view c.base c.len

@[simp] theorem text_start (m : Mem α) (base : Int) : (start m base).text = [] := rfl
@[simp] theorem base_start (m : Mem α) (base : Int) : (start m base).base = base := rfl
@[simp] theorem base_put (c : Cursor α) (l : List α) : (c.put l).base = c.base := rfl
@[simp] theorem len_put (c : Cursor α) (l : List α) : (c.put l).len = c.len + l.length := rfl

@[simp] theorem base_look (c : Cursor α) (a : Int) (n : Nat) : (c.look a n).base = c.base := rfl
@[simp] theorem len_look (c : Cursor α) (a : Int) (n : Nat) : (c.look a n).len = c.len := rfl
@[simp] theorem cell_look (c : Cursor α) (a : Int) (n : Nat) : (c.look a n).mem.cell = c.mem.cell := rfl

@[simp] theorem text_look (c : Cursor α) (a : Int) (n : Nat) : (c.look a n).text = c.text := Mem.view_read _ _ _ _ _

@[simp] theorem text_put (c : Cursor α) (l : List α) : (c.put l).text = c.text ++ l :=
  Mem.view_store_append _ _ _ _

theorem len_eq (c : Cursor α) : c.len = c.text.length := by
  unfold text
  rw [Mem.view_length]

/-- `c` comes from `m` by writes to its filled part. -/
def From (m : Mem α) (c : Cursor α) : Prop := Mem.Within c.base (c.base + c.len) m c.mem

theorem From.start (m : Mem α) (base : Int) : From m (start m base) := Mem.Within.refl m

theorem From.put {m : Mem α} {c : Cursor α} (h : From m c) (l : List α) : From m (c.put l) := by
  unfold From at h ⊢
  simp only [base_put, len_put]
  refine (h.mono (le_refl _) (by omega)).trans (Mem.Within.store _ _ (Or.inr ⟨by omega, ?_⟩))
  push_cast
  omega

theorem From.look {m : Mem α} {c : Cursor α} (h : From m c) (a : Int) (n : Nat)
    (hin : c.base ≤ a ∧ a + n ≤ c.base + c.len) : From m (c.look a n) :=
  Mem.Within.trans h (Mem.Within.read a n (Or.inr hin))

theorem put_access (c : Cursor α) (l : List α) :
    ⟨true, c.base + c.len, l.length, c.mem.size⟩ :: c.mem.log <:+ (c.put l).mem.log := List.suffix_refl _

end Cursor

/-! ## Turning around in place -/

namespace Mem

/-- Swaps the cells `i` from the front and `i` from the back of the `n` cells at `lo`. -/
def swap (lo : Int) (n : Nat) (m : Mem α) (i : Nat) : Mem α :=
  let tmp := m.cell (lo + i)
  let last := m.cell (lo + n - (i + 1))
  (((m.read (lo + i) 1).read (lo + n - (i + 1)) 1).store (lo + i) [last]).store
    (lo + n - (i + 1)) [tmp]

def turn (lo : Int) (n : Nat) (m : Mem α) : Mem α := (List.range (n / 2)).foldl (swap lo n) m

theorem cell_store_one (m : Mem α) (a i : Int) (x : α) :
    (m.store a [x]).cell i = if i = a then x else m.cell i := by
  rcases lt_trichotomy i a with h | rfl | h
  · rw [cell_store_of_lt _ _ _ _ h, if_neg (by omega)]
  · simp [store]
  · rw [cell_store_of_ge _ _ _ _ (by simp; omega), if_neg (by omega)]

theorem cell_swap (lo : Int) (n : Nat) (m : Mem α) (i : Nat) (a : Int) :
    (swap lo n m i).cell a =
      if a = lo + n - (i + 1) then m.cell (lo + i)
      else if a = lo + i then m.cell (lo + n - (i + 1)) else m.cell a := by
  unfold swap
  simp only [cell_store_one, cell_read]

theorem cell_swaps (lo : Int) (n : Nat) (m : Mem α) (k : Nat) (hk : k ≤ n / 2) (j : Nat)
    (hj : j < n) :
    ((List.range k).foldl (swap lo n) m).cell (lo + j) =
      if j < k ∨ n - k ≤ j then m.cell (lo + (n - 1 - j : Nat)) else m.cell (lo + j) := by
  induction k generalizing j with
  | zero => rw [if_neg (by omega)]; rfl
  | succ k ih =>
    rw [List.range_succ, List.foldl_append, List.foldl_cons, List.foldl_nil, cell_swap]
    have hback : lo + (n : Int) - (k + 1) = lo + (n - 1 - k : Nat) := by omega
    have hfront := ih (by omega) k (by omega)
    have hlast := ih (by omega) (n - 1 - k) (by omega)
    rw [if_neg (by omega)] at hfront hlast
    rw [hback, hfront, hlast, ih (by omega) j hj]
    by_cases hb : j = n - 1 - k
    · rw [if_pos (by omega), if_pos (by omega), hb]
      congr 2
      omega
    · rw [if_neg (by omega)]
      by_cases hf : j = k
      · rw [if_pos (by omega), if_pos (by omega), hf]
      · rw [if_neg (by omega)]
        apply if_congr _ rfl rfl
        omega

theorem view_turn (lo : Int) (n : Nat) (m : Mem α) : (turn lo n m).view lo n = (m.view lo n).reverse := by
  apply List.ext_getElem
  · simp
  · intro j hj hj'
    rw [view_length] at hj
    rw [List.getElem_reverse, view_getElem, view_getElem]
    unfold turn
    rw [cell_swaps lo n m _ (le_refl _) j hj]
    simp only [view_length]
    by_cases hmid : j < n / 2 ∨ n - n / 2 ≤ j
    · rw [if_pos hmid]
    · -- the cell in the middle stays
      rw [if_neg hmid]
      congr 2
      omega

theorem within_swap (lo : Int) (n : Nat) (m : Mem α) (i : Nat) (hi : i < n / 2) :
    Within lo (lo + n) m (swap lo n m i) := by
  have hfront : lo ≤ lo + i ∧ lo + i + 1 ≤ lo + n := by omega
  have hback : lo ≤ lo + n - (i + 1) ∧ lo + n - (i + 1) + 1 ≤ lo + n := by omega
  have hread := (Within.read (m := m) (lo + i) 1 (Or.inr hfront)).trans
    (Within.read (lo + n - (i + 1)) 1 (Or.inr hback))
  exact (hread.trans (Within.store _ [_] (Or.inr hfront))).trans (Within.store _ [_] (Or.inr hback))

theorem within_turn (lo : Int) (n : Nat) (m : Mem α) : Within lo (lo + n) m (turn lo n m) := by
  unfold turn
  have key : ∀ k ≤ n / 2, Within lo (lo + n) m ((List.range k).foldl (swap lo n) m) := by
    intro k
    induction k with
    | zero => intro _; exact Within.refl m
    | succ k ih =>
      intro hk
      rw [List.range_succ, List.foldl_append, List.foldl_cons, List.foldl_nil]
      exact (ih (by omega)).trans (within_swap lo n _ k (by omega))
  exact key _ (le_refl _)

end Mem

end Coins.Memory
