import Mathlib.Data.List.Basic
import Mathlib.Tactic.Linarith
import Mathlib.Tactic.Ring

/-!
# Memory with an access log

One object of `size` cells at the addresses from 0 on. Addresses are integers, so that a program
can step in front of the object as well as past its end, and every access is on record.
-/

namespace Coins.Memory

/-- Cells `lo` to `lo + len`, read or written while the object had `size` cells. -/
structure Access where
  write : Bool
  lo : Int
  len : Nat
  size : Nat
  deriving DecidableEq, Repr

def Access.InBounds (x : Access) : Prop := x.len = 0 ∨ (0 ≤ x.lo ∧ x.lo + x.len ≤ x.size)

instance (x : Access) : Decidable x.InBounds := by unfold Access.InBounds; infer_instance

structure Mem (α : Type) where
  cell : Int → α
  size : Nat
  log : List Access

variable {α : Type}

namespace Mem

/-- The `n` cells from `a` on. -/
def view (m : Mem α) (a : Int) : Nat → List α
  | 0 => []
  | n + 1 => m.cell a :: m.view (a + 1) n

/-- Puts a read of `n` cells on record. -/
def read (m : Mem α) (a : Int) (n : Nat) : Mem α := { m with log := ⟨false, a, n, m.size⟩ :: m.log }

def store (m : Mem α) (a : Int) (l : List α) : Mem α where
  cell i := if a ≤ i then l[(i - a).toNat]?.getD (m.cell i) else m.cell i
  size := m.size
  log := ⟨true, a, l.length, m.size⟩ :: m.log

/-- `memmove`: the source is read as it was before the first write. -/
def move (m : Mem α) (dst src : Int) (n : Nat) : Mem α := (m.read src n).store dst (m.view src n)

/-- `realloc` to `n` cells: the old cells keep what they hold. -/
def resize (m : Mem α) (n : Nat) : Mem α := { m with size := n }

/-- Some access on record wrote to address `i`. -/
def Wrote (m : Mem α) (i : Int) : Prop := ∃ x ∈ m.log, x.write = true ∧ x.lo ≤ i ∧ i < x.lo + x.len

/-- Every access on record lay inside the object as it was then. -/
def Sound (m : Mem α) : Prop := ∀ x ∈ m.log, x.InBounds

/-! ## What each operation leaves alone -/

@[simp] theorem size_read (m : Mem α) (a : Int) (n : Nat) : (m.read a n).size = m.size := rfl
@[simp] theorem size_store (m : Mem α) (a : Int) (l : List α) : (m.store a l).size = m.size := rfl
@[simp] theorem size_move (m : Mem α) (d s : Int) (n : Nat) : (m.move d s n).size = m.size := rfl
@[simp] theorem size_resize (m : Mem α) (n : Nat) : (m.resize n).size = n := rfl
@[simp] theorem cell_read (m : Mem α) (a : Int) (n : Nat) : (m.read a n).cell = m.cell := rfl
@[simp] theorem cell_resize (m : Mem α) (n : Nat) : (m.resize n).cell = m.cell := rfl
@[simp] theorem log_resize (m : Mem α) (n : Nat) : (m.resize n).log = m.log := rfl

/-! ## Views -/

@[simp] theorem view_length (m : Mem α) (a : Int) (n : Nat) : (m.view a n).length = n := by
  induction n generalizing a with
  | zero => rfl
  | succ n ih => simp [view, ih]

@[simp] theorem view_zero (m : Mem α) (a : Int) : m.view a 0 = [] := rfl

theorem view_getElem (m : Mem α) (a : Int) (n i : Nat) (h : i < (m.view a n).length) :
    (m.view a n)[i] = m.cell (a + i) := by
  induction n generalizing a i with
  | zero => simp at h
  | succ n ih =>
    cases i with
    | zero => simp [view]
    | succ i =>
      simp only [view, List.getElem_cons_succ]
      rw [ih]
      congr 1
      push_cast
      ring

theorem view_append (m : Mem α) (a : Int) (n k : Nat) :
    m.view a (n + k) = m.view a n ++ m.view (a + n) k := by
  induction n generalizing a with
  | zero => simp
  | succ n ih =>
    rw [Nat.succ_add, view, view, ih, List.cons_append]
    congr 3
    push_cast
    ring

theorem view_drop (m : Mem α) (a : Int) (n k : Nat) :
    (m.view a n).drop k = m.view (a + k) (n - k) := by
  apply List.ext_getElem
  · simp
  · intro i _ _
    simp [view_getElem, add_assoc]

theorem view_take (m : Mem α) (a : Int) (n k : Nat) :
    (m.view a n).take k = m.view a (min k n) := by
  apply List.ext_getElem
  · simp
  · intro i _ _
    simp [view_getElem]

theorem view_mid (m : Mem α) (a : Int) (n : Nat) (u x v : List α) (h : m.view a n = u ++ x ++ v) :
    m.view (a + u.length) x.length = x := by
  have hn := congrArg List.length h
  rw [view_length, List.length_append, List.length_append] at hn
  rw [hn, view_append, view_append] at h
  exact (List.append_inj (List.append_inj h (by simp)).1 (by simp)).2

theorem view_congr (m m' : Mem α) (a : Int) (n : Nat)
    (h : ∀ i, a ≤ i → i < a + n → m'.cell i = m.cell i) : m'.view a n = m.view a n := by
  apply List.ext_getElem
  · simp
  · intro i hi _
    simp only [view_length] at hi
    rw [view_getElem, view_getElem, h _ (by omega) (by omega)]

@[simp] theorem view_read (m : Mem α) (a b : Int) (n k : Nat) :
    (m.read a n).view b k = m.view b k := view_congr _ _ _ _ fun _ _ _ => rfl

@[simp] theorem view_resize (m : Mem α) (b : Int) (n k : Nat) :
    (m.resize n).view b k = m.view b k := view_congr _ _ _ _ fun _ _ _ => rfl

/-! ## Stores -/

theorem cell_store_of_lt (m : Mem α) (a : Int) (l : List α) (i : Int) (h : i < a) :
    (m.store a l).cell i = m.cell i := by
  simp [store, not_le.mpr h]

theorem cell_store_of_ge (m : Mem α) (a : Int) (l : List α) (i : Int) (h : a + l.length ≤ i) :
    (m.store a l).cell i = m.cell i := by
  simp only [store]
  rw [if_pos (by omega), List.getElem?_eq_none (by omega), Option.getD_none]

@[simp] theorem view_store (m : Mem α) (a : Int) (l : List α) :
    (m.store a l).view a l.length = l := by
  apply List.ext_getElem
  · simp
  · intro i hi _
    simp only [view_length] at hi
    rw [view_getElem]
    simp only [store]
    rw [if_pos (by omega), show (a + i - a).toNat = i by omega, List.getElem?_eq_getElem hi,
      Option.getD_some]

theorem view_store_before (m : Mem α) (a b : Int) (l : List α) (n : Nat) (h : b + n ≤ a) :
    (m.store a l).view b n = m.view b n :=
  view_congr _ _ _ _ fun i _ _ => cell_store_of_lt _ _ _ _ (by omega)

theorem view_store_after (m : Mem α) (a b : Int) (l : List α) (n : Nat) (h : a + l.length ≤ b) :
    (m.store a l).view b n = m.view b n :=
  view_congr _ _ _ _ fun i _ _ => cell_store_of_ge _ _ _ _ (by omega)

theorem view_store_prefix (m : Mem α) (a : Int) (l : List α) (n : Nat) (h : l.length ≤ n) :
    (m.store a l).view a n = l ++ m.view (a + l.length) (n - l.length) := by
  obtain ⟨k, rfl⟩ := Nat.exists_eq_add_of_le h
  rw [view_append, view_store, view_store_after _ _ _ _ _ (by omega)]
  simp

theorem view_store_append (m : Mem α) (b : Int) (n : Nat) (l : List α) :
    (m.store (b + n) l).view b (n + l.length) = m.view b n ++ l := by
  rw [view_append, view_store_before _ _ _ _ _ (by omega), view_store]

theorem view_move (m : Mem α) (d s : Int) (n : Nat) : (m.move d s n).view d n = m.view s n := by
  have h := view_store (m.read s n) d (m.view s n)
  rwa [view_length] at h

theorem view_move_before (m : Mem α) (d s b : Int) (n k : Nat) (h : b + k ≤ d) :
    (m.move d s n).view b k = m.view b k := by
  rw [move, view_store_before _ _ _ _ _ h, view_read]

theorem view_move_after (m : Mem α) (d s b : Int) (n k : Nat) (h : d + n ≤ b) :
    (m.move d s n).view b k = m.view b k := by
  rw [move, view_store_after _ _ _ _ _ (by simpa using h), view_read]

theorem view_move_append (m : Mem α) (b s : Int) (k n : Nat) :
    (m.move (b + k) s n).view b (k + n) = m.view b k ++ m.view s n := by
  rw [view_append, view_move_before _ _ _ _ _ _ (by omega), view_move]

theorem view_move_prefix (m : Mem α) (d s : Int) (n k : Nat) (h : n ≤ k) :
    (m.move d s n).view d k = m.view s n ++ (m.view d k).drop n := by
  rw [move, view_store_prefix _ _ _ _ (by simpa using h), view_length, view_read, view_drop]

/-! ## The log -/

@[simp] theorem wrote_read (m : Mem α) (a : Int) (n : Nat) (i : Int) :
    (m.read a n).Wrote i ↔ m.Wrote i := by
  simp [Wrote, read]

@[simp] theorem wrote_store (m : Mem α) (a : Int) (l : List α) (i : Int) :
    (m.store a l).Wrote i ↔ (a ≤ i ∧ i < a + l.length) ∨ m.Wrote i := by
  simp [Wrote, store]

@[simp] theorem wrote_move (m : Mem α) (d s : Int) (n : Nat) (i : Int) :
    (m.move d s n).Wrote i ↔ (d ≤ i ∧ i < d + n) ∨ m.Wrote i := by
  simp [move]

@[simp] theorem wrote_resize (m : Mem α) (n : Nat) (i : Int) :
    (m.resize n).Wrote i ↔ m.Wrote i := Iff.rfl

theorem not_wrote_of_log_nil (m : Mem α) (h : m.log = []) (i : Int) : ¬ m.Wrote i := by
  simp [Wrote, h]

@[simp] theorem sound_read (m : Mem α) (a : Int) (n : Nat) :
    (m.read a n).Sound ↔ (n = 0 ∨ (0 ≤ a ∧ a + n ≤ m.size)) ∧ m.Sound := by
  simp [Sound, read, Access.InBounds]

@[simp] theorem sound_store (m : Mem α) (a : Int) (l : List α) :
    (m.store a l).Sound ↔ (l = [] ∨ (0 ≤ a ∧ a + l.length ≤ m.size)) ∧ m.Sound := by
  simp [Sound, store, Access.InBounds]

@[simp] theorem sound_move (m : Mem α) (d s : Int) (n : Nat) :
    (m.move d s n).Sound ↔
      (n = 0 ∨ ((0 ≤ s ∧ s + n ≤ m.size) ∧ 0 ≤ d ∧ d + n ≤ m.size)) ∧ m.Sound := by
  have : (m.view s n = [] ↔ n = 0) := by rw [← List.length_eq_zero_iff, view_length]
  simp only [move, sound_store, sound_read, view_length, size_read, this]
  tauto

@[simp] theorem sound_resize (m : Mem α) (n : Nat) : (m.resize n).Sound ↔ m.Sound := Iff.rfl

/-! ## Footprints -/

/-- Between `m` and `m'`, nothing but the cells from `lo` up to `hi` was touched. -/
structure Within (lo hi : Int) (m m' : Mem α) : Prop where
  size : m'.size = m.size
  cell : ∀ i, i < lo ∨ hi ≤ i → m'.cell i = m.cell i
  log : ∃ new, m'.log = new ++ m.log ∧
    ∀ x ∈ new, x.size = m.size ∧ (x.len = 0 ∨ lo ≤ x.lo ∧ x.lo + x.len ≤ hi)

namespace Within

variable {lo hi lo' hi' : Int} {m m' m'' : Mem α}

theorem refl (m : Mem α) : Within lo hi m m := ⟨rfl, fun _ _ => rfl, [], by simp⟩

theorem trans (h : Within lo hi m m') (h' : Within lo hi m' m'') : Within lo hi m m'' := by
  obtain ⟨new, hlog, hnew⟩ := h.log
  obtain ⟨new', hlog', hnew'⟩ := h'.log
  refine ⟨h'.size.trans h.size, fun i hi => (h'.cell i hi).trans (h.cell i hi), new' ++ new, ?_, ?_⟩
  · rw [hlog', hlog, List.append_assoc]
  · intro x hx
    rcases List.mem_append.mp hx with hx | hx
    · rw [← h.size]
      exact hnew' x hx
    · exact hnew x hx

theorem mono (h : Within lo hi m m') (hlo : lo' ≤ lo) (hhi : hi ≤ hi') : Within lo' hi' m m' := by
  obtain ⟨new, hlog, hnew⟩ := h.log
  refine ⟨h.size, fun i hi => h.cell i (by omega), new, hlog, fun x hx => ?_⟩
  have := hnew x hx
  omega

theorem read (a : Int) (n : Nat) (h : n = 0 ∨ lo ≤ a ∧ a + n ≤ hi) :
    Within lo hi m (m.read a n) :=
  ⟨rfl, fun _ _ => rfl, [⟨false, a, n, m.size⟩], rfl, by simpa using h⟩

theorem store (a : Int) (l : List α) (h : l = [] ∨ lo ≤ a ∧ a + l.length ≤ hi) :
    Within lo hi m (m.store a l) := by
  refine ⟨rfl, fun i hi => ?_, [⟨true, a, l.length, m.size⟩], rfl, by simpa using h⟩
  rcases h with rfl | h
  · simp [Mem.store]
  · rcases hi with hi | hi
    · exact cell_store_of_lt _ _ _ _ (by omega)
    · exact cell_store_of_ge _ _ _ _ (by omega)

theorem move (d s : Int) (n : Nat) (hd : n = 0 ∨ lo ≤ d ∧ d + n ≤ hi)
    (hs : n = 0 ∨ lo ≤ s ∧ s + n ≤ hi) : Within lo hi m (m.move d s n) := by
  refine (Within.read s n hs).trans (Within.store d _ ?_)
  rw [← List.length_eq_zero_iff, view_length]
  exact hd

theorem view (h : Within lo hi m m') (a : Int) (n : Nat) (ha : a + n ≤ lo ∨ hi ≤ a) :
    m'.view a n = m.view a n :=
  view_congr _ _ _ _ fun i _ _ => h.cell i (by omega)

theorem sound (h : Within lo hi m m') (hlo : 0 ≤ lo) (hhi : hi ≤ m.size) (hm : m.Sound) :
    m'.Sound := by
  obtain ⟨new, hlog, hnew⟩ := h.log
  intro x hx
  rw [hlog] at hx
  rcases List.mem_append.mp hx with hx | hx
  · obtain ⟨hsize, hlen⟩ := hnew x hx
    unfold Access.InBounds
    omega
  · exact hm x hx

theorem wrote (h : Within lo hi m m') (i : Int) (hi' : m'.Wrote i) :
    m.Wrote i ∨ (lo ≤ i ∧ i < hi) := by
  obtain ⟨new, hlog, hnew⟩ := h.log
  obtain ⟨x, hx, hw, hlo, hhi⟩ := hi'
  rw [hlog] at hx
  rcases List.mem_append.mp hx with hx | hx
  · have := hnew x hx
    omega
  · exact Or.inl ⟨x, hx, hw, hlo, hhi⟩

theorem grows (h : Within lo hi m m') : m.log <:+ m'.log := by
  obtain ⟨new, hlog, -⟩ := h.log
  rw [hlog]
  exact List.suffix_append _ _

theorem access (h : Within lo hi m m') {x : Access} {m1 : Mem α} (hold : m.log <:+ m1.log)
    (hlate : x :: m1.log <:+ m'.log) : x.len = 0 ∨ lo ≤ x.lo ∧ x.lo + x.len ≤ hi := by
  obtain ⟨old, hold⟩ := hold
  obtain ⟨late, hlate⟩ := hlate
  obtain ⟨new, hlog, hnew⟩ := h.log
  rw [hlog, ← hold, ← List.cons_append, ← List.append_assoc] at hlate
  have hmem : x ∈ new := by
    rw [← List.append_cancel_right hlate]
    simp
  exact (hnew x hmem).2

end Within

theorem Within.patch {u v w : List α} {m m' : Mem α} {a : Int}
    (h : Within (a + u.length) (a + u.length + v.length) m m')
    (hview : m.view a (u.length + v.length + w.length) = u ++ v ++ w) :
    m'.view a (u.length + v.length + w.length) = u ++ m'.view (a + u.length) v.length ++ w := by
  rw [view_append, view_append] at hview ⊢
  have hw := List.append_inj hview (by simp)
  have hu := List.append_inj hw.1 (by simp)
  rw [h.view a u.length (Or.inl (le_refl _)), hu.1,
    h.view _ w.length (Or.inr (by push_cast; omega)), hw.2]

/-! ## Reads that go too far -/

theorem log_read (m : Mem α) (a : Int) (n : Nat) : m.log <:+ (m.read a n).log := List.suffix_cons _ _

/-- Between `m` and `m'`, something from `hi` on was read. -/
def Strays (hi : Int) (m m' : Mem α) : Prop :=
  ∃ (m1 : Mem α) (a : Int) (n : Nat), m.log <:+ m1.log ∧ (m1.read a n).log <:+ m'.log ∧ n ≠ 0 ∧ hi < a + n

namespace Strays

variable {lo hi : Int} {m m' m'' : Mem α}

theorem read (a : Int) (n : Nat) (hn : n ≠ 0) (hi' : hi < a + n) : Strays hi m (m.read a n) :=
  ⟨m, a, n, List.suffix_refl _, List.suffix_refl _, hn, hi'⟩

theorem before (h : Strays hi m' m'') (hm : m.log <:+ m'.log) : Strays hi m m'' := by
  obtain ⟨m1, a, n, hm1, hread, hn, hout⟩ := h
  exact ⟨m1, a, n, hm.trans hm1, hread, hn, hout⟩

theorem behind (h : Strays hi m m') (hm : m'.log <:+ m''.log) : Strays hi m m'' := by
  obtain ⟨m1, a, n, hm1, hread, hn, hout⟩ := h
  exact ⟨m1, a, n, hm1, hread.trans hm, hn, hout⟩

theorem not_within (h : Strays hi m m') : ¬ Within lo hi m m' := by
  obtain ⟨m1, a, n, hold, hlate, hn, hout⟩ := h
  intro hin
  have := hin.access (x := ⟨false, a, n, m1.size⟩) hold hlate
  simp only at this
  omega

end Strays

end Mem

end Coins.Memory
