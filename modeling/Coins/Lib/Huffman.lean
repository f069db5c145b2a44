import Mathlib.Tactic.Linarith
import Coins.Lib.Bits

/-!
# Canonical codes

Prefix codes that are given by the lengths of the code words alone: shorter words come first, and words of one
length are in the order of their symbols. A decoder goes down level by level and knows for each how many words
end there.
-/

open Coins.Bits

namespace Coins.Huffman

/-! ## Levels -/

section
variable (c : Nat → Nat)

/-- The words that are shorter. -/
def shorter : Nat → Nat
  | 0 => 0
  | k + 1 => shorter k + c k

/-- The first word of a length, as a number. -/
def first : Nat → Nat
  | 0 => 0
  | k + 1 => 2 * (first k + c k)

/-- The nodes of a level that are not below a word. -/
def free : Nat → Nat
  | 0 => 1
  | k + 1 => 2 * (free k - c k)

/-- What `n` levels take from level `j` on, counted in nodes of the one behind them. -/
def taken (j : Nat) : Nat → Nat
  | 0 => 0
  | n + 1 => c j * 2 ^ (n + 1) + taken (j + 1) n

/-- From level `k` down: `base` words have been passed, and `offs` is the node above. The place of the word, and
the bits behind it. -/
def walk : Nat → Nat → Nat → Nat → List Bool → Option (Nat × List Bool)
  | 0, _, _, _, _ => none
  | _ + 1, _, _, _, [] => none
  | fuel + 1, k, base, offs, b :: bs =>
    if 2 * offs + b.toNat < c k then some (base + (2 * offs + b.toNat), bs)
    else walk fuel (k + 1) (base + c k) (2 * offs + b.toNat - c k) bs

variable {c}

theorem taken_succ (j n : Nat) : taken c j (n + 1) = 2 * (taken c j n + c (j + n)) := by
  induction n generalizing j with
  | zero => simp [taken, Nat.mul_comm]
  | succ n ih =>
    rw [taken, ih, taken, Nat.pow_succ 2 (n + 1), show j + 1 + n = j + (n + 1) by omega]
    ring

theorem first_taken (h0 : c 0 = 0) (n : Nat) : first c (n + 1) = taken c 1 n := by
  induction n with
  | zero => simp [first, taken, h0]
  | succ n ih => rw [first, ih, taken_succ, Nat.add_comm 1 n]

theorem free_first (k : Nat) (h : ∀ i < k, c i ≤ free c i) : free c k + first c k = 2 ^ k := by
  induction k with
  | zero => rfl
  | succ k ih =>
    have hk := h k (Nat.lt_succ_self k)
    have := ih fun i hi => h i (Nat.lt_succ_of_lt hi)
    rw [free, first, Nat.pow_succ]
    omega

theorem shorter_mono {k n : Nat} (h : k ≤ n) : shorter c k ≤ shorter c n := by
  induction n with
  | zero => rw [Nat.le_zero.mp h]
  | succ n ih =>
    rcases Nat.lt_or_eq_of_le h with hlt | rfl
    · exact (ih (Nat.le_of_lt_succ hlt)).trans (Nat.le_add_right _ _)
    · exact le_refl _

/-! ## Going down -/

theorem walk_word (fuel n j offs x v : Nat) (bs : List Bool) (hx : x < 2 ^ (n + 1)) (hv : v < c (j + n))
    (hat : offs * 2 ^ (n + 1) + x = taken c j n + v) (hfuel : n < fuel) :
    walk c fuel j (shorter c j) offs (msb (n + 1) x ++ bs) = some (shorter c (j + n) + v, bs) := by
  induction n generalizing j offs x fuel with
  | zero =>
    obtain ⟨fuel, rfl⟩ := Nat.exists_eq_succ_of_ne_zero (by omega : fuel ≠ 0)
    have hbit : (decide (x / 2 ^ 0 % 2 = 1)).toNat = x := by
      rw [bit_toNat, Nat.pow_zero, Nat.div_one, Nat.mod_eq_of_lt (by simpa using hx)]
    have hoffs : 2 * offs + x = v := by
      simp only [taken, Nat.zero_add, Nat.pow_one] at hat
      omega
    have hleaf : 2 * offs + x < c j := by
      rw [hoffs]
      exact hv
    rw [msb, List.cons_append, walk, hbit, if_pos hleaf, hoffs]
    rfl
  | succ n ih =>
    obtain ⟨fuel, rfl⟩ := Nat.exists_eq_succ_of_ne_zero (by omega : fuel ≠ 0)
    have hpow : 0 < 2 ^ (n + 1) := Nat.two_pow_pos _
    have hsplit := Nat.div_add_mod x (2 ^ (n + 1))
    have hmod := Nat.mod_lt x hpow
    have htop : x / 2 ^ (n + 1) < 2 := by
      rw [Nat.div_lt_iff_lt_mul hpow, ← Nat.pow_succ']
      exact hx
    have hbit : (decide (x / 2 ^ (n + 1) % 2 = 1)).toNat = x / 2 ^ (n + 1) := by
      rw [bit_toNat, Nat.mod_eq_of_lt htop]
    have hlow : msb (n + 1) x = msb (n + 1) (x % 2 ^ (n + 1)) := by
      have h := msb_add (n + 1) (x % 2 ^ (n + 1)) (x / 2 ^ (n + 1))
      rwa [Nat.mod_add_div] at h
    rw [show msb (n + 1 + 1) x = decide (x / 2 ^ (n + 1) % 2 = 1) :: msb (n + 1) x from rfl, List.cons_append, walk,
      hbit, hlow]
    generalize x / 2 ^ (n + 1) = b at hsplit htop
    generalize x % 2 ^ (n + 1) = y at hsplit hmod
    -- the words of this level are passed
    rw [taken, Nat.pow_succ, ← hsplit] at hat
    have hat' : (2 * offs + b) * 2 ^ (n + 1) + y = c j * 2 ^ (n + 1) + (taken c (j + 1) n + v) := by
      linarith
    have hge : ¬ 2 * offs + b < c j := by
      intro hlt
      have := Nat.mul_le_mul_right (2 ^ (n + 1)) (Nat.succ_le_of_lt hlt)
      rw [Nat.succ_mul] at this
      omega
    have hnext : (2 * offs + b - c j) * 2 ^ (n + 1) + y = taken c (j + 1) n + v := by
      rw [Nat.sub_mul]
      have := Nat.mul_le_mul_right (2 ^ (n + 1)) (Nat.le_of_not_lt hge)
      omega
    have h := ih fuel (j + 1) (2 * offs + b - c j) y hmod
      (by rwa [show j + 1 + n = j + (n + 1) by omega]) hnext (by omega)
    rw [if_neg hge, show shorter c j + c j = shorter c (j + 1) from rfl, h, show j + 1 + n = j + (n + 1) by omega]

theorem walk_some (fuel j offs i : Nat) (bits r : List Bool)
    (h : walk c fuel j (shorter c j) offs bits = some (i, r)) :
    ∃ n v x, n < fuel ∧ v < c (j + n) ∧ x < 2 ^ (n + 1) ∧ bits = msb (n + 1) x ++ r ∧ i = shorter c (j + n) + v ∧
      offs * 2 ^ (n + 1) + x = taken c j n + v := by
  induction fuel generalizing j offs bits with
  | zero => cases h
  | succ fuel ih =>
    cases bits with
    | nil => cases h
    | cons b bs =>
      have hb := b.toNat_lt
      rw [walk] at h
      split at h
      · rename_i hlt
        obtain ⟨rfl, rfl⟩ := Prod.mk.inj (Option.some.inj h)
        refine ⟨0, 2 * offs + b.toNat, b.toNat, Nat.succ_pos _, hlt, by simpa using hb, ?_, rfl, ?_⟩
        · cases b <;> rfl
        · simp only [taken]
          omega
      · rename_i hge
        obtain ⟨n, v, x, hn, hv, hx, rfl, rfl, hat⟩ := ih (j + 1) _ bs h
        have hj : j + 1 + n = j + (n + 1) := by omega
        rw [hj] at hv ⊢
        refine ⟨n + 1, v, x + 2 ^ (n + 1) * b.toNat, by omega, hv, ?_, ?_, rfl, ?_⟩
        · rw [Nat.pow_succ 2 (n + 1)]
          have := Nat.mul_le_mul_left (2 ^ (n + 1)) (Nat.le_of_lt_succ hb)
          omega
        · have hbit : (x + 2 ^ (n + 1) * b.toNat) / 2 ^ (n + 1) = b.toNat := by
            rw [Nat.add_mul_div_left _ _ (Nat.two_pow_pos _), Nat.div_eq_of_lt hx, Nat.zero_add]
          rw [show ∀ y, msb (n + 1 + 1) y = decide (y / 2 ^ (n + 1) % 2 = 1) :: msb (n + 1) y from fun _ => rfl,
            hbit, msb_add]
          cases b <;> rfl
        · have hmul := Nat.mul_le_mul_right (2 ^ (n + 1)) (Nat.le_of_not_lt hge)
          have hsub : (2 * offs + b.toNat - c j) * 2 ^ (n + 1) + c j * 2 ^ (n + 1) =
              (2 * offs + b.toNat) * 2 ^ (n + 1) := by
            rw [← Nat.add_mul, Nat.sub_add_cancel (Nat.le_of_not_lt hge)]
          rw [taken, Nat.pow_succ 2 (n + 1)]
          linarith

theorem free_step {j offs b : Nat} (hoffs : 2 * offs + 2 ≤ free c j) (hb : b < 2) (hge : ¬ 2 * offs + b < c j) :
    2 * (2 * offs + b - c j) + 2 ≤ free c (j + 1) := by
  rw [free]
  omega

end

/-! ## Lengths of the words of symbols -/

/-- The words of a length; a symbol of length 0 has none. -/
def counts (ls : List Nat) (k : Nat) : Nat := if k = 0 then 0 else ls.count k

/-- The place of a symbol among all of them. -/
def place (ls : List Nat) (s : Nat) : Nat :=
  shorter (counts ls) (ls.getD s 0) + (ls.take s).count (ls.getD s 0)

def Word (ls : List Nat) (s : Nat) (w : List Bool) : Prop :=
  ∃ k, ls[s]? = some (k + 1) ∧ w = msb (k + 1) (first (counts ls) (k + 1) + (ls.take s).count (k + 1))

/-- What the words take, of the `2 ^ n` words of length `n`. -/
def kraft (n : Nat) (ls : List Nat) : Nat := (ls.map fun l => if l = 0 then 0 else 2 ^ (n - l)).sum

theorem count_take_lt {ls : List Nat} {s k : Nat} (h : ls[s]? = some k) : (ls.take s).count k < ls.count k := by
  obtain ⟨hs, rfl⟩ := List.getElem?_eq_some_iff.mp h
  have hsplit := congrArg (List.count ls[s]) (List.take_append_drop s ls)
  rw [List.count_append, List.drop_eq_getElem_cons hs, List.count_cons_self] at hsplit
  omega

theorem count_take_mono {ls : List Nat} {s t k : Nat} (hs : ls[s]? = some k) (hst : s < t) :
    (ls.take s).count k < (ls.take t).count k := by
  have h : (ls.take t)[s]? = some k := by
    rw [List.getElem?_take_of_lt hst]
    exact hs
  have := count_take_lt h
  rwa [List.take_take, Nat.min_eq_left (Nat.le_of_lt hst)] at this

theorem exists_rank (ls : List Nat) (k v : Nat) (h : v < ls.count k) :
    ∃ s, ls[s]? = some k ∧ (ls.take s).count k = v := by
  induction ls generalizing v with
  | nil => simp at h
  | cons l ls ih =>
    by_cases hl : l = k
    · subst hl
      cases v with
      | zero => exact ⟨0, rfl, rfl⟩
      | succ v =>
        rw [List.count_cons_self] at h
        obtain ⟨s, hs, hv⟩ := ih v (by omega)
        exact ⟨s + 1, by simpa using hs, by simp [hv]⟩
    · rw [List.count_cons_of_ne hl] at h
      obtain ⟨s, hs, hv⟩ := ih v h
      exact ⟨s + 1, by simpa using hs, by simp [List.count_cons_of_ne hl, hv]⟩

theorem place_eq {ls : List Nat} {s k : Nat} (h : ls[s]? = some k) :
    place ls s = shorter (counts ls) k + (ls.take s).count k := by
  rw [place, List.getD_eq_getElem?_getD, h]
  rfl

theorem counts_pos (ls : List Nat) (k : Nat) : counts ls (k + 1) = ls.count (k + 1) := rfl

theorem place_lt {ls : List Nat} {s k : Nat} (h : ls[s]? = some (k + 1)) :
    place ls s < shorter (counts ls) (k + 2) := by
  have := count_take_lt h
  rw [place_eq h, show shorter (counts ls) (k + 2) = shorter (counts ls) (k + 1) + ls.count (k + 1) from rfl]
  omega

theorem place_inj {ls : List Nat} {s t k m : Nat} (hs : ls[s]? = some (k + 1)) (ht : ls[t]? = some (m + 1))
    (h : place ls s = place ls t) : s = t := by
  have hslt := place_lt hs
  have htlt := place_lt ht
  rw [place_eq hs] at h hslt
  rw [place_eq ht] at h htlt
  rcases Nat.lt_trichotomy k m with hkm | rfl | hkm
  · have := shorter_mono (c := counts ls) (show k + 2 ≤ m + 1 by omega)
    omega
  · rcases Nat.lt_trichotomy s t with hst | rfl | hst
    · have := count_take_mono hs hst
      omega
    · rfl
    · have := count_take_mono ht hst
      omega
  · have := shorter_mono (c := counts ls) (show m + 2 ≤ k + 1 by omega)
    omega

theorem exists_place {ls : List Nat} {n i : Nat} (h : i < shorter (counts ls) (n + 1)) :
    ∃ s k, ls[s]? = some (k + 1) ∧ place ls s = i := by
  induction n with
  | zero => simp [shorter, counts] at h
  | succ n ih =>
    rcases Nat.lt_or_ge i (shorter (counts ls) (n + 1)) with hlt | hge
    · exact ih hlt
    · rw [show shorter (counts ls) (n + 1 + 1) = shorter (counts ls) (n + 1) + ls.count (n + 1) from rfl] at h
      obtain ⟨s, hs, hrank⟩ := exists_rank ls (n + 1) (i - shorter (counts ls) (n + 1)) (by omega)
      refine ⟨s, n, hs, ?_⟩
      rw [place_eq hs, hrank]
      omega

theorem walk_of_word {ls : List Nat} {n s : Nat} {w : List Bool} (h : Word ls s w)
    (hfree : ∀ k ≤ n, counts ls k ≤ free (counts ls) k) (hn : ∀ l ∈ ls, l ≤ n) (r : List Bool) :
    walk (counts ls) n 1 0 0 (w ++ r) = some (place ls s, r) := by
  obtain ⟨k, hk, rfl⟩ := h
  have hkn : k + 1 ≤ n := hn (k + 1) (List.mem_of_getElem? hk)
  have hlt := count_take_lt hk
  have hroom := free_first (k + 1) fun i hi => hfree i (by omega)
  have hthis := hfree (k + 1) hkn
  rw [counts_pos] at hthis
  have hfirst := first_taken (c := counts ls) rfl k
  have hwalk := walk_word (c := counts ls) n k 1 0 (first (counts ls) (k + 1) + (ls.take s).count (k + 1))
    ((ls.take s).count (k + 1)) r (by omega) (by rw [Nat.add_comm 1 k, counts_pos]; exact hlt)
    (by rw [hfirst]; omega) (by omega)
  rw [Nat.add_comm 1 k] at hwalk
  rw [place_eq hk]
  exact hwalk

theorem word_of_walk (ls : List Nat) {n i : Nat} {bits r : List Bool}
    (h : walk (counts ls) n 1 0 0 bits = some (i, r)) : ∃ s w, Word ls s w ∧ bits = w ++ r ∧ place ls s = i := by
  obtain ⟨m, v, x, -, hv, -, hbits, hi, hat⟩ := walk_some n 1 0 i bits r h
  rw [Nat.add_comm 1 m] at hv hi
  rw [counts_pos] at hv
  obtain ⟨s, hs, hrank⟩ := exists_rank ls (m + 1) v hv
  refine ⟨s, _, ⟨m, hs, rfl⟩, ?_, ?_⟩
  · rw [hbits, hrank, first_taken (c := counts ls) rfl m, ← hat, Nat.zero_mul, Nat.zero_add]
  · rw [place_eq hs, hrank, hi]

/-! ## Full codes -/

/-- What a word of length `l` takes of the level behind level `m`. -/
def below (m l : Nat) : Nat := if l ≠ 0 ∧ l ≤ m then 2 ^ (m + 1 - l) else 0

theorem below_succ (m l : Nat) : below (m + 1) l = 2 * (below m l + if l == m + 1 then 1 else 0) := by
  unfold below
  rcases Nat.lt_trichotomy l (m + 1) with hl | rfl | hl
  · have hne : (l == m + 1) = false := by
      simp
      omega
    rw [hne]
    by_cases h0 : l = 0
    · simp [h0]
    · rw [if_pos ⟨h0, by omega⟩, if_pos ⟨h0, by omega⟩, show m + 1 + 1 - l = m + 1 - l + 1 by omega, Nat.pow_succ']
      rfl
  · simp
  · have hne : (l == m + 1) = false := by
      simp
      omega
    rw [hne, if_neg (by omega), if_neg (by omega)]
    rfl

theorem below_le {n l : Nat} (h : l ≤ n) : below n l = 2 * if l = 0 then 0 else 2 ^ (n - l) := by
  unfold below
  by_cases h0 : l = 0
  · simp [h0]
  · rw [if_pos ⟨h0, h⟩, if_neg h0, show n + 1 - l = n - l + 1 by omega, Nat.pow_succ']

theorem first_below (ls : List Nat) (m : Nat) : first (counts ls) (m + 1) = (ls.map (below m)).sum := by
  induction m with
  | zero =>
    have hnone : ls.map (below 0) = ls.map fun _ => 0 := List.map_congr_left fun l _ => if_neg (by omega)
    rw [hnone]
    simp [first, counts]
  | succ m ih =>
    rw [first, ih, counts_pos]
    clear ih
    induction ls with
    | nil => rfl
    | cons l ls ih =>
      rw [List.map_cons, List.map_cons, List.sum_cons, List.sum_cons, ← ih, List.count_cons, below_succ]
      omega

theorem first_kraft {ls : List Nat} {n : Nat} (h : ∀ l ∈ ls, l ≤ n) :
    first (counts ls) (n + 1) = 2 * kraft n ls := by
  rw [first_below, kraft]
  induction ls with
  | nil => rfl
  | cons l ls ih =>
    rw [List.map_cons, List.map_cons, List.sum_cons, List.sum_cons, ih fun x hx => h x (List.mem_cons_of_mem l hx),
      below_le (h l List.mem_cons_self)]
    omega

theorem shorter_length {ls : List Nat} {n : Nat} (h : ∀ l ∈ ls, l ≤ n) :
    shorter (counts ls) (n + 1) = (ls.filter (· ≠ 0)).length := by
  have hupto : ∀ m, shorter (counts ls) (m + 1) = ls.countP fun l => l ≠ 0 ∧ l ≤ m := by
    intro m
    induction m with
    | zero =>
      have hnone : ls.countP (fun l => l ≠ 0 ∧ l ≤ 0) = 0 := by
        rw [List.countP_eq_zero]
        simp
      rw [hnone]
      rfl
    | succ m ih =>
      rw [show shorter (counts ls) (m + 1 + 1) = shorter (counts ls) (m + 1) + ls.count (m + 1) from rfl, ih]
      clear h ih
      induction ls with
      | nil => rfl
      | cons l ls ih =>
        rw [List.countP_cons, List.countP_cons, List.count_cons, ← ih]
        grind
  rw [hupto, ← List.countP_eq_length_filter]
  apply List.countP_congr
  intro l hl
  simp [h l hl]

variable {c : Nat → Nat}

theorem first_double (k m : Nat) : first c k * 2 ^ m ≤ first c (k + m) := by
  induction m with
  | zero => simp
  | succ m ih =>
    rw [← Nat.add_assoc, first, Nat.pow_succ, ← Nat.mul_assoc]
    omega

theorem counts_le_free {ls : List Nat} {n : Nat} (h : ∀ l ∈ ls, l ≤ n) (hk : kraft n ls ≤ 2 ^ n) :
    ∀ k ≤ n, counts ls k ≤ free (counts ls) k := by
  intro k
  induction k using Nat.strongRecOn with
  | ind k ih =>
    intro hkn
    have hroom := free_first (c := counts ls) k fun i hi => ih i hi (by omega)
    have hdouble := first_double (c := counts ls) (k + 1) (n - k)
    rw [show k + 1 + (n - k) = n + 1 by omega, first_kraft h, first] at hdouble
    have hsplit : 2 ^ n = 2 ^ k * 2 ^ (n - k) := by
      rw [← Nat.pow_add, Nat.add_sub_cancel' hkn]
    have hle : (first (counts ls) k + counts ls k) * 2 ^ (n - k) ≤ 2 ^ k * 2 ^ (n - k) := by
      rw [← hsplit]
      rw [Nat.mul_assoc] at hdouble
      omega
    have := Nat.le_of_mul_le_mul_right hle (Nat.two_pow_pos _)
    omega

theorem full_iff {ls : List Nat} {n : Nat} (h : ∀ l ∈ ls, l ≤ n)
    (hfree : ∀ k ≤ n, counts ls k ≤ free (counts ls) k) : free (counts ls) (n + 1) = 0 ↔ kraft n ls = 2 ^ n := by
  have hroom := free_first (c := counts ls) (n + 1) fun i hi => hfree i (by omega)
  rw [first_kraft h, Nat.pow_succ'] at hroom
  omega

theorem kraft_filter (n : Nat) (ls : List Nat) : kraft n (ls.filter (· ≠ 0)) = kraft n ls := by
  induction ls with
  | nil => rfl
  | cons l ls ih =>
    unfold kraft at ih ⊢
    by_cases h0 : l = 0
    · simp_all
    · simp_all

end Coins.Huffman
