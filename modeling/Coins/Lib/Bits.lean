import Mathlib.Data.List.Basic
import Mathlib.Tactic.Ring

/-!
# Numbers as bits

The bits of a number from the lowest or from the highest on, and those of bytes one after the other.
-/

namespace Coins.Bits

/-- The `n` lowest bits, the lowest one first. -/
def lsb : Nat → Nat → List Bool
  | 0, _ => []
  | n + 1, v => decide (v % 2 = 1) :: lsb n (v / 2)

/-- The `n` lowest bits, the highest one first. -/
def msb : Nat → Nat → List Bool
  | 0, _ => []
  | n + 1, v => decide (v / 2 ^ n % 2 = 1) :: msb n v

/-- The number whose lowest bit comes first. -/
def value : List Bool → Nat
  | [] => 0
  | b :: bs => b.toNat + 2 * value bs

def ofBytes (l : List UInt8) : List Bool := l.flatMap fun b => lsb 8 b.toNat

@[simp] theorem lsb_length (n v : Nat) : (lsb n v).length = n := by
  induction n generalizing v with
  | zero => rfl
  | succ n ih => rw [lsb, List.length_cons, ih]

@[simp] theorem msb_length (n v : Nat) : (msb n v).length = n := by
  induction n generalizing v with
  | zero => rfl
  | succ n ih => rw [msb, List.length_cons, ih]

theorem bit_toNat (v : Nat) : (decide (v % 2 = 1)).toNat = v % 2 := by
  rcases Nat.mod_two_eq_zero_or_one v with h | h <;> simp [h]

theorem decide_bit (b : Bool) (v : Nat) : decide ((b.toNat + 2 * v) % 2 = 1) = b := by
  cases b
  · simp
  · have : (1 + 2 * v) % 2 = 1 := by omega
    simp [this]

@[simp] theorem value_lsb (n v : Nat) : value (lsb n v) = v % 2 ^ n := by
  induction n generalizing v with
  | zero => simp [lsb, value, Nat.mod_one]
  | succ n ih =>
    rw [lsb, value, ih, bit_toNat, Nat.pow_succ']
    exact (Nat.mod_mul).symm

theorem lsb_value (l : List Bool) : lsb l.length (value l) = l := by
  induction l with
  | nil => rfl
  | cons b l ih =>
    have hhalf : (b.toNat + 2 * value l) / 2 = value l := by
      have := b.toNat_lt
      omega
    rw [List.length_cons, lsb, value, hhalf, ih, decide_bit]

theorem lsb_add (n m v : Nat) : lsb (n + m) v = lsb n v ++ lsb m (v / 2 ^ n) := by
  induction n generalizing v with
  | zero => simp [lsb]
  | succ n ih =>
    rw [Nat.add_right_comm, lsb, lsb, ih, List.cons_append, Nat.div_div_eq_div_mul, Nat.pow_succ']

theorem lsb_mod (n v : Nat) : lsb n (v % 2 ^ n) = lsb n v := by
  have h := lsb_value (lsb n v)
  rwa [lsb_length, value_lsb] at h

theorem lsb_join (n m v u : Nat) (hv : v < 2 ^ n) : lsb (n + m) (v + 2 ^ n * u) = lsb n v ++ lsb m u := by
  have hlow : (v + 2 ^ n * u) % 2 ^ n = v := by
    rw [Nat.add_mul_mod_self_left, Nat.mod_eq_of_lt hv]
  have hhigh : (v + 2 ^ n * u) / 2 ^ n = u := by
    rw [Nat.add_mul_div_left _ _ (Nat.two_pow_pos n), Nat.div_eq_of_lt hv, Nat.zero_add]
  rw [lsb_add, hhigh, ← lsb_mod n (v + 2 ^ n * u), hlow]

/-! ## From the highest bit on -/

theorem msb_add (n v u : Nat) : msb n (v + 2 ^ n * u) = msb n v := by
  induction n generalizing u with
  | zero => rfl
  | succ n ih =>
    have hhigh : (v + 2 ^ (n + 1) * u) / 2 ^ n = v / 2 ^ n + 2 * u := by
      rw [Nat.pow_succ, Nat.mul_assoc, Nat.add_mul_div_left _ _ (Nat.two_pow_pos n)]
    have hbit : (v / 2 ^ n + 2 * u) % 2 = v / 2 ^ n % 2 := by omega
    rw [msb, msb, hhigh, hbit, Nat.pow_succ, Nat.mul_assoc, ih]

/-! ## Bytes -/

@[simp] theorem ofBytes_nil : ofBytes [] = [] := rfl

@[simp] theorem ofBytes_cons (b : UInt8) (l : List UInt8) : ofBytes (b :: l) = lsb 8 b.toNat ++ ofBytes l := by
  simp [ofBytes]

@[simp] theorem ofBytes_append (l r : List UInt8) : ofBytes (l ++ r) = ofBytes l ++ ofBytes r := by
  simp [ofBytes]

@[simp] theorem ofBytes_length (l : List UInt8) : (ofBytes l).length = 8 * l.length := by
  induction l with
  | nil => rfl
  | cons b l ih =>
    rw [ofBytes_cons, List.length_append, lsb_length, ih, List.length_cons]
    omega

theorem ofBytes_inj {l r : List UInt8} (h : ofBytes l = ofBytes r) : l = r := by
  induction l generalizing r with
  | nil =>
    have hlen := congrArg List.length h
    rw [ofBytes_length, ofBytes_length] at hlen
    exact (List.length_eq_zero_iff.mp (by simpa using hlen.symm)).symm
  | cons b l ih =>
    cases r with
    | nil =>
      have hlen := congrArg List.length h
      rw [ofBytes_length, ofBytes_length] at hlen
      simp at hlen
    | cons c r =>
      rw [ofBytes_cons, ofBytes_cons] at h
      obtain ⟨hbyte, hrest⟩ := List.append_inj h (by simp)
      have hval := congrArg value hbyte
      rw [value_lsb, value_lsb, Nat.mod_eq_of_lt b.toNat_lt, Nat.mod_eq_of_lt c.toNat_lt] at hval
      rw [UInt8.toNat_inj.mp hval, ih hrest]

end Coins.Bits
