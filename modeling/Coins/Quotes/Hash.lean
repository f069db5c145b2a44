import Coins.Lib.Numeral

/-!
# `hash`

The hash function of `hash.c` on a little-endian machine, with the seed 0.
-/

open Coins.Numeral

namespace Coins.Quotes

abbrev hx_t := UInt32

def PRIME32_1 : UInt32 := 2654435761
def PRIME32_2 : UInt32 := 2246822519
def PRIME32_3 : UInt32 := 3266489917
def PRIME32_4 : UInt32 := 668265263
def PRIME32_5 : UInt32 := 374761393

def XXH_rotl32 (x r : UInt32) : UInt32 := (x <<< r) ||| (x >>> (32 - r))

/-- The first four bytes. -/
def XXH_get32bits (p : List UInt8) : UInt32 :=
  (p.getD 0 0).toUInt32 ||| (p.getD 1 0).toUInt32 <<< 8 ||| (p.getD 2 0).toUInt32 <<< 16 |||
    (p.getD 3 0).toUInt32 <<< 24

/-- The four lanes. -/
structure Lanes where
  v1 : UInt32
  v2 : UInt32
  v3 : UInt32
  v4 : UInt32

def lane (v : UInt32) (p : List UInt8) : UInt32 :=
  XXH_rotl32 (v + XXH_get32bits p * PRIME32_2) 13 * PRIME32_1

/-- As many times 16 bytes as there are, and what is behind them. -/
def stripes : Nat → Lanes → List UInt8 → Lanes × List UInt8
  | 0, v, p => (v, p)
  | n + 1, v, p =>
    stripes n ⟨lane v.v1 p, lane v.v2 (p.drop 4), lane v.v3 (p.drop 8), lane v.v4 (p.drop 12)⟩ (p.drop 16)

/-- Four bytes at a time, and then one. -/
def remaining : UInt32 → List UInt8 → UInt32
  | h32, a :: b :: c :: d :: p =>
    remaining (XXH_rotl32 (h32 + XXH_get32bits [a, b, c, d] * PRIME32_3) 17 * PRIME32_4) p
  | h32, p => p.foldl (fun h32 b => XXH_rotl32 (h32 + b.toUInt32 * PRIME32_5) 11 * PRIME32_1) h32

def avalanche (h32 : UInt32) : UInt32 :=
  let h32 := (h32 ^^^ (h32 >>> 15)) * PRIME32_2
  let h32 := (h32 ^^^ (h32 >>> 13)) * PRIME32_3
  h32 ^^^ (h32 >>> 16)

def hash (p : List UInt8) : hx_t :=
  if 16 ≤ p.length then
    let (v, q) := stripes (p.length / 16) ⟨PRIME32_1 + PRIME32_2, PRIME32_2, 0, 0 - PRIME32_1⟩ p
    let h32 := XXH_rotl32 v.v1 1 + XXH_rotl32 v.v2 7 + XXH_rotl32 v.v3 12 + XXH_rotl32 v.v4 18
    avalanche (remaining (h32 + UInt32.ofNat p.length) q)
  else avalanche (remaining (PRIME32_5 + UInt32.ofNat p.length) p)

/-! ## Four bytes -/

theorem get32bits_toNat (a b c d : UInt8) :
    (XXH_get32bits [a, b, c, d]).toNat =
      a.toNat + 256 * b.toNat + 65536 * c.toNat + 16777216 * d.toNat := by
  have ha := a.toNat_lt
  have hb := b.toNat_lt
  have hc := c.toNat_lt
  have hd := d.toNat_lt
  have h1 : a.toNat ||| b.toNat <<< 8 = b.toNat <<< 8 + a.toNat := by
    rw [Nat.or_comm, Nat.shiftLeft_add_eq_or_of_lt ha]
  have h2 : (a.toNat + 256 * b.toNat) ||| c.toNat <<< 16 =
      c.toNat <<< 16 + (a.toNat + 256 * b.toNat) := by
    rw [Nat.or_comm, Nat.shiftLeft_add_eq_or_of_lt (by omega)]
  have h3 : (a.toNat + 256 * b.toNat + 65536 * c.toNat) ||| d.toNat <<< 24 =
      d.toNat <<< 24 + (a.toNat + 256 * b.toNat + 65536 * c.toNat) := by
    rw [Nat.or_comm, Nat.shiftLeft_add_eq_or_of_lt (by omega)]
  simp [XXH_get32bits, Nat.shiftLeft_eq] at h1 h2 h3 ⊢
  rw [Nat.mod_eq_of_lt (by omega), Nat.mod_eq_of_lt (by omega), Nat.mod_eq_of_lt (by omega), h1,
    Nat.add_comm, Nat.mul_comm b.toNat, h2]
  rw [show c.toNat * 65536 + (a.toNat + 256 * b.toNat) = a.toNat + 256 * b.toNat + 65536 * c.toNat by omega,
    h3]
  omega

theorem get32bits_inj (a b c d e f g h : UInt8)
    (heq : XXH_get32bits [a, b, c, d] = XXH_get32bits [e, f, g, h]) : [a, b, c, d] = [e, f, g, h] := by
  have hnat := congrArg UInt32.toNat heq
  rw [get32bits_toNat, get32bits_toNat] at hnat
  have ha := a.toNat_lt
  have hb := b.toNat_lt
  have hc := c.toNat_lt
  have he := e.toNat_lt
  have hf := f.toNat_lt
  have hg := g.toNat_lt
  rw [UInt8.toNat_inj.mp (show a.toNat = e.toNat by omega), UInt8.toNat_inj.mp (show b.toNat = f.toNat by omega),
    UInt8.toNat_inj.mp (show c.toNat = g.toNat by omega), UInt8.toNat_inj.mp (show d.toNat = h.toNat by omega)]

theorem mul_inj (m inv x y : UInt32) (hinv : m * inv = 1) (h : x * m = y * m) : x = y := by
  have hx := congrArg (· * inv) h
  simp only [UInt32.mul_assoc, hinv, UInt32.mul_one] at hx
  exact hx

theorem rotl_inj (x y : UInt32) (h : XXH_rotl32 x 17 = XXH_rotl32 y 17) : x = y := by
  have hback : ∀ v : BitVec 32,
      (v <<< 17 ||| v >>> 15) <<< 15 ||| (v <<< 17 ||| v >>> 15) >>> 17 = v := by
    intro v
    apply BitVec.eq_of_getLsbD_eq
    intro i hi
    have hhigh : v.getLsbD (15 + (17 + i)) = false := BitVec.getLsbD_of_ge _ _ (by omega)
    simp only [BitVec.getLsbD_or, BitVec.getLsbD_shiftLeft, BitVec.getLsbD_ushiftRight, hhigh]
    by_cases hlow : i < 15
    · have h1 : 17 + i < 32 := by omega
      have h2 : ¬ 17 + i < 17 := by omega
      have h3 : 17 + i - 17 = i := by omega
      simp [hlow, h1, h2, h3, hi]
    · have h1 : ¬ 17 + i < 32 := by omega
      have h2 : i - 15 < 17 := by omega
      have h3 : 15 + (i - 15) = i := by omega
      simp [hlow, h1, h2, h3, hi]
  have hbits : x.toBitVec <<< 17 ||| x.toBitVec >>> 15 = y.toBitVec <<< 17 ||| y.toBitVec >>> 15 := by
    have hx := congrArg UInt32.toBitVec h
    simp [XXH_rotl32] at hx
    exact hx
  apply UInt32.eq_of_toBitVec_eq
  rw [← hback x.toBitVec, hbits, hback]

theorem xorshift_inj (n m : Nat) (x y : BitVec 32) (hm : n + n = m) (hn : 32 ≤ n + m)
    (h : x ^^^ x >>> n = y ^^^ y >>> n) : x = y := by
  have hback : ∀ v : BitVec 32, (v ^^^ v >>> n) ^^^ (v ^^^ v >>> n) >>> n ^^^ (v ^^^ v >>> n) >>> m = v := by
    intro v
    have hzero : v >>> (n + m) = 0#32 := BitVec.ushiftRight_eq_zero hn
    simp only [BitVec.ushiftRight_xor_distrib, ← BitVec.shiftRight_add]
    rw [hm, hzero]
    ext i hi
    simp
  rw [← hback x, h, hback]

theorem avalanche_inj (x y : UInt32) (h : avalanche x = avalanche y) : x = y := by
  unfold avalanche at h
  have h16 := xorshift_inj 16 32 _ _ rfl (by decide) (congrArg UInt32.toBitVec h)
  have h13 := mul_inj PRIME32_3 0xa89ed915 _ _ (by decide) (UInt32.eq_of_toBitVec_eq h16)
  have h13 := xorshift_inj 13 26 _ _ rfl (by decide) (congrArg UInt32.toBitVec h13)
  have h15 := mul_inj PRIME32_2 0xb6c92f47 _ _ (by decide) (UInt32.eq_of_toBitVec_eq h13)
  exact UInt32.eq_of_toBitVec_eq (xorshift_inj 15 30 _ _ rfl (by decide) (congrArg UInt32.toBitVec h15))

theorem hash_four_inj (p q : List UInt8) (hp : p.length = 4) (hq : q.length = 4) (h : hash p = hash q) :
    p = q := by
  match p, hp with
  | [a, b, c, d], _ =>
    match q, hq with
    | [e, f, g, i], _ =>
      unfold hash at h
      rw [if_neg (by simp), if_neg (by simp)] at h
      have hmul := mul_inj PRIME32_4 0xa0fe3bcf _ _ (by decide) (avalanche_inj _ _ h)
      have hrot := rotl_inj _ _ hmul
      have hadd := mul_inj PRIME32_3 0xa89ed915 _ _ (by decide) ((UInt32.add_right_inj _).mp hrot)
      exact get32bits_inj _ _ _ _ _ _ _ _ hadd

end Coins.Quotes
