import Coins.Ws.Handle

/-!
# The frame layout

The wire format of a WebSocket frame, on plain bytes: two header bytes, the extended length, the
mask key, the payload.
-/

open Coins.Endian

namespace Coins.Ws

/-! ## Header fields -/

def byteAt (l : List Byte) (i : Nat) : Nat := (l.getD i 0).toNat

def opcode (l : List Byte) : Nat := byteAt l 0 % 16
def finBit (l : List Byte) : Bool := 128 ≤ byteAt l 0
def maskBit (l : List Byte) : Bool := 128 ≤ byteAt l 1
def shortLen (l : List Byte) : Nat := byteAt l 1 % 128

def extLen (l : List Byte) : Nat := if shortLen l = 126 then 2 else if shortLen l = 127 then 8 else 0

def hdrLen (l : List Byte) : Nat := 2 + extLen l + if maskBit l then 4 else 0

def payLen (l : List Byte) : Nat :=
  if extLen l = 0 then shortLen l else ofBe ((l.drop 2).take (extLen l))

theorem two_le_hdrLen (l : List Byte) : 2 ≤ hdrLen l := by
  unfold hdrLen
  omega

theorem extLen_le (l : List Byte) : extLen l ≤ 8 := by
  unfold extLen
  split_ifs <;> omega

theorem hdrLen_le (l : List Byte) : hdrLen l ≤ 14 := by
  have := extLen_le l
  unfold hdrLen
  split_ifs <;> omega

theorem payLen_lt (l : List Byte) : payLen l < 2 ^ 64 := by
  unfold payLen
  split
  · have : shortLen l < 128 := Nat.mod_lt _ (by omega)
    omega
  · have h := ofBe_lt ((l.drop 2).take (extLen l))
    have h8 := extLen_le l
    have hl : ((l.drop 2).take (extLen l)).length ≤ 8 := by simp; omega
    calc ofBe ((l.drop 2).take (extLen l)) < 256 ^ ((l.drop 2).take (extLen l)).length := h
      _ ≤ 256 ^ 8 := Nat.pow_le_pow_right (by omega) hl
      _ = 2 ^ 64 := by norm_num

/-! ### Only the header matters -/

theorem byteAt_take (l : List Byte) (i k : Nat) (h : i < k) : byteAt (l.take k) i = byteAt l i := by
  simp [byteAt, List.getD_eq_getElem?_getD, List.getElem?_take_of_lt h]

section
variable (l : List Byte) (k : Nat)

theorem opcode_take (h : 2 ≤ k) : opcode (l.take k) = opcode l := by
  rw [opcode, opcode, byteAt_take _ _ _ (by omega)]

theorem finBit_take (h : 2 ≤ k) : finBit (l.take k) = finBit l := by
  rw [finBit, finBit, byteAt_take _ _ _ (by omega)]

theorem extLen_take (h : 2 ≤ k) : extLen (l.take k) = extLen l := by
  rw [extLen, extLen, shortLen, shortLen, byteAt_take _ _ _ (by omega)]

theorem hdrLen_take (h : 2 ≤ k) : hdrLen (l.take k) = hdrLen l := by
  rw [hdrLen, hdrLen, extLen_take _ _ h, maskBit, maskBit, byteAt_take _ _ _ (by omega)]

theorem payLen_take (h : hdrLen l ≤ k) : payLen (l.take k) = payLen l := by
  have h2 := two_le_hdrLen l
  have he : 2 + extLen l ≤ k := by
    unfold hdrLen at h
    omega
  rw [payLen, payLen, extLen_take _ _ (by omega), shortLen, shortLen, byteAt_take _ _ _ (by omega)]
  rw [List.drop_take, List.take_take, Nat.min_eq_left (by omega)]

end

/-! ## One frame -/

/-- What a receiver finds at the front of some bytes: one frame, and the bytes behind it. -/
structure Decoded where
  fin : Bool
  code : Nat
  masked : Bool
  len : Nat
  key : List Byte
  payload : List Byte
  rest : List Byte
  deriving DecidableEq, Repr

def decodeFrame (l : List Byte) : Option Decoded :=
  if l.length < 2 ∨ l.length < hdrLen l + payLen l then none
  else some {
    fin := finBit l
    code := opcode l
    masked := maskBit l
    len := payLen l
    key := (l.drop (2 + extLen l)).take (hdrLen l - (2 + extLen l))
    payload := (l.drop (hdrLen l)).take (payLen l)
    rest := l.drop (hdrLen l + payLen l) }

/-- `l` is one final frame, masked with the zero key, and nothing else. -/
def SingleFrame (code : Nat) (payload l : List Byte) : Prop :=
  decodeFrame l = some ⟨true, code, true, payload.length, [0, 0, 0, 0], payload, []⟩

end Coins.Ws
