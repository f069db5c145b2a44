import Coins.Lib.Bytes
import Coins.Lib.Lines
import Coins.Lib.Numeral

/-!
# FIX frames

A message of FIX 4.4 says how long its body is and ends with a checksum over all that comes before
the checksum. The fields end in SOH.
-/

open Coins.Numeral Coins.Lines

namespace Coins.Fix

def SOH : Byte := 1

def checksum (l : List Byte) : Nat := (l.map UInt8.toNat).sum % 256

/-- The part of a frame that the checksum is about. -/
def opening (size body : List Byte) : List Byte :=
  ascii "8=FIX.4.4" ++ [SOH] ++ ascii "9=" ++ size ++ [SOH] ++ body

def frame (size body : List Byte) : List Byte :=
  opening size body ++ ascii "10=" ++ fixed 3 (checksum (opening size body)) ++ [SOH]

/-- `size` is the length of `body` in decimal. -/
def Sized (size body : List Byte) : Prop :=
  size ≠ [] ∧ (∀ b ∈ size, isDigit 10 b = true) ∧ digitsVal 10 size = body.length

instance (size body : List Byte) : Decidable (Sized size body) := by
  unfold Sized
  infer_instance

theorem SOH_not_mem (l : List Byte) (h : ∀ b ∈ l, isDigit 10 b = true) : SOH ∉ l := by
  intro hmem
  exact absurd (h SOH hmem) (by decide)

theorem opening_inj {size size' body body' : List Byte} (h : SOH ∉ size) (h' : SOH ∉ size')
    (heq : opening size body = opening size' body') : size = size' ∧ body = body' := by
  unfold opening at heq
  simp only [List.append_assoc, List.append_cancel_left_eq, List.singleton_append] at heq
  have hhead := congrArg (fun l => (lines SOH l).head?) heq
  simp only [lines_line size body h, lines_line size' body' h', List.head?_cons,
    Option.some.injEq] at hhead
  subst hhead
  simpa using heq

theorem frame_inj {size size' body body' : List Byte} (h : SOH ∉ size) (h' : SOH ∉ size')
    (heq : frame size body = frame size' body') : size = size' ∧ body = body' := by
  have hlen : ∀ l : List Byte, (ascii "10=" ++ fixed 3 (checksum l) ++ [SOH]).length = 7 := by
    intro l
    rw [List.length_append, List.length_append, fixed_length]
    rfl
  have hsplit : ∀ s b, frame s b =
      opening s b ++ (ascii "10=" ++ fixed 3 (checksum (opening s b)) ++ [SOH]) := by
    intro s b
    unfold frame
    simp only [List.append_assoc]
  rw [hsplit, hsplit] at heq
  exact opening_inj h h' (List.append_inj' heq (by rw [hlen, hlen])).1

end Coins.Fix
