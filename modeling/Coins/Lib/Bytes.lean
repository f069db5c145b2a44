import Mathlib.Data.List.TakeWhile

/-!
# Bytes

Characters as bytes, those that end a field or a line, and the search for one.
-/

namespace Coins

abbrev Byte := UInt8

def chr (c : Char) : Byte := UInt8.ofNat c.toNat

def nl : Byte := 10
def tab : Byte := 9
def crlf : List Byte := [13, 10]

def memchr (c : Byte) (l : List Byte) : Option Nat :=
  let i := (l.takeWhile (· != c)).length
  if i < l.length then some i else none

theorem memchr_none (c : Byte) (l : List Byte) (h : c ∉ l) : memchr c l = none := by
  unfold memchr
  rw [List.takeWhile_eq_self_iff.mpr, if_neg (by simp)]
  intro b hb
  simp only [bne_iff_ne, ne_eq]
  rintro rfl
  exact h hb

theorem memchr_some (c : Byte) (l t : List Byte) (h : c ∉ l) :
    memchr c (l ++ c :: t) = some l.length := by
  have hrun : (l ++ c :: t).takeWhile (· != c) = l := by
    rw [List.takeWhile_append_of_pos, List.takeWhile_cons_of_neg (by simp), List.append_nil]
    intro b hb
    simp only [bne_iff_ne, ne_eq]
    rintro rfl
    exact h hb
  unfold memchr
  rw [hrun, if_pos (by simp)]

theorem memchr_lt (c : Byte) (l : List Byte) (i : Nat) (h : memchr c l = some i) : i < l.length := by
  unfold memchr at h
  simp only at h
  split at h
  · rename_i hlt
    rw [Option.some.injEq] at h
    omega
  · cases h

end Coins
