import Coins.Lib.Bytes
import Coins.Lib.Numeral

/-!
# Lines of the log files

What the converters have in common: the time stamp in front of a line, and pointers into the text,
which are given as the text from there on. Behind the text there is a NUL.
-/

open Coins.Numeral

namespace Coins.Quotes

abbrev tv_t := UInt64

def NSECS : tv_t := 1000000000
def MSECS : tv_t := 1000
def NOT_A_TIME : tv_t := 0xffffffffffffffff

def deref (on : List Byte) : Byte := on.headD 0

/-- `memchr`, as what is in front of the character and what is behind it. -/
def upto (c : Byte) : List Byte → Option (List Byte × List Byte)
  | [] => none
  | b :: bs => if b = c then some ([], bs) else (upto c bs).map fun r => (b :: r.1, r.2)

/-- The time stamp and the end pointer, which is left alone when there is no time. -/
def strtotv (ln : List Byte) : tv_t × List Byte :=
  let s := strtoul 10 ln
  let on := ln.drop s.stop
  if deref on = chr '.' then
    let on := on.tail
    let x := strtoul 10 on
    if x.stop > 9 then (NOT_A_TIME, [])
    else if x.stop % 3 ≠ 0 then (NOT_A_TIME, [])
    else
      let v := UInt64.ofNat x.val
      let v := if x.stop = 0 then v * MSECS else v
      let v := if x.stop ≤ 3 then v * MSECS else v
      let v := if x.stop ≤ 6 then v * MSECS else v
      (UInt64.ofNat s.val * NSECS + v, on.drop x.stop)
  else (UInt64.ofNat s.val * NSECS + 0, on)

def tvtostr (t : tv_t) : List Byte :=
  decimal (t / NSECS).toNat ++ ascii "." ++ fixed 9 (t % NSECS).toNat

/-! ## Texts -/

@[simp] theorem deref_cons (b : Byte) (bs : List Byte) : deref (b :: bs) = b := rfl

theorem upto_some (c : Byte) (a t : List Byte) (h : c ∉ a) : upto c (a ++ c :: t) = some (a, t) := by
  induction a with
  | nil => simp [upto]
  | cons b bs ih =>
    simp only [List.mem_cons, not_or] at h
    have hb : ¬ b = c := fun he => h.1 he.symm
    simp [upto, hb, ih h.2]

theorem upto_none (c : Byte) (l : List Byte) (h : c ∉ l) : upto c l = none := by
  induction l with
  | nil => rfl
  | cons b bs ih =>
    simp only [List.mem_cons, not_or] at h
    have hb : ¬ b = c := fun he => h.1 he.symm
    simp [upto, hb, ih h.2]

/-- A time stamp in front of a tab. -/
structure Stamp where
  text : List Byte
  tv : tv_t
  reads : ∀ rest, strtotv (text ++ tab :: rest) = (tv, tab :: rest)
  valid : tv ≠ NOT_A_TIME

theorem strtotv_full (s x rest : List Byte) (hs : s ≠ [] ∧ ∀ b ∈ s, isDigit 10 b = true)
    (hx : x.length = 9 ∧ ∀ b ∈ x, isDigit 10 b = true) (hsec : digitsVal 10 s ≤ ulongMax)
    (hsub : digitsVal 10 x ≤ ulongMax) :
    strtotv (s ++ ascii "." ++ x ++ tab :: rest) =
      (UInt64.ofNat (digitsVal 10 s) * NSECS + UInt64.ofNat (digitsVal 10 x), tab :: rest) := by
  have hxne : x ≠ [] := by
    intro he
    rw [he] at hx
    cases hx.1
  have hnum := strtoul_number 10 (by omega) [] s (chr '.') (x ++ tab :: rest) (by simp) hs.2 hs.1
    (by decide) (by simp)
  have hsubnum := strtoul_number 10 (by omega) [] x tab rest (by simp) hx.2 hxne (by decide) (by simp)
  rw [if_neg (by omega)] at hnum hsubnum
  simp only [List.nil_append, List.length_nil, Nat.zero_add] at hnum hsubnum
  have htext : s ++ ascii "." ++ x ++ tab :: rest = s ++ chr '.' :: (x ++ tab :: rest) := by
    rw [List.append_assoc, List.append_assoc]
    rfl
  unfold strtotv
  rw [htext, hnum]
  simp only [List.drop_left]
  have hdot : deref (chr '.' :: (x ++ tab :: rest)) = chr '.' := rfl
  rw [if_pos hdot, List.tail_cons, hsubnum]
  simp only [hx.1, List.drop_left' hx.1]
  rfl

end Coins.Quotes
