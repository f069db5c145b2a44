import Coins.Quotes.Stamp

/-!
# Sending times

What the FIX converters make of field 52: `strptime`, `timegm` and `strtons`.
-/

open Coins.Numeral

namespace Coins.Quotes

/-- The fields of a broken-down time that `strptime` sets and `timegm` reads. -/
structure tm where
  tm_year : Int
  tm_mon : Nat
  tm_mday : Nat
  tm_hour : Nat
  tm_min : Nat
  tm_sec : Nat
deriving DecidableEq

/-! ## `strptime` -/

/-- Up to `n` more digits, as long as the value is not bound to leave the range. -/
def get_digits (hi : Nat) : Nat → Nat → List Byte → Nat × List Byte
  | 0, val, rp => (val, rp)
  | _ + 1, val, [] => (val, [])
  | n + 1, val, c :: rp =>
    if val * 10 ≤ hi ∧ isDigit 10 c = true then get_digits hi n (val * 10 + (digit c).getD 0) rp
    else (val, c :: rp)

def get_number (lo hi n : Nat) (rp : List Byte) : Option (Nat × List Byte) :=
  let rp := rp.dropWhile isSpace
  if isDigit 10 (deref rp) = true then
    let r := get_digits hi n 0 rp
    if lo ≤ r.1 ∧ r.1 ≤ hi then some r else none
  else none

def match_char (c : Byte) (rp : List Byte) : Option (List Byte) :=
  if deref rp = c then some rp.tail else none

/-- `strptime` for the format `%Y%m%d-%T`, with what it leaves. -/
def strptime (rp : List Byte) : Option (tm × List Byte) := do
  let (year, rp) ← get_number 0 9999 4 rp
  let (mon, rp) ← get_number 1 12 2 rp
  let (mday, rp) ← get_number 1 31 2 rp
  let rp ← match_char (chr '-') rp
  let (hour, rp) ← get_number 0 23 2 rp
  let rp ← match_char (chr ':') rp
  let (min, rp) ← get_number 0 59 2 rp
  let rp ← match_char (chr ':') rp
  let (sec, rp) ← get_number 0 61 2 rp
  some (⟨year - 1900, mon - 1, mday, hour, min, sec⟩, rp)

/-! ## `timegm` -/

def leap (y : Nat) : Bool := y % 4 = 0 ∧ (y % 100 ≠ 0 ∨ y % 400 = 0)

/-- The days in front of year `y`, from year 0 on. -/
def days_before (y : Nat) : Nat := 365 * y + (y + 3) / 4 - (y + 99) / 100 + (y + 399) / 400

def month_starts : List Nat := [0, 31, 59, 90, 120, 151, 181, 212, 243, 273, 304, 334]

def timegm (t : tm) : tv_t :=
  let y := (t.tm_year + 1900).toNat
  let yday := month_starts.getD t.tm_mon 0 + (if leap y ∧ 2 ≤ t.tm_mon then 1 else 0) + t.tm_mday
  -- a day that the month does not have is one of the next month
  let days : Int := (days_before y + yday : Nat) - (days_before 1970 + 1)
  UInt64.ofInt (((days * 24 + t.tm_hour) * 60 + t.tm_min) * 60 + t.tm_sec)

/-! ## `strtons` -/

/-- The digits count along with what `strtoul` skips in front of them. -/
def strtons (buf : List Byte) : tv_t :=
  if deref buf ≠ chr '.' then 0
  else
    let r := strtoul 10 buf.tail
    Nat.repeat (· * 10) (9 - r.stop) (UInt64.ofNat r.val)

def sent (on : List Byte) : Option tv_t :=
  (strptime on).map fun r => timegm r.1 * NSECS + strtons r.2

example : sent (ascii "20160415-12:34:56.789") = some 1460723696789000000 := by decide +kernel
example : sent (ascii "19691231-23:59:59") = some (0 - NSECS) := by decide +kernel
example : sent (ascii "20160230-00:00:00") = sent (ascii "20160301-00:00:00") := by decide +kernel

end Coins.Quotes
