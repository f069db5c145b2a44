import Coins.Lib.Bytes
import Coins.Lib.Endian
import Coins.Lib.Memory

/-!
# The handle of a connection

`wsfr_t` and `struct ws_s` of `ws.c`, and the integer types they are made of.
-/

open Coins.Endian Coins.Memory

namespace Coins.Ws

/-! ## `size_t` and `ssize_t` -/

/-- A signed number as a `size_t`. -/
def toSize (n : Int) : Nat := (n % 2 ^ 64).toNat

/-- A number as an `ssize_t`. -/
def toSsize (n : Int) : Int := Int.bmod n (2 ^ 64)

theorem toSize_ofNat (n : Nat) (h : n < 2 ^ 64) : toSize n = n := by
  simp only [toSize]
  omega

theorem toSize_toSsize (n : Int) : toSize (toSsize n) = toSize n := by
  simp only [toSize, toSsize]
  have h := Int.bmod_emod (x := n) (m := 2 ^ 64)
  norm_num at h ⊢
  rw [h]

theorem toSsize_of_lt (n : Nat) (h : n < 2 ^ 63) : toSsize n = n := by
  simp only [toSsize]
  rw [Int.bmod_def]
  omega

theorem toSize_sub (n : Int) (k : Nat) (h : k ≤ toSize n) : toSize (n - k) = toSize n - k := by
  simp only [toSize] at h ⊢
  omega

theorem toSize_eq_zero_of_ssize (n : Int) (h : toSsize n = n) : toSize n = 0 ↔ n = 0 := by
  constructor
  · intro h0
    rw [← h, toSsize]
    simp only [toSize] at h0
    rw [Int.bmod_def]
    omega
  · rintro rfl
    rfl

theorem toSsize_idem (n : Int) : toSsize (toSsize n) = toSsize n := by
  simp only [toSsize]
  exact Int.bmod_bmod

/-! ## The frame header -/

/-- The 14 bytes of a `wsfr_t`. -/
structure wsfr_t where
  raw : List Byte
  size : raw.length = 14

namespace wsfr_t

def byte (f : wsfr_t) (i : Nat) : Nat := (f.raw.getD i 0).toNat

def code (f : wsfr_t) : Nat := f.byte 0 % 16
def finp (f : wsfr_t) : Nat := f.byte 0 / 128
def plen (f : wsfr_t) : Nat := f.byte 1 % 128
def mask (f : wsfr_t) : Nat := f.byte 1 / 128

/-- The field `plen16`, as a little-endian machine loads it. -/
def plen16 (f : wsfr_t) : Nat := ofLe ((f.raw.drop 2).take 2)

/-- Eight bytes loaded from `plen16` on. -/
def plen64 (f : wsfr_t) : Nat := ofLe ((f.raw.drop 2).take 8)

/-- `memcpy(&frml, l, ...)`: the first bytes are those of `l`, the others stay. -/
def set (f : wsfr_t) (l : List Byte) : wsfr_t where
  raw := l.take 14 ++ f.raw.drop (l.take 14).length
  size := by have := f.size; simp; omega

def zero : wsfr_t where
  raw := List.replicate 14 0
  size := by simp

theorem raw_set (f : wsfr_t) (l : List Byte) (h : l.length ≤ 14) :
    (f.set l).raw.take l.length = l := by
  simp [set, List.take_of_length_le h]

theorem raw_set_full (f : wsfr_t) (l : List Byte) (h : l.length = 14) : (f.set l).raw = l := by
  have := f.size
  simp [set, List.take_of_length_le h.le, h, this]

end wsfr_t

/-! ## The handle -/

inductive ws_proto_t where
  | WS_PROTO_RAW
  | WS_PROTO_WAMP
  | WS_PROTO_SIO1
  | WS_PROTO_SIO3
  | WS_PROTO_REST
  deriving DecidableEq, Repr

/-- `struct ws_s`. The members of its union are apart, since a handle uses only one of them. -/
structure ws_s where
  p : ws_proto_t
  togo : Int
  done : Nat
  state : Nat
  frml : wsfr_t
  host : List Byte

/-- What `_open` makes of a handle, and `ws_open` of its protocol. -/
def ws_s.init (p : ws_proto_t) : ws_s := ⟨p, 0, 0, 0, .zero, []⟩

def be16toh (x : Nat) : Nat := ofBe (leBytes 2 x)
def be64toh (x : Nat) : Nat := ofBe (leBytes 8 x)
def htobe16 (x : Nat) : Nat := ofLe (beBytes 2 x)
def htobe64 (x : Nat) : Nat := ofLe (beBytes 8 x)

def min_z (z1 z2 : Nat) : Nat := if z1 < z2 then z1 else z2

theorem min_z_eq (a b : Nat) : min_z a b = min a b := by
  unfold min_z
  split <;> omega

/-! ## Calls -/

/-- One call of a receiver: the buffer it is given, and what the peer has sent. -/
structure Call where
  mem : Mem Byte
  buf : Int
  bsz : Nat
  rd : List Byte

def received (calls : List Call) : List Byte := calls.flatMap Call.rd

theorem received_cons (c : Call) (cs : List Call) : received (c :: cs) = c.rd ++ received cs := rfl

/-- No byte behind the buffer is written, and the length returned is at most that of the buffer. -/
def Contained (buf : Int) (bsz : Nat) (m : Mem Byte) (ret : Int) : Prop :=
  (∀ i, buf + bsz ≤ i → ¬ m.Wrote i) ∧ ret ≤ bsz

end Coins.Ws
