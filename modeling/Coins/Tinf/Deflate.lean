import Coins.Lib.Decoder
import Coins.Lib.Huffman

/-!
# The deflate format

Which streams there are, and what they stand for. Nothing here is taken from the decoder.
-/

open Coins.Bits Coins.Decoder Coins.Huffman

namespace Coins.Tinf

/-- The bits that are left, and the bytes up to here. -/
structure Point where
  bits : List Bool
  out : List UInt8

abbrev Piece (α : Type) := Format Point α

/-- A number, its lowest bit first. -/
def Number (n : Nat) : Piece Nat := fun p v q => v < 2 ^ n ∧ p = ⟨lsb n v ++ q.bits, q.out⟩

/-- A word of a code. -/
def Symbol (ls : List Nat) : Piece Nat := fun p s q => ∃ w, Word ls s w ∧ p = ⟨w ++ q.bits, q.out⟩

/-- The words use up all there are, or there is one, of one bit, or none. -/
def Usable (ls : List Nat) : Prop :=
  (∀ l ∈ ls, l ≤ 15) ∧ (kraft 15 ls = 2 ^ 15 ∨ ls.filter (· ≠ 0) = [1] ∨ ls.filter (· ≠ 0) = [])

/-! ## The code of a block -/

/-- `k` numbers of `n` bits. -/
inductive Row (n : Nat) : Nat → Point → List Nat → Point → Prop
  | nil {p : Point} : Row n 0 p [] p
  | cons {k v : Nat} {vs : List Nat} {p m q : Point} (h : Number n p v m) (rest : Row n k m vs q) :
    Row n (k + 1) p (v :: vs) q

/-- Lengths come in an order of their own. Those that do not come are 0. -/
def ordered (clens : List Nat) : List Nat :=
  (List.range 19).map fun s =>
    clens.getD ([16, 17, 18, 0, 8, 7, 9, 6, 10, 5, 11, 4, 12, 3, 13, 2, 14, 1, 15].idxOf s) 0

/-- The lengths one symbol stands for, behind the lengths `ls`. -/
inductive Entry (cl ls : List Nat) : Point → List Nat → Point → Prop
  | one {l : Nat} {p q : Point} (h : Symbol cl p l q) (hl : l < 16) : Entry cl ls p [l] q
  | again {l n : Nat} {p m q : Point} (h : Symbol cl p 16 m) (hl : ls.getLast? = some l) (hn : Number 2 m n q) :
    Entry cl ls p (List.replicate (3 + n) l) q
  | few {n : Nat} {p m q : Point} (h : Symbol cl p 17 m) (hn : Number 3 m n q) :
    Entry cl ls p (List.replicate (3 + n) 0) q
  | many {n : Nat} {p m q : Point} (h : Symbol cl p 18 m) (hn : Number 7 m n q) :
    Entry cl ls p (List.replicate (11 + n) 0) q

/-- What completes the lengths `ls` to `total`. -/
inductive Lengths (cl : List Nat) (total : Nat) : List Nat → Point → List Nat → Point → Prop
  | done {ls : List Nat} {p : Point} (h : ls.length = total) : Lengths cl total ls p ls p
  | more {ls e all : List Nat} {p m q : Point} (h : Entry cl ls p e m) (hroom : ls.length + e.length ≤ total)
      (rest : Lengths cl total (ls ++ e) m all q) :
    Lengths cl total ls p all q

/-- The lengths of the two codes of a block. The end of the block must have a word. -/
inductive Trees : Point → List Nat × List Nat → Point → Prop
  | intro {hlit hdist hclen : Nat} {clens ls : List Nat} {p p1 p2 p3 p4 q : Point} (h1 : Number 5 p hlit p1)
      (h2 : Number 5 p1 hdist p2) (h3 : Number 4 p2 hclen p3) (hlit_le : hlit ≤ 29) (hdist_le : hdist ≤ 29)
      (h4 : Row 3 (hclen + 4) p3 clens p4) (hcl : Usable (ordered clens)) (hsome : ∃ l ∈ ordered clens, l ≠ 0)
      (h5 : Lengths (ordered clens) (257 + hlit + (1 + hdist)) [] p4 ls q) (heob : ls[256]? ≠ some 0)
      (hl : Usable (ls.take (257 + hlit))) (hd : Usable (ls.drop (257 + hlit))) :
    Trees p (ls.take (257 + hlit), ls.drop (257 + hlit)) q

def fixed_lit : List Nat :=
  List.replicate 144 8 ++ (List.replicate 112 9 ++ (List.replicate 24 7 ++ List.replicate 8 8))

def fixed_dist : List Nat := List.replicate 32 5

/-! ## What is in a block -/

/-- The bits behind the code of a length, and the lengths it covers from which on. -/
def more_length (i : Nat) : Nat := if i = 28 then 0 else (i - 4) / 4

def from_length (i : Nat) : Nat := if i = 28 then 258 else 3 + ((List.range i).map fun k => 2 ^ more_length k).sum

/-- The same for distances. -/
def more_dist (i : Nat) : Nat := i / 2 - 1

def from_dist (i : Nat) : Nat := 1 + ((List.range i).map fun k => 2 ^ more_dist k).sum

/-- `n` more bytes, each the one that is `offs` before it. -/
def copied (offs : Nat) : Nat → List UInt8 → List UInt8
  | 0, out => out
  | n + 1, out => copied offs n (out ++ [out.getD (out.length - offs) 0])

/-- Bytes that have been there before. -/
inductive Copy (lit dist : List Nat) : Point → Point → Prop
  | intro {i v j w : Nat} {p p1 p2 p3 q : Point} (hi : i < 29) (h1 : Symbol lit p (257 + i) p1)
      (h2 : Number (more_length i) p1 v p2) (hj : j < 30) (h3 : Symbol dist p2 j p3)
      (h4 : Number (more_dist j) p3 w q) (hback : from_dist j + w ≤ q.out.length) :
    Copy lit dist p ⟨q.bits, copied (from_dist j + w) (from_length i + v) q.out⟩

inductive Data (lit dist : List Nat) : Point → Point → Prop
  | stop {p q : Point} (h : Symbol lit p 256 q) : Data lit dist p q
  | byte {s : Nat} {p m q : Point} (h : Symbol lit p s m) (hs : s < 256)
      (rest : Data lit dist ⟨m.bits, m.out ++ [UInt8.ofNat s]⟩ q) :
    Data lit dist p q
  | copy {p m q : Point} (h : Copy lit dist p m) (rest : Data lit dist m q) : Data lit dist p q

/-- A number of two bytes. -/
def le16 (n : Nat) : List UInt8 := [UInt8.ofNat n, UInt8.ofNat (n / 256)]

/-- From the next byte on: how many bytes, that number inverted, and the bytes. -/
inductive Stored : Point → Point → Prop
  | intro {pad rest : List Bool} {data out : List UInt8} (hlen : data.length < 65536)
      (hpad : pad.length = (pad ++ ofBytes (le16 data.length ++ le16 (65535 - data.length) ++ data) ++
        rest).length % 8) :
    Stored ⟨pad ++ ofBytes (le16 data.length ++ le16 (65535 - data.length) ++ data) ++ rest, out⟩
      ⟨rest, out ++ data⟩

inductive Block : Point → Point → Prop
  | stored {p m q : Point} (h : Number 2 p 0 m) (hs : Stored m q) : Block p q
  | fixed {p m q : Point} (h : Number 2 p 1 m) (hd : Data fixed_lit fixed_dist m q) : Block p q
  | dynamic {lit dist : List Nat} {p m n q : Point} (h : Number 2 p 2 m) (ht : Trees m (lit, dist) n)
      (hd : Data lit dist n q) :
    Block p q

/-- Blocks up to the one that says that it is the last. -/
inductive Stream : Point → Point → Prop
  | last {p m q : Point} (h : Number 1 p 1 m) (hb : Block m q) : Stream p q
  | more {p m n q : Point} (h : Number 1 p 0 m) (hb : Block m n) (rest : Stream n q) : Stream p q

/-! ## Sizes -/

/-- What has come out stays. -/
def Grows {γ : Type} (R : Piece γ) : Prop := ∀ p c q, R p c q → p.out.length ≤ q.out.length

/-- Nothing comes out. -/
def Quiet {γ : Type} (R : Piece γ) : Prop := ∀ p c q, R p c q → p.out = q.out

theorem Quiet.andThen {γ δ : Type} {R : Piece γ} {S : γ → Piece δ} (hR : Quiet R) (hS : ∀ c, Quiet (S c)) :
    Quiet (R.andThen S) := by
  rintro p b r ⟨c, q, hc, hb⟩
  exact (hR p c q hc).trans (hS c q b r hb)

theorem Quiet.grows {γ : Type} {R : Piece γ} (h : Quiet R) : Grows R := fun p c q hc => (h p c q hc) ▸ le_refl _

theorem Number.length {n v : Nat} {p q : Point} (h : Number n p v q) : p.bits.length = n + q.bits.length := by
  rw [h.2, List.length_append, lsb_length]

theorem Number.out {n v : Nat} {p q : Point} (h : Number n p v q) : p.out = q.out := by
  rw [h.2]

theorem Symbol.length {ls : List Nat} {s : Nat} {p q : Point} (h : Symbol ls p s q) :
    q.bits.length < p.bits.length := by
  obtain ⟨w, ⟨k, -, rfl⟩, rfl⟩ := h
  rw [List.length_append, msb_length]
  omega

theorem Symbol.out {ls : List Nat} {s : Nat} {p q : Point} (h : Symbol ls p s q) : p.out = q.out := by
  obtain ⟨w, -, rfl⟩ := h
  rfl

@[simp] theorem copied_length (offs n : Nat) (out : List UInt8) : (copied offs n out).length = out.length + n := by
  induction n generalizing out with
  | zero => rfl
  | succ n ih =>
    rw [copied, ih, List.length_append, List.length_singleton]
    omega

theorem Copy.length {lit dist : List Nat} {p q : Point} (h : Copy lit dist p q) :
    q.bits.length < p.bits.length ∧ p.out.length ≤ q.out.length := by
  obtain ⟨hi, h1, h2, hj, h3, h4, hback⟩ := h
  constructor
  · have := h1.length
    have := h2.length
    have := h3.length
    have := h4.length
    simp only
    omega
  · rw [copied_length, h1.out, h2.out, h3.out, h4.out]
    exact Nat.le_add_right _ _

theorem Data.length {lit dist : List Nat} {p q : Point} (h : Data lit dist p q) :
    q.bits.length < p.bits.length ∧ p.out.length ≤ q.out.length := by
  induction h with
  | stop h => exact ⟨h.length, h.out ▸ le_refl _⟩
  | byte h hs rest ih =>
    have := h.length
    have hout := congrArg List.length h.out
    simp only [List.length_append, List.length_singleton] at ih
    omega
  | copy h rest ih =>
    have := h.length
    omega

theorem Row.length {n k : Nat} {vs : List Nat} {p q : Point} (h : Row n k p vs q) :
    p.bits.length = n * k + q.bits.length ∧ p.out = q.out ∧ vs.length = k := by
  induction h with
  | nil => simp
  | cons h rest ih =>
    obtain ⟨hbits, hout, hk⟩ := ih
    refine ⟨?_, h.out.trans hout, by simp [hk]⟩
    rw [h.length, hbits, Nat.mul_succ]
    omega

theorem Entry.length {cl ls e : List Nat} {p q : Point} (h : Entry cl ls p e q) :
    q.bits.length < p.bits.length ∧ p.out = q.out ∧ 0 < e.length := by
  cases h with
  | one h hl => exact ⟨h.length, h.out, Nat.one_pos⟩
  | again h hl hn =>
    have := h.length
    have := hn.length
    exact ⟨by omega, h.out.trans hn.out, by simp⟩
  | few h hn =>
    have := h.length
    have := hn.length
    exact ⟨by omega, h.out.trans hn.out, by simp⟩
  | many h hn =>
    have := h.length
    have := hn.length
    exact ⟨by omega, h.out.trans hn.out, by simp⟩

theorem Lengths.length {cl ls all : List Nat} {total : Nat} {p q : Point} (h : Lengths cl total ls p all q) :
    q.bits.length ≤ p.bits.length ∧ p.out = q.out ∧ all.length = total := by
  induction h with
  | done h => exact ⟨le_refl _, rfl, h⟩
  | more h hroom rest ih =>
    obtain ⟨hbits, hout, hall⟩ := ih
    obtain ⟨hlt, hout', -⟩ := h.length
    exact ⟨by omega, hout'.trans hout, hall⟩

theorem Trees.length {t : List Nat × List Nat} {p q : Point} (h : Trees p t q) :
    q.bits.length < p.bits.length ∧ p.out = q.out := by
  obtain ⟨h1, h2, h3, -, -, h4, -, -, h5, -, -, -⟩ := h
  have := h1.length
  have := h2.length
  have := h3.length
  have := h4.length.1
  have := h5.length.1
  refine ⟨by omega, ?_⟩
  rw [h1.out, h2.out, h3.out, h4.length.2.1, h5.length.2.1]

theorem Stored.length {p q : Point} (h : Stored p q) :
    q.bits.length < p.bits.length ∧ p.out.length ≤ q.out.length := by
  obtain ⟨hlen, hpad⟩ := h
  simp [le16]
  omega

theorem Block.length {p q : Point} (h : Block p q) :
    q.bits.length < p.bits.length ∧ p.out.length ≤ q.out.length := by
  cases h with
  | stored h hs =>
    have := h.length
    have := hs.length
    rw [h.out]
    omega
  | fixed h hd =>
    have := h.length
    have := hd.length
    rw [h.out]
    omega
  | dynamic h ht hd =>
    have := h.length
    have := hd.length
    have := ht.length.1
    rw [h.out, ht.length.2]
    omega

theorem Stream.length {p q : Point} (h : Stream p q) : p.out.length ≤ q.out.length := by
  induction h with
  | last h hb =>
    rw [h.out]
    exact hb.length.2
  | more h hb rest ih =>
    rw [h.out]
    exact hb.length.2.trans ih

end Coins.Tinf
