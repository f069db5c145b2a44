import Mathlib.Tactic.Ring
import Coins.Lib.Decoder

/-!
# Inflating

`tinflate.c` as it is. What it reads comes as bytes and is taken as bits, and what it writes goes behind what it has
written. An index outside of an array, a cell that nobody has written, a write behind the end of the room and an
assertion that fails are crashes, and so is a loop that never ends.
-/

open Coins.Decoder

namespace Coins.Tinf

inductive tinf_error_code
  | TINF_OK | TINF_DATA_ERROR | TINF_BUF_ERROR
deriving DecidableEq

open tinf_error_code

/-- `counts` has 16 cells and `symbols` 288. A cell that has not been written is `none`. -/
structure tinf_tree where
  counts : List Nat
  symbols : List (Option Nat)
  max_sym : Int

/-- `source` is what is left of it, `dest` what has been written, and `room` the size of the place for it. -/
structure tinf_data where
  source : List UInt8
  tag : Nat
  bitcount : Nat
  overflow : Bool
  dest : List UInt8
  room : Nat
  ltree : tinf_tree
  dtree : tinf_tree

abbrev Inflate (α : Type) := Prog tinf_data tinf_error_code α

def load (a : List (Option Nat)) (i : Nat) : Inflate Nat := must (a[i]?.getD none)

def store (a : List (Option Nat)) (i v : Nat) : Inflate (List (Option Nat)) := do
  assert (i < a.length)
  pure (a.set i (some v))

/-- `*dest++ = b` -/
def put (b : UInt8) : Inflate Unit := do
  let d ← get
  assert (d.dest.length < d.room)
  set { d with dest := d.dest ++ [b] }

def read_le16 (p : List UInt8) : Inflate Nat := do
  let p0 ← must p[0]?
  let p1 ← must p[1]?
  pure (p0.toNat ||| p1.toNat <<< 8)

/-! ## Trees -/

/-- `symbols[k + i] = v + i` for the first `n`. -/
def ascending (symbols : List (Option Nat)) (k v : Nat) : Nat → List (Option Nat)
  | 0 => symbols
  | n + 1 => (ascending symbols k v n).set (k + n) (some (v + n))

def tinf_build_fixed_trees (lt dt : tinf_tree) : tinf_tree × tinf_tree :=
  let counts := List.replicate 16 0
  let symbols := ascending lt.symbols 0 256 24
  let symbols := ascending symbols 24 0 144
  let symbols := ascending symbols (24 + 144) 280 8
  let symbols := ascending symbols (24 + 144 + 8) 144 112
  (⟨((counts.set 7 24).set 8 152).set 9 112, symbols, 285⟩, ⟨counts.set 5 32, ascending dt.symbols 0 0 32, 29⟩)

/-- Count number of codes for each non-zero length. -/
def count_lengths (lengths : List (Option Nat)) : Nat → Nat → tinf_tree → Inflate tinf_tree
  | 0, _, t => pure t
  | n + 1, i, t => do
    let len ← load lengths i
    assert (len ≤ 15)
    count_lengths lengths n (i + 1)
      (if len ≠ 0 then { t with max_sym := i, counts := t.counts.modify len (· + 1) } else t)

/-- Compute offset table for distribution sort: `available`, `num_codes` and `offs`. -/
def offset_table : List Nat → Nat → Nat → List Nat → Inflate (Nat × Nat × List Nat)
  | [], available, num_codes, offs => pure (available, num_codes, offs)
  | used :: counts, available, num_codes, offs =>
    if used > available then fail TINF_DATA_ERROR
    else offset_table counts (2 * (available - used)) (num_codes + used) (offs ++ [num_codes])

/-- Fill in symbols sorted by code. -/
def fill_symbols (lengths : List (Option Nat)) : Nat → Nat → List Nat → List (Option Nat) → Inflate (List (Option Nat))
  | 0, _, _, symbols => pure symbols
  | n + 1, i, offs, symbols => do
    let len ← load lengths i
    if len ≠ 0 then do
      let k ← must offs[len]?
      let symbols ← store symbols k i
      fill_symbols lengths n (i + 1) (offs.set len (k + 1)) symbols
    else fill_symbols lengths n (i + 1) offs symbols

def tinf_build_tree (t : tinf_tree) (lengths : List (Option Nat)) (num : Nat) : Inflate tinf_tree := do
  assert (num ≤ 288)
  let t ← count_lengths lengths num 0 { t with counts := List.replicate 16 0, max_sym := -1 }
  let (available, num_codes, offs) ← offset_table t.counts 1 0 []
  if (num_codes > 1 ∧ available > 0) ∨ (num_codes = 1 ∧ t.counts[1]? ≠ some 1) then fail TINF_DATA_ERROR
  else do
    let symbols ← fill_symbols lengths num 0 offs t.symbols
    if num_codes = 1 then do
      -- add a code 1 which results in a symbol that is too large
      let symbols ← store symbols 1 (t.max_sym + 1).toNat
      pure ⟨t.counts.set 1 2, symbols, t.max_sym⟩
    else pure { t with symbols := symbols }

/-! ## Bits -/

/-- One turn of the loop in `tinf_refill`. -/
def refill_byte (d : tinf_data) : tinf_data :=
  match d.source with
  | b :: source =>
    { d with source := source, tag := (d.tag ||| b.toNat <<< d.bitcount) % 2 ^ 32, bitcount := d.bitcount + 8 }
  | [] => { d with overflow := true, bitcount := d.bitcount + 8 }

theorem refill_byte_bitcount (d : tinf_data) : (refill_byte d).bitcount = d.bitcount + 8 := by
  unfold refill_byte
  split <;> rfl

/-- Read bytes until at least num bits available. -/
def refill (num : Nat) (d : tinf_data) : tinf_data :=
  if d.bitcount < num then refill num (refill_byte d) else d
termination_by num - d.bitcount
decreasing_by
  rw [refill_byte_bitcount]
  omega

def tinf_refill (num : Nat) : Inflate Unit := do
  assert (num ≤ 32)
  modify (refill num)
  let d ← get
  assert (d.bitcount ≤ 32)

def tinf_getbits_no_refill (num : Nat) : Inflate Nat := do
  let d ← get
  assert (num ≤ d.bitcount)
  set { d with tag := d.tag >>> num, bitcount := d.bitcount - num }
  pure (d.tag &&& ((1 <<< num) - 1))

def tinf_getbits (num : Nat) : Inflate Nat := do
  tinf_refill num
  tinf_getbits_no_refill num

def tinf_getbits_base (num base : Nat) : Inflate Nat :=
  if num = 0 then pure base
  else do
    let b ← tinf_getbits num
    pure (base + b)

/-- The loop from length `len` on; it has found `base + offs`. -/
def decode_index (t : tinf_tree) : Nat → Nat → Nat → Nat → Inflate Nat
  | 0, _, _, _ => crash
  | fuel + 1, len, base, offs => do
    let b ← tinf_getbits 1
    assert (len ≤ 15)
    let count ← must t.counts[len]?
    if 2 * offs + b < count then pure (base + (2 * offs + b))
    else decode_index t fuel (len + 1) (base + count) (2 * offs + b - count)

def tinf_decode_symbol (t : tinf_tree) : Inflate Nat := do
  let k ← decode_index t 16 1 0 0
  assert (k < 288)
  load t.symbols k

/-! ## Trees from the stream -/

/-- Special ordering of code length codes. -/
def clcidx : List Nat := [16, 17, 18, 0, 8, 7, 9, 6, 10, 5, 11, 4, 12, 3, 13, 2, 14, 1, 15]

/-- Read code lengths for code length alphabet. -/
def read_clens : Nat → Nat → List (Option Nat) → Inflate (List (Option Nat))
  | 0, _, lengths => pure lengths
  | n + 1, i, lengths => do
    let clen ← tinf_getbits 3
    let k ← must clcidx[i]?
    let lengths ← store lengths k clen
    read_clens n (i + 1) lengths

/-- What a symbol of the code length alphabet stands for: a length, and how often. -/
def run_length (lengths : List (Option Nat)) (num sym : Nat) : Inflate (Nat × Nat) :=
  if sym = 16 then
    if num = 0 then fail TINF_DATA_ERROR
    else do
      let sym ← load lengths (num - 1)
      let length ← tinf_getbits_base 2 3
      pure (sym, length)
  else if sym = 17 then do
    let length ← tinf_getbits_base 3 3
    pure (0, length)
  else if sym = 18 then do
    let length ← tinf_getbits_base 7 11
    pure (0, length)
  else pure (sym, 1)

/-- `while (length--) lengths[num++] = sym` -/
def put_lengths (sym : Nat) : Nat → Nat → List (Option Nat) → Inflate (List (Option Nat))
  | 0, _, lengths => pure lengths
  | length + 1, num, lengths => do
    let lengths ← store lengths num sym
    put_lengths sym length (num + 1) lengths

/-- Decode code lengths for the dynamic trees. -/
def read_lengths (lt : tinf_tree) (total : Nat) : Nat → Nat → List (Option Nat) → Inflate (List (Option Nat))
  | 0, _, _ => crash
  | fuel + 1, num, lengths =>
    if num < total then do
      let sym ← tinf_decode_symbol lt
      if (sym : Int) > lt.max_sym then fail TINF_DATA_ERROR
      else do
        let (sym, length) ← run_length lengths num sym
        if length > total - num then fail TINF_DATA_ERROR
        else do
          let lengths ← put_lengths sym length num lengths
          read_lengths lt total fuel (num + length) lengths
    else pure lengths

/-- Build code length tree (in literal/length tree to save space). -/
def code_tree (lt : tinf_tree) (hclen : Nat) : Inflate (tinf_tree × List (Option Nat)) := do
  let lengths := List.replicate 19 (some 0) ++ List.replicate (288 + 32 - 19) none
  let lengths ← read_clens hclen 0 lengths
  let lt ← tinf_build_tree lt lengths 19
  if lt.max_sym = -1 then fail TINF_DATA_ERROR else pure (lt, lengths)

/-- Build dynamic trees. -/
def dynamic_trees (lt dt : tinf_tree) (lengths : List (Option Nat)) (hlit hdist : Nat) :
    Inflate (tinf_tree × tinf_tree) := do
  let eob ← load lengths 256
  if eob = 0 then fail TINF_DATA_ERROR
  else do
    let lt ← tinf_build_tree lt lengths hlit
    let dt ← tinf_build_tree dt (lengths.drop hlit) hdist
    pure (lt, dt)

def tinf_decode_trees (lt dt : tinf_tree) : Inflate (tinf_tree × tinf_tree) := do
  let hlit ← tinf_getbits_base 5 257
  let hdist ← tinf_getbits_base 5 1
  let hclen ← tinf_getbits_base 4 4
  if hlit > 286 ∨ hdist > 30 then fail TINF_DATA_ERROR
  else do
    let (lt, lengths) ← code_tree lt hclen
    let lengths ← read_lengths lt (hlit + hdist) (hlit + hdist + 1) 0 lengths
    dynamic_trees lt dt lengths hlit hdist

/-! ## Blocks -/

def length_bits : List Nat :=
  [0, 0, 0, 0, 0, 0, 0, 0, 1, 1, 1, 1, 2, 2, 2, 2, 3, 3, 3, 3, 4, 4, 4, 4, 5, 5, 5, 5, 0, 127]

def length_base : List Nat :=
  [3, 4, 5, 6, 7, 8, 9, 10, 11, 13, 15, 17, 19, 23, 27, 31, 35, 43, 51, 59, 67, 83, 99, 115, 131, 163, 195, 227,
    258, 0]

def dist_bits : List Nat :=
  [0, 0, 0, 0, 1, 1, 2, 2, 3, 3, 4, 4, 5, 5, 6, 6, 7, 7, 8, 8, 9, 9, 10, 10, 11, 11, 12, 12, 13, 13]

def dist_base : List Nat :=
  [1, 2, 3, 4, 5, 7, 9, 13, 17, 25, 33, 49, 65, 97, 129, 193, 257, 385, 513, 769, 1025, 1537, 2049, 3073, 4097,
    6145, 8193, 12289, 16385, 24577]

/-- Copy match, from `offs` bytes back. -/
def copy_match (offs : Nat) : Nat → Inflate Unit
  | 0 => pure ()
  | n + 1 => do
    let d ← get
    let b ← must (if offs ≤ d.dest.length then d.dest[d.dest.length - offs]? else none)
    put b
    copy_match offs n

/-- What `tinf_inflate_block_data` does with a symbol above 256. -/
def inflate_match (lt dt : tinf_tree) (sym : Nat) : Inflate Unit :=
  if (sym : Int) > lt.max_sym ∨ sym - 257 > 28 ∨ dt.max_sym = -1 then fail TINF_DATA_ERROR
  else do
    let sym := sym - 257
    let bits ← must length_bits[sym]?
    let base ← must length_base[sym]?
    let length ← tinf_getbits_base bits base
    let dist ← tinf_decode_symbol dt
    if (dist : Int) > dt.max_sym ∨ dist > 29 then fail TINF_DATA_ERROR
    else do
      let bits ← must dist_bits[dist]?
      let base ← must dist_base[dist]?
      let offs ← tinf_getbits_base bits base
      let d ← get
      if offs > d.dest.length then fail TINF_DATA_ERROR
      else if d.room - d.dest.length < length then fail TINF_BUF_ERROR
      else copy_match offs length

def tinf_inflate_block_data (lt dt : tinf_tree) : Nat → Inflate Unit
  | 0 => crash
  | fuel + 1 => do
    let sym ← tinf_decode_symbol lt
    let d ← get
    if d.overflow then fail TINF_DATA_ERROR
    else if sym < 256 then
      if d.dest.length = d.room then fail TINF_BUF_ERROR
      else do
        put (UInt8.ofNat sym)
        tinf_inflate_block_data lt dt fuel
    else if sym = 256 then pure ()
    else do
      inflate_match lt dt sym
      tinf_inflate_block_data lt dt fuel

/-- `while (length--) *d->dest++ = *d->source++` -/
def copy_block : Nat → Inflate Unit
  | 0 => pure ()
  | n + 1 => do
    let d ← get
    let b ← must d.source.head?
    put b
    modify fun d => { d with source := d.source.tail }
    copy_block n

def tinf_inflate_uncompressed_block : Inflate Unit := do
  let d ← get
  if d.source.length < 4 then fail TINF_DATA_ERROR
  else do
    let length ← read_le16 d.source
    let invlength ← read_le16 (d.source.drop 2)
    if length ≠ (2 ^ 32 - 1 - invlength) &&& 0xFFFF then fail TINF_DATA_ERROR
    else do
      modify fun d => { d with source := d.source.drop 4 }
      let d ← get
      if d.source.length < length then fail TINF_DATA_ERROR
      else if d.room - d.dest.length < length then fail TINF_BUF_ERROR
      else do
        copy_block length
        -- make sure we start next block on a byte boundary
        modify fun d => { d with tag := 0, bitcount := 0 }

def tinf_inflate_fixed_block (fuel : Nat) : Inflate Unit := do
  modify fun d =>
    let (lt, dt) := tinf_build_fixed_trees d.ltree d.dtree
    { d with ltree := lt, dtree := dt }
  let d ← get
  tinf_inflate_block_data d.ltree d.dtree fuel

def tinf_inflate_dynamic_block (fuel : Nat) : Inflate Unit := do
  let d ← get
  let (lt, dt) ← tinf_decode_trees d.ltree d.dtree
  modify fun d => { d with ltree := lt, dtree := dt }
  let d ← get
  tinf_inflate_block_data d.ltree d.dtree fuel

/-- Decompress block. -/
def inflate_block (fuel btype : Nat) : Inflate Unit :=
  if btype = 0 then tinf_inflate_uncompressed_block
  else if btype = 1 then tinf_inflate_fixed_block fuel
  else if btype = 2 then tinf_inflate_dynamic_block fuel
  else fail TINF_DATA_ERROR

/-- `fuel` is for the blocks, and `deep` for what is in one. -/
def inflate_blocks (deep : Nat) : Nat → Inflate Unit
  | 0 => crash
  | fuel + 1 => do
    let bfinal ← tinf_getbits 1
    let btype ← tinf_getbits 2
    inflate_block deep btype
    if bfinal = 0 then inflate_blocks deep fuel else pure ()

def inflate_all (fuel : Nat) : Inflate (List UInt8) := do
  inflate_blocks fuel fuel
  let d ← get
  if d.overflow then fail TINF_DATA_ERROR else pure d.dest

/-- Nothing has been written to the trees yet. -/
def unset : tinf_tree := ⟨List.replicate 16 0, List.replicate 288 none, -1⟩

def tinf_data.init (source : List UInt8) (room : Nat) : tinf_data := ⟨source, 0, 0, false, [], room, unset, unset⟩

/-- The bytes in `dest` when it returns `TINF_OK`, or the other codes. -/
def tinf_uncompress (source : List UInt8) (room : Nat) : Outcome tinf_error_code (List UInt8) :=
  (inflate_all (8 * source.length + 1) (.init source room)).bind fun p => .ok p.1

end Coins.Tinf
