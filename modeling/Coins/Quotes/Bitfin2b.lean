import Coins.Quotes.Stamp
import Coins.Xmemmem

/-!
# `bitfin2b`

The processor of `bitfin2b.c`: confirmations of subscriptions name the instrument and the kind of a
channel, and event lines are printed under the name of their channel.
-/

open Coins.Numeral Coins.Xmemmem

namespace Coins.Quotes.Bitfin2b

/-- A name of up to 15 bytes. The last byte is 15 less the length. -/
structure btf_ins_t where
  raw : List Byte
  size : raw.length = 16

/-- Channel ids are cut to 8 bits. -/
abbrev btf_chid_t := UInt8

inductive btf_side_t
  | SIDE_UNK | SIDE_BID | SIDE_ASK | SIDE_TRA
deriving DecidableEq

inductive btf_subt_t
  | SUBT_UNK | SUBT_BOK | SUBT_TOP | SUBT_TRA
deriving DecidableEq

open btf_side_t btf_subt_t

def btf_side_t.val : btf_side_t → Byte
  | SIDE_UNK => 0
  | SIDE_BID => 1
  | SIDE_ASK => 2
  | SIDE_TRA => 3

structure Processor where
  subins : btf_chid_t → btf_ins_t
  subtys : btf_chid_t → btf_subt_t
  metr : tv_t

def init : Processor := ⟨fun _ => ⟨List.replicate 16 0, rfl⟩, fun _ => SUBT_UNK, 0⟩

/-- What a function returns, and the records it prints. -/
structure Printed where
  ret : Int
  out : List (List Byte)
deriving DecidableEq

def failed : Printed := ⟨-1, []⟩

/-! ## Subscriptions -/

def instostr (s : btf_ins_t) : List Byte := s.raw.take (15 - (s.raw.getLastD 0).toNat)

def strtoins (s : btf_ins_t) (ins : List Byte) : btf_ins_t :=
  let z := if ins.length < 16 then ins.length else 15
  ⟨ins.take z ++ (s.raw.drop z).take (15 - z) ++ [UInt8.ofNat (15 - z)], by
    have := s.size
    simp only [List.length_append, List.length_take, List.length_drop, List.length_singleton, z]
    split <;> omega⟩

def sbok : List Byte := ascii "\"event\":\"subscribed\",\"channel\":\"book\",\"chanId\":"
def stop : List Byte := ascii "\"event\":\"subscribed\",\"channel\":\"ticker\",\"chanId\":"
def stra : List Byte := ascii "\"event\":\"subscribed\",\"channel\":\"trades\",\"chanId\":"
def pair : List Byte := ascii "\"pair\":"

/-- `x` in place of what `f` has at `i`. -/
def update {α : Type} (f : btf_chid_t → α) (i : btf_chid_t) (x : α) : btf_chid_t → α :=
  fun j => if j = i then x else f j

/-- From the channel id on. -/
def subscr_chan (p : Processor) (st : btf_subt_t) (line : List Byte) : Processor × Printed :=
  let ci : btf_chid_t := UInt8.ofNat (strtoul 10 line).val
  match xmemmem line pair with
  | none => (p, failed)
  | some i =>
    let q := line.drop (i + pair.length)
    if deref q ≠ chr '"' then (p, failed)
    else
      match upto (chr '"') q.tail with
      | none => (p, failed)
      | some (ins, _) =>
        ({ p with subins := update p.subins ci (strtoins (p.subins ci) ins),
                  subtys := update p.subtys ci st }, ⟨0, []⟩)

def subscr (p : Processor) (line : List Byte) : Processor × Printed :=
  if line.length ≤ stra.length then (p, failed)
  else if sbok <+: line then subscr_chan p SUBT_BOK (line.drop sbok.length)
  else if stop <+: line then subscr_chan p SUBT_TOP (line.drop stop.length)
  else if stra <+: line then subscr_chan p SUBT_TRA (line.drop stra.length)
  else (p, failed)

/-! ## Events -/

/-- Time and instrument, in front of every record. -/
def label (p : Processor) (ci : btf_chid_t) : List Byte :=
  tvtostr p.metr ++ [tab] ++ instostr (p.subins ci) ++ [tab]

/-- One price level, from `again` on: its record, its quantity and what is behind it. -/
def level (lab q on : List Byte) : Option (List Byte × List Byte × List Byte) :=
  match upto (chr ',') on with
  | none => none
  | some (price, on) =>
    let x := strtoul 10 on
    let on := on.drop x.stop
    if deref on ≠ chr ',' then none
    else
      let on := on.tail
      -- if positive it's a bid, if negative an ask
      let sd := if deref on = chr '-' then SIDE_ASK else SIDE_BID
      let on := if sd = SIDE_ASK then on.tail else on
      let printed := fun q : List Byte =>
        lab ++ [(SIDE_TRA.val - sd.val) ^^^ chr '@', chr '2', tab] ++ price ++ [tab] ++ q ++ [nl]
      -- the quantity stays what it was when the count is 0
      if x.val > 0 then
        match upto (chr ']') on with
        | none => none
        | some (q, on) => some (printed q, q, on)
      else some (printed q, q, on)

/-- At most as many price levels as `fuel`. -/
def levels (lab : List Byte) : Nat → List Byte → List Byte → Printed
  | 0, _, _ => failed
  | fuel + 1, q, on =>
    match level lab q on with
    | none => failed
    | some (record, q, on) =>
      if deref on = chr ',' ∧ deref on.tail = chr '[' then
        let r := levels lab fuel q on.tail.tail
        ⟨r.ret, record :: r.out⟩
      else ⟨0, [record]⟩

def evtbok (p : Processor) (line : List Byte) (ci : btf_chid_t) : Printed :=
  levels (label p ci) (line.length + 1) (ascii "0") line

def evttop (p : Processor) (line : List Byte) (ci : btf_chid_t) : Printed :=
  match upto (chr ',') line with
  | none => failed
  | some (bid, on) =>
    match upto (chr ',') on with
    | none => failed
    | some (bsz, on) =>
      match upto (chr ',') on with
      | none => failed
      | some (ask, on) =>
        match upto (chr ',') on with
        | none => failed
        | some (asz, _) =>
          ⟨0, [label p ci ++ [chr 'B', chr '1', tab] ++ bid ++ [tab] ++ bsz ++ [nl],
            label p ci ++ [chr 'A', chr '1', tab] ++ ask ++ [tab] ++ asz ++ [nl]]⟩

/-- The element in front of the last comma, which is `pr` without a comma, and what is behind it. -/
def last_comma (pr cur : List Byte) : List Byte → List Byte × List Byte
  | [] => (pr, cur)
  | b :: bs => if b = chr ',' then last_comma cur [] bs else last_comma pr (cur ++ [b]) bs

/-- `wild` is what is copied through `pr` when that was never set. -/
def evttra (p : Processor) (wild line : List Byte) (ci : btf_chid_t) : Printed :=
  if ¬ ascii "\"te\"" <+: line then failed
  else
    let (pr, on) := last_comma wild [] line
    match upto (chr ']') on with
    | none => failed
    | some (q, _) =>
      let neg := deref on = chr '-'
      ⟨0, [label p ci ++ [if neg then chr 'S' else chr 'T', chr '0', tab] ++ pr ++ [tab] ++
        (if neg then q.tail else q) ++ [nl]]⟩

def events (p : Processor) (wild line : List Byte) : Printed :=
  let x := strtoul 10 line
  let on := line.drop x.stop
  if deref on ≠ chr ',' then failed
  else
    let on := on.tail
    let ci : btf_chid_t := UInt8.ofNat x.val
    match p.subtys ci with
    | SUBT_BOK =>
      -- books may have arrays of arrays
      let on := if deref on = chr '[' then
          (if deref on.tail = chr '[' then on.tail.tail else on.tail)
        else on
      evtbok p on ci
    | SUBT_TOP => evttop p on ci
    | SUBT_TRA => evttra p wild on ci
    | SUBT_UNK => failed

def procln (p : Processor) (wild line : List Byte) : Processor × Printed :=
  let t := strtotv line
  let p := { p with metr := t.1 }
  if t.1 = NOT_A_TIME then (p, failed)
  else if deref t.2 ≠ tab then (p, failed)
  else
    let on := t.2.tail
    if deref on = chr '{' then subscr p on.tail
    else if deref on = chr '[' then (p, events p wild on.tail)
    else (p, failed)

end Coins.Quotes.Bitfin2b
