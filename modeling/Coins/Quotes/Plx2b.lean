import Coins.Quotes.Tokens
import Coins.Quotes.Bitfin2b

/-!
# `plx2b`

The processor of `plx2b.c`: requests name an instrument, confirmations give it a subscription id, and
the events of an id are printed under the name of its instrument.
-/

open Coins.Numeral Coins.Forest

namespace Coins.Quotes.Plx2b

open jsmntype_t

abbrev prim_t := UInt64

def NOT_A_PRIM : prim_t := 0xffffffffffffffff

/-- As the instruments of `bitfin2b.c`. -/
abbrev plx_ins_t := Bitfin2b.btf_ins_t

def strtoprim (s : List Byte) (len : Nat) : prim_t :=
  let r := strtoul 10 s
  if r.stop ≠ len then NOT_A_PRIM else UInt64.ofNat r.val

structure Processor where
  subids : Fin 128 → prim_t
  subins : Fin 128 → plx_ins_t

theorem zeros_size : (List.replicate 16 (0 : Byte)).length = 16 := rfl

def init : Processor := ⟨fun _ => 0, fun _ => ⟨List.replicate 16 0, zeros_size⟩⟩

/-- `x` in place of what `f` has at `i`. -/
def update {α : Type} (f : Fin 128 → α) (i : Fin 128) (x : α) : Fin 128 → α :=
  fun j => if j = i then x else f j

def hx_modi : hx_t := hash (ascii "orderBookModify")
def hx_dele : hx_t := hash (ascii "orderBookRemove")
def hx_mtch : hx_t := hash (ascii "newTrade")

def toktoprim (t : jsmntok_t) : Prog prim_t := do
  let s ← str_at t.ptr
  pure (strtoprim s t.len)

/-! ## Subscriptions -/

def subscr (p : Processor) (ntoks : Nat) : Prog (Processor × Int) := do
  if ntoks ≤ 4 then pure (p, -1) else
  if (← toks 2).type ≠ JSMN_PRIMITIVE then pure (p, -1) else
  if (← toks 4).type ≠ JSMN_STRING then pure (p, -1) else
  -- try and get subscription id
  let subid ← toktoprim (← toks 2)
  if h : subid.toNat < 128 then
    let ins ← toks 4
    let name ← bytes ins.ptr (if ins.len < 16 then ins.len else 15)
    let i : Fin 128 := ⟨subid.toNat, h⟩
    pure (⟨update p.subids i 0, update p.subins i (Bitfin2b.strtoins (p.subins i) name)⟩, 0)
  else pure (p, -1)

def subscd (p : Processor) (ntoks : Nat) : Prog (Processor × Int) := do
  if ntoks ≤ 3 then pure (p, -1) else
  if (← toks 2).type ≠ JSMN_PRIMITIVE then pure (p, -1) else
  if (← toks 3).type ≠ JSMN_PRIMITIVE then pure (p, -1) else
  let subix ← toktoprim (← toks 2)
  let subid ← toktoprim (← toks 3)
  if h : subix.toNat < 128 then
    let i : Fin 128 := ⟨subix.toNat, h⟩
    if deref (p.subins i).raw = 0 then pure (p, -1)
    else pure (⟨update p.subids i subid, p.subins⟩, 0)
  else pure (p, -1)

/-! ## Events -/

/-- The first that has this id. -/
def find_sub (p : Processor) (subid : prim_t) : Option (Fin 128) :=
  (List.finRange 128).find? fun i => p.subids i = subid

/-- Time and instrument, in front of every record. -/
def label (p : Processor) (metr : tv_t) (i : Fin 128) : List Byte :=
  tvtostr metr ++ [tab] ++ Bitfin2b.instostr (p.subins i) ++ [tab]

/-- A record or none, and the token at which `next` is reached. -/
abbrev Event := List (List Byte) × Nat

/-- From the amount on, which is at `toks[i]` if there is one. -/
def amount (buf : List Byte) (hx : hx_t) (eot i : Nat) : Prog Event := do
  if (← toks i).start < eot then
    if ← memcmp_at (← toks i).ptr (ascii "amount") then pure ([], i + 1) else
    let buf ← memncpy buf (← text (← toks (i + 1)))
    pure ([← memncpy buf [nl]], i + 1)
  else if hx = hx_dele then
    let buf ← memncpy buf (ascii "0")
    pure ([← memncpy buf [nl]], i)
  else pure ([], i)

/-- `toks[i]` is the value of the type of an event that modifies or removes an entry. -/
def entry (lab : List Byte) (hx : hx_t) (eot i : Nat) : Prog Event := do
  -- next up should be data
  if ← memcmp_at (← toks (i + 1)).ptr (ascii "data") then pure ([], i + 2) else
  if (← toks (i + 2)).type ≠ JSMN_OBJECT then pure ([], i + 3) else
  -- find type, amount and rate
  if ← memcmp_at (← toks (i + 3)).ptr (ascii "type") then pure ([], i + 4) else
  let buf ← memncpy lab (← bytes (← toks (i + 4)).ptr 3)
  let buf ← memncpy buf [chr '2', tab]
  if ← memcmp_at (← toks (i + 5)).ptr (ascii "rate") then pure ([], i + 6) else
  let buf ← memncpy buf (← text (← toks (i + 6)))
  let buf ← memncpy buf [tab]
  amount buf hx eot (i + 7)

/-- `toks[i]` is the value of the type of a trade. -/
def tra0 (lab : List Byte) (i : Nat) : Prog Event := do
  -- we simply expect amount/date/rate/...
  if ← memcmp_at (← toks (i + 1)).ptr (ascii "data") then pure ([], i + 2) else
  if (← toks (i + 2)).type ≠ JSMN_OBJECT then pure ([], i + 2) else
  let buf ← memncpy lab (ascii "tra0")
  let buf ← memncpy buf [tab]
  if ← memcmp_at (← toks (i + 7)).ptr (ascii "rate") then pure ([], i + 2) else
  let buf ← memncpy buf (← text (← toks (i + 8)))
  let buf ← memncpy buf [tab]
  if ← memcmp_at (← toks (i + 3)).ptr (ascii "amount") then pure ([], i + 2) else
  let buf ← memncpy buf (← text (← toks (i + 4)))
  pure ([← memncpy buf [nl]], i + 2)

/-- An event that begins with `toks[i]` and ends at `eot`. -/
def event (lab : List Byte) (eot i : Nat) : Prog Event := do
  if ← memcmp_at (← toks (i + 1)).ptr (ascii "type") then pure ([], i + 2) else
  -- otherwise hash the value
  let hx := hash (← text (← toks (i + 2)))
  if hx = hx_modi then entry lab hx eot (i + 2)
  else if hx = hx_dele then entry lab hx eot (i + 2)
  else if hx = hx_mtch then tra0 lab (i + 2)
  else pure ([], i + 2)

/-- The number of places in `tok`. -/
def countof : Nat := 65536

/-- The events from `toks[i]` on, as long as they begin in front of `n`. -/
def event_loop (lab : List Byte) (n : Nat) : Nat → Nat → Prog (List (List Byte))
  | 0, _ => pure []
  | fuel + 1, i => do
    if (← toks i).start < n then
      let eot := (← toks i).end_
      let e ← event lab eot i
      -- fast forward past EOT
      let i ← ffw eot (countof + 1) e.2
      let out ← event_loop lab n fuel i
      pure (e.1 ++ out)
    else pure []

def events (p : Processor) (metr : tv_t) (ntoks : Nat) : Prog Output := do
  if ntoks ≤ 8 then pure ⟨-1, []⟩ else
  if (← toks 2).type ≠ JSMN_PRIMITIVE then pure ⟨-1, []⟩ else
  if (← toks 5).type ≠ JSMN_ARRAY then pure ⟨-1, []⟩ else
  if (← toks 6).type ≠ JSMN_OBJECT then pure ⟨-1, []⟩ else
  let subid ← toktoprim (← toks 2)
  match find_sub p subid with
  | none => pure ⟨-1, []⟩
  | some i =>
    let n := (← toks 5).end_
    let out ← event_loop (label p metr i) n (countof + 1) 6
    pure ⟨0, out⟩

/-! ## Lines -/

/-- With the tokens of a line that begins with `[`. -/
def dispatch (p : Processor) (metr : tv_t) (r : Nat) : Prog (Processor × Output) := do
  if (← toks 0).type ≠ JSMN_ARRAY then pure (p, ⟨-1, []⟩) else
  if (← toks 1).type ≠ JSMN_PRIMITIVE then pure (p, ⟨-1, []⟩) else
  let x ← toktoprim (← toks 1)
  if x = 32 then
    let s ← subscr p r
    pure (s.1, ⟨0, []⟩)
  else if x = 33 then
    let s ← subscd p r
    pure (s.1, ⟨0, []⟩)
  else if x = 36 then
    let e ← events p metr r
    pure (p, ⟨0, e.out⟩)
  else pure (p, ⟨0, []⟩)

/-- `old` is what was in the token array and behind the line. -/
def procln (p : Processor) (old : (c : Cell) → c.Ans) (line : List Byte) : Processor × Output :=
  match json_part countof (chr '[') line with
  | none => (p, ⟨-1, []⟩)
  | some (metr, on, ts) => (dispatch p metr ts.length).eval (memory on ts old)

theorem procln_line (p : Processor) (old : (c : Cell) → c.Ans) (l : Line countof (chr '[')) :
    procln p old l.text = (dispatch p l.stamp.tv l.root.pre.length).eval (memory l.on l.root.pre old) := by
  unfold procln
  rw [l.json_part]

end Coins.Quotes.Plx2b
