import Coins.Quotes.Tokens

/-!
# `hit2b`

The processor of `hit2b.c`: one scan of the tokens looks for the symbol and for the arrays of bids, asks
and trades, and prints the entries of an array as it comes by.
-/

open Coins.Numeral Coins.Questions

namespace Coins.Quotes.Hit2b

open jsmntype_t

inductive hit_side_t
  | SIDE_BID | SIDE_ASK | SIDE_TRA
deriving DecidableEq

open hit_side_t

def smstotv (ln : List Byte) : tv_t := UInt64.ofNat (strtoul 10 ln).val * MSECS * MSECS

def hx_full : hx_t := hash (ascii "MarketDataSnapshotFullRefresh")
def hx_incr : hx_t := hash (ascii "MarketDataIncrementalRefresh")
def hx_sym : hx_t := hash ((ascii "symbol").take 3)
def hx_bid : hx_t := hash (ascii "bid")
def hx_ask : hx_t := hash (ascii "ask")
def hx_tra : hx_t := hash ((ascii "trade").take 3)

def sides : hit_side_t → List Byte
  | SIDE_BID => ascii "BID2"
  | SIDE_ASK => ascii "ASK2"
  | SIDE_TRA => ascii "TRA0"

/-- The number of places in `tok`. -/
def countof : Nat := 4096

/-! ## Arrays -/

/-- The next `n` entries behind `tok[i]`: the records, and the token that `i` is at in the end. -/
def entries (hdr : List Byte) : Nat → Nat → Prog (List (List Byte) × Nat)
  | 0, i => pure ([], i)
  | n + 1, i => do
    if (← toks (i + 1)).type ≠ JSMN_OBJECT then pure ([], i + 1) else
    if (← toks (i + 2)).type ≠ JSMN_STRING then pure ([], i + 2) else
    if ← memcmp_at (← toks (i + 2)).ptr (ascii "price") then pure ([], i + 3) else
    -- get price
    let buf ← memncpy hdr (← text (← toks (i + 3)))
    let buf ← memncpy buf [tab]
    if (← toks (i + 4)).type ≠ JSMN_STRING then pure ([], i + 4) else
    if ← memcmp_at (← toks (i + 4)).ptr (ascii "size") then entries hdr n (i + 5) else
    let buf ← memncpy buf (← text (← toks (i + 5)))
    let buf ← memncpy buf [nl]
    let e ← entries hdr n (i + 5)
    pure (buf :: e.1, e.2)

/-- `arr:` -/
def arr (buf : List Byte) (sd : hit_side_t) (i : Nat) : Prog (List (List Byte) × Nat) := do
  let hdr ← memncpy buf (sides sd)
  let hdr ← memncpy hdr [tab]
  entries hdr (← toks i).size i

/-! ## The scan -/

/-- The records, what is in `buf` up to `ini`, and the token that `i` is at. -/
structure Turn where
  out : List (List Byte)
  buf : List Byte
  i : Nat

/-- The token behind a word, if it is an array. -/
def array (buf : List Byte) (sd : hit_side_t) (i : Nat) : Prog Turn := do
  if (← toks i).type = JSMN_ARRAY then
    let e ← arr buf sd i
    pure ⟨e.1, buf, e.2⟩
  else pure ⟨[], buf, i⟩

/-- The token behind `symbol`, if it is a string. -/
def symbol (rstp : Bool) (buf : List Byte) (i : Nat) : Prog Turn := do
  if (← toks i).type = JSMN_STRING then
    let buf ← memncpy buf (← text (← toks i))
    let buf ← memncpy buf [tab]
    if rstp then
      let clr ← memncpy buf (ascii "clr0\t\t\n")
      pure ⟨[clr], buf, i⟩
    else pure ⟨[], buf, i⟩
  else pure ⟨[], buf, i⟩

def turn (rstp : Bool) (buf : List Byte) (i : Nat) : Prog Turn := do
  let t ← toks i
  if t.type ≠ JSMN_STRING then pure ⟨[], buf, i⟩ else
  let hx := hash (← bytes t.ptr 3)
  if hx = hx_sym then symbol rstp buf (i + 1)
  else if hx = hx_bid then array buf SIDE_BID (i + 1)
  else if hx = hx_ask then array buf SIDE_ASK (i + 1)
  else if hx = hx_tra then array buf SIDE_TRA (i + 1)
  else pure ⟨[], buf, i⟩

/-- Loop and print. -/
def scan (rstp : Bool) (r : Nat) : Nat → List Byte → Nat → Prog (List (List Byte))
  | 0, _, _ => pure []
  | fuel + 1, buf, i => do
    if i < r then
      let t ← turn rstp buf i
      let out ← scan rstp r fuel t.buf (t.i + 1)
      pure (t.out ++ out)
    else pure []

/-! ## Lines -/

/-- Both times, in front of every record. -/
def times (xt rt : tv_t) : List Byte := tvtostr xt ++ [tab] ++ tvtostr rt ++ [tab]

/-- With `r` tokens. -/
def process (rt : tv_t) (r : Nat) : Prog Output := do
  -- top-level element should be an object
  if (← toks 0).type ≠ JSMN_OBJECT then pure ⟨-1, []⟩ else
  -- make sure we're dealing with market data
  if (← toks 1).type ≠ JSMN_STRING then pure ⟨-1, []⟩ else
  if (← toks 2).type ≠ JSMN_OBJECT then pure ⟨-1, []⟩ else
  let hx := hash (← text (← toks 1))
  if hx ≠ hx_incr ∧ hx ≠ hx_full then pure ⟨-1, []⟩ else
  -- check timestamp
  if (← tok_at (r - 2)).type ≠ JSMN_STRING then pure ⟨-1, []⟩ else
  if (← tok_at (r - 1)).type ≠ JSMN_PRIMITIVE then pure ⟨-1, []⟩ else
  if ← memcmp_at (← tok_at (r - 2)).ptr (ascii "timestamp") then pure ⟨-1, []⟩ else
  let xt := smstotv (← str_at (← tok_at (r - 1)).ptr)
  if xt = NOT_A_TIME then pure ⟨-1, []⟩ else
  let out ← scan (decide (hx ≠ hx_incr)) r r (times xt rt) 3
  pure ⟨0, out⟩

/-- `old` is what was in the token array and behind the line. -/
def procln (old : (c : Cell) → c.Ans) (line : List Byte) : Output :=
  match json_part countof (chr '{') line with
  | none => ⟨-1, []⟩
  | some (rt, on, ts) => (process rt ts.length).eval (memory on ts old)

theorem procln_line (old : (c : Cell) → c.Ans) (l : Line countof (chr '{')) :
    procln old l.text = (process l.stamp.tv l.root.pre.length).eval (memory l.on l.root.pre old) := by
  unfold procln
  rw [l.json_part]

end Coins.Quotes.Hit2b
