import Coins.Quotes.Documents
import Coins.Quotes.Sentinel

/-!
# `trt2b`

The processor of `trt2b.c`: an order book or a change of one, by the places of its tokens.
-/

open Coins.Numeral Coins.Questions Coins.Forest

namespace Coins.Quotes.Trt2b

open jsmntype_t

def hx_evt : hx_t := hash (ascii "event")
def hx_dat : hx_t := hash (ascii "data")
def hx_obk : hx_t := hash (ascii "orderbook")
def hx_odf : hx_t := hash (ascii "orderbook_diff")
def hx_cha : hx_t := hash (ascii "channel")

/-- The number of places in `tok`. -/
def countof : Nat := 4096

/-- `GET_TOK` -/
def get_tok (t : jsmntok_t) : Prog hx_t := do
  pure (hash (← text t))

/-- The time, and the symbol, which should be last. -/
def heading (rt : tv_t) (ntok : Nat) : Prog (List Byte) := do
  let buf ← memncpy (tvtostr rt ++ [tab]) (← text (← tok_at (ntok - 1)))
  memncpy buf [tab]

/-- The record of a level, the object `tok[j]`. -/
def row (hdr : List Byte) (j : Nat) : Prog (List Byte) := do
  -- skip to "price"
  let buf ← memncpy hdr (← text (← toks (j + 2)))
  let buf ← memncpy buf [tab]
  -- skip to "amount"
  let buf ← memncpy buf (← text (← toks (j + 4)))
  memncpy buf [nl]

/-- Loop and print: the records from `tok[j]` on, and the token that `j` is at then. -/
def levels (hdr : List Byte) (n ntok : Nat) : Nat → Nat → Prog (List (List Byte) × Nat)
  | 0, j => pure ([], j)
  | fuel + 1, j => do
    if j < ntok then
      if (← toks j).start < n then
        let buf ← row hdr j
        let e ← levels hdr n ntok fuel (j + 5)
        pure (buf :: e.1, e.2)
      else pure ([], j)
    else pure ([], j)

def proc_obk (rt : tv_t) (ntok : Nat) : Prog Output := do
  if (← get_tok (← tok_at (ntok - 2))) ≠ hx_cha then pure ⟨-1, []⟩ else
  let ini ← heading rt ntok
  -- orderbook should always be complete, clear it now then
  let clr ← memncpy ini (ascii "clr0\t\t\n")
  let in2 ← memncpy ini (ascii "ask2\t")
  let asks ← levels in2 (← toks 6).end_ ntok ntok 7
  -- and go over bids now
  let in2 ← memncpy ini (ascii "bid2\t")
  let bids ← levels in2 (← toks (asks.2 + 1)).end_ ntok ntok (asks.2 + 2)
  pure ⟨0, clr :: (asks.1 ++ bids.1)⟩

def proc_odf (rt : tv_t) (ntok : Nat) : Prog Output := do
  if (← get_tok (← tok_at (ntok - 2))) ≠ hx_cha then pure ⟨-1, []⟩ else
  let buf ← heading rt ntok
  let buf ← memncpy buf (← text (← toks 6))
  let buf ← memncpy buf (ascii "2\t")
  let buf ← memncpy buf (← text (← toks 8))
  let buf ← memncpy buf [tab]
  let buf ← memncpy buf (← text (← toks 10))
  let buf ← memncpy buf [nl]
  pure ⟨0, [buf]⟩

/-- With `r` tokens. -/
def process (rt : tv_t) (r : Nat) : Prog Output := do
  -- top-level element should be an object
  if (← toks 0).type ≠ JSMN_OBJECT then pure ⟨-1, []⟩ else
  -- make sure we're dealing with market data
  if (← toks 1).type ≠ JSMN_STRING then pure ⟨-1, []⟩ else
  if (← get_tok (← toks 1)) ≠ hx_evt then pure ⟨-1, []⟩ else
  if (← get_tok (← toks 3)) ≠ hx_dat then pure ⟨-1, []⟩ else
  let e ← get_tok (← toks 2)
  if e = hx_obk then proc_obk rt r
  else if e = hx_odf then proc_odf rt r
  else pure ⟨0, []⟩

/-- `old` is what was in the token array and behind the line. -/
def procln (old : (c : Cell) → c.Ans) (line : List Byte) : Output :=
  match json_part countof (chr '{') line with
  | none => ⟨-1, []⟩
  | some (rt, on, ts) => (process rt ts.length).eval (memory on ts old)

/-- The cells that `procln` looks at or writes to. -/
def accesses (old : (c : Cell) → c.Ans) (line : List Byte) : List Cell :=
  match json_part countof (chr '{') line with
  | none => []
  | some (rt, on, ts) => (process rt ts.length).asked (memory on ts old)

end Coins.Quotes.Trt2b
