import Coins.Quotes.Sentinel

/-!
# `btsp2b`

The processor of `btsp2b.c`: order books under the name of their channel.
-/

open Coins.Numeral Coins.Questions

namespace Coins.Quotes.Btsp2b

open jsmntype_t

inductive btsp_ins_t
  | INS_UNK | INS_BTCUSD | INS_BTCEUR | INS_EURUSD
deriving DecidableEq

inductive btsp_chan_t
  | CHAN_UNK | CHAN_TRAS | CHAN_BOOK | CHAN_DIFF | CHAN_ORDS
deriving DecidableEq

open btsp_ins_t btsp_chan_t

def hx_live : hx_t := hash (ascii "live")
def hx_diff : hx_t := hash (ascii "diff")
def hx_ords : hx_t := hash (ascii "orde")
def hx_btceur : hx_t := hash (ascii "btceur")
def hx_eurusd : hx_t := hash (ascii "eurusd")
def hx_orders : hx_t := hash (ascii "orders")
def hx_trades : hx_t := hash (ascii "trades")
def hx_r_book : hx_t := hash (ascii "r_book")

/-! ## Specific values -/

def snarf_chan (val : Int) : Prog btsp_chan_t := do
  let hx := hash (← bytes val 4)
  if hx = hx_live then
    -- check if live orders or live trades
    let hx := hash (← bytes (val + 5) 6)
    if (← byte_at (val + 4)) ≠ chr '_' then pure CHAN_UNK
    else if hx = hx_orders then pure CHAN_ORDS
    else if hx = hx_trades then pure CHAN_TRAS
    else pure CHAN_UNK
  else if hx = hx_diff then
    if hash (← bytes (val + 9) 6) = hx_r_book then pure CHAN_DIFF else pure CHAN_UNK
  else if hx = hx_ords then
    if hash (← bytes (val + 4) 6) = hx_r_book then pure CHAN_BOOK else pure CHAN_UNK
  else pure CHAN_UNK

/-- The instrument whose suffix has this hash. -/
def suffix_ins (hx : hx_t) : btsp_ins_t :=
  if hx = hx_orders ∨ hx = hx_trades ∨ hx = hx_r_book then INS_BTCUSD
  else if hx = hx_btceur then INS_BTCEUR
  else if hx = hx_eurusd then INS_EURUSD
  else INS_UNK

def snarf_ins (val : Int) (len : Nat) : Prog btsp_ins_t := do
  if 6 ≤ len then
    let hx := hash (← bytes (val + len - 6) 6)
    pure (suffix_ins hx)
  else pure INS_UNK

/-! ## Lines -/

def hx_evnt : hx_t := hash (ascii "even")
def hx_data : hx_t := hash (ascii "data")
def hx_chan : hx_t := hash (ascii "chan")
def hx_bids : hx_t := hash (ascii "bids")
def hx_asks : hx_t := hash (ascii "asks")

/-- The number of places in `tok`. -/
def countof : Nat := 4096

/-- The info to fill. -/
structure Beef where
  ch : btsp_chan_t
  ins : btsp_ins_t
  ev : hx_t
  dbeg : Nat
  dend : Nat

/-- What `tok[i]` adds, with its value if it is a key, and the token that `i` is at then. -/
def pair (beef : Beef) (i : Nat) : Prog (Beef × Nat) := do
  let t ← toks i
  if t.type ≠ JSMN_STRING then pure (beef, i) else
  let hx := hash (← bytes t.ptr 4)
  if hx = hx_chan then
    let v ← toks (i + 1)
    if v.type = JSMN_STRING then
      let ch ← snarf_chan v.ptr
      let ins ← snarf_ins v.ptr v.len
      pure ({ beef with ch := ch, ins := ins }, i + 1)
    else pure (beef, i + 1)
  else if hx = hx_evnt then
    let v ← toks (i + 1)
    if v.type = JSMN_STRING then
      let ev := hash (← text v)
      pure ({ beef with ev := ev }, i + 1)
    else pure (beef, i + 1)
  else if hx = hx_data then
    let v ← toks (i + 1)
    if v.type = JSMN_OBJECT then
      -- skip pairs
      let j ← skip v.end_ (countof + 1) (i + 1)
      pure ({ beef with dbeg := i + 2, dend := v.end_ }, j)
    else pure (beef, i + 1)
  else pure (beef, i)

/-- Loop and fill beef. -/
def fill (r : Nat) : Nat → Beef → Nat → Prog Beef
  | 0, beef, _ => pure beef
  | fuel + 1, beef, i => do
    if i < r then
      let b ← pair beef i
      fill r fuel b.1 (b.2 + 1)
    else pure beef

/-- Where the lists are and where they end. -/
structure Lists where
  bid : Nat
  eob : Nat
  ask : Nat
  eoa : Nat

def lists (dend : Nat) : Nat → Lists → Nat → Prog Lists
  | 0, ls, _ => pure ls
  | fuel + 1, ls, i => do
    let t ← toks i
    if t.start < dend then
      let hx := hash (← text t)
      if hx = hx_bids then
        let eob := (← toks (i + 1)).end_
        let j ← skip eob (countof + 1) (i + 1)
        lists dend fuel { ls with bid := i + 1, eob := eob } (j + 1)
      else if hx = hx_asks then
        let eoa := (← toks (i + 1)).end_
        let j ← skip eoa (countof + 1) (i + 1)
        lists dend fuel { ls with ask := i + 1, eoa := eoa } (j + 1)
      else lists dend fuel ls (i + 1)
    else pure ls

def inss : btsp_ins_t → List Byte
  | INS_UNK => ascii "??????"
  | INS_BTCUSD => ascii "BTCUSD"
  | INS_BTCEUR => ascii "BTCEUR"
  | INS_EURUSD => ascii "EURUSD"

/-- Time, instrument, side and level. -/
def label (rt : tv_t) (ins : btsp_ins_t) (sd lvl : Byte) : List Byte :=
  tvtostr rt ++ [tab] ++ inss ins ++ [tab] ++ [sd, lvl, tab]

/-- The lists of a book that there is in the beef. -/
def book (rt : tv_t) (beef : Beef) : Prog Output := do
  let ls ← lists beef.dend (countof + 1) ⟨0, 0, 0, 0⟩ beef.dbeg
  let lvl := if beef.ch = CHAN_BOOK then chr '1' else chr '2'
  let bids ← side (label rt beef.ins (chr 'B')) (chr '2') ls.eob (countof + 1) lvl (ls.bid + 1)
  let asks ← side (label rt beef.ins (chr 'A')) (chr '2') ls.eoa (countof + 1) lvl (ls.ask + 1)
  pure ⟨0, bids ++ asks⟩

/-- With `r` tokens. -/
def process (rt : tv_t) (r : Nat) : Prog Output := do
  if (← toks 0).type ≠ JSMN_OBJECT then pure ⟨-1, []⟩ else
  -- just to have a finaliser
  let _ ← toks r
  let beef ← fill r r ⟨CHAN_UNK, INS_UNK, 0, 0, 0⟩ 1
  match beef.ch with
  | CHAN_BOOK => book rt beef
  | CHAN_DIFF => book rt beef
  | _ => pure ⟨0, []⟩

def procln (old : (c : Cell) → c.Ans) (line : List Byte) : Output :=
  match json_part countof (chr '{') line with
  | none => ⟨-1, []⟩
  | some (rt, on, ts) => (process rt ts.length).eval (finalised on ts (before old line on))

/-- The cells that `procln` reads or writes, that of the finaliser among them. -/
def accesses (old : (c : Cell) → c.Ans) (line : List Byte) : List Cell :=
  match json_part countof (chr '{') line with
  | none => []
  | some (rt, on, ts) => (process rt ts.length).asked (finalised on ts (before old line on))

end Coins.Quotes.Btsp2b
