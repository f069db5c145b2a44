import Coins.Quotes.Sent
import Coins.Quotes.Tokens

/-!
# `coin2b`

The processor of `coin2b.c`: every string among the tokens is looked at for one of seven beginnings, and
the token behind it is taken for the value. One record is printed if there is a quantity.
-/

open Coins.Numeral Coins.Questions

namespace Coins.Quotes.Coin2b

open jsmntype_t

inductive coin_type_t
  | TYPE_UNK | TYPE_OPEN | TYPE_DONE | TYPE_MTCH
deriving DecidableEq

inductive coin_side_t
  | SIDE_UNK | SIDE_BID | SIDE_ASK
deriving DecidableEq

open coin_type_t coin_side_t

/-! ## Values -/

def snarf_type (val : Int) : Prog coin_type_t := do
  let c ← byte_at val
  if c = chr 'o' then pure TYPE_OPEN
  else if c = chr 'd' then pure TYPE_DONE
  else if c = chr 'm' then pure TYPE_MTCH
  else pure TYPE_UNK

def snarf_side (val : Int) : Prog coin_side_t := do
  let c ← byte_at val
  if c = chr 'b' then pure SIDE_BID
  else if c = chr 's' then pure SIDE_ASK
  else pure SIDE_UNK

/-- `strptime` for the format `%FT%T`, with what it leaves. -/
def strptime (rp : List Byte) : Option (tm × List Byte) := do
  let (year, rp) ← get_number 0 9999 4 rp
  let rp ← match_char (chr '-') rp
  let (mon, rp) ← get_number 1 12 2 rp
  let rp ← match_char (chr '-') rp
  let (mday, rp) ← get_number 1 31 2 rp
  let rp ← match_char (chr 'T') rp
  let (hour, rp) ← get_number 0 23 2 rp
  let rp ← match_char (chr ':') rp
  let (min, rp) ← get_number 0 59 2 rp
  let rp ← match_char (chr ':') rp
  let (sec, rp) ← get_number 0 61 2 rp
  some (⟨year - 1900, mon - 1, mday, hour, min, sec⟩, rp)

/-- The exchange time. Without one `strtons` is given `NULL`. -/
def exchange_time (val : Int) : Prog tv_t := do
  match strptime (← str_at val) with
  | some (t, nanos) => pure (timegm t * NSECS + strtons nanos)
  | none =>
    let nanos ← Query.get Cell.null
    pure (strtons nanos)

/-! ## Fields -/

def hx_type : hx_t := hash ((ascii "type").take 4)
def hx_side : hx_t := hash ((ascii "side").take 4)
def hx_time : hx_t := hash ((ascii "time").take 4)
def hx_prod : hx_t := hash ((ascii "product_id").take 4)
def hx_pric : hx_t := hash ((ascii "price").take 4)
def hx_size : hx_t := hash ((ascii "size").take 4)
def hx_rsiz : hx_t := hash ((ascii "remaining_size").take 4)

/-- The number of places in `tok`. -/
def countof : Nat := 64

/-- The info to fill. The instrument stays where it is in the line. -/
structure Beef where
  xt : tv_t
  ins : Int × Nat
  sd : coin_side_t
  p : List Byte
  q : List Byte
  ty : coin_type_t

def Beef.zero : Beef := ⟨0, (0, 0), SIDE_UNK, List.replicate 16 0, List.replicate 16 0, TYPE_UNK⟩

/-- `memcpy` to the front of an array of 16. -/
def memcpy (field : List Byte) (t : jsmntok_t) : Prog (List Byte) := do
  let v ← text t
  room 16 v.length
  pure ((v ++ field.drop v.length).take 16)

/-- What is in an array of 16 up to the NUL, which is looked for behind the array as well. -/
def upto_nul (field : List Byte) : Prog (List Byte) :=
  match upto 0 field with
  | some (s, _) => pure s
  | none => do
    room 16 17
    pure field

/-- A value, if it is a string. -/
def value (i : Nat) (beef : Beef) (set : jsmntok_t → Prog (Option Beef)) : Prog (Option (Beef × Nat)) := do
  let v ← toks i
  if v.type = JSMN_STRING then
    let b ← set v
    pure (b.map fun b => (b, i))
  else pure (some (beef, i))

/-- What `tok[i]` adds, with its value if it is a key, and the token that `i` is at then. With an unknown
type the line is done. -/
def pair (beef : Beef) (i : Nat) : Prog (Option (Beef × Nat)) := do
  let t ← toks i
  if t.type ≠ JSMN_STRING then pure (some (beef, i)) else
  let hx := hash (← bytes t.ptr 4)
  if hx = hx_type then
    value (i + 1) beef fun v => do
      let ty ← snarf_type v.ptr
      -- short-cut here
      if ty = TYPE_UNK then pure none else pure (some { beef with ty := ty })
  else if hx = hx_side then
    value (i + 1) beef fun v => do
      let sd ← snarf_side v.ptr
      pure (some { beef with sd := sd })
  else if hx = hx_size ∨ hx = hx_rsiz then
    value (i + 1) beef fun v => do
      let q ← memcpy beef.q v
      pure (some { beef with q := q })
  else if hx = hx_time then
    value (i + 1) beef fun v => do
      let xt ← exchange_time v.ptr
      pure (some { beef with xt := xt })
  else if hx = hx_pric then
    value (i + 1) beef fun v => do
      let p ← memcpy beef.p v
      pure (some { beef with p := p })
  else if hx = hx_prod then
    value (i + 1) beef fun v => pure (some { beef with ins := (v.ptr, v.len) })
  else pure (some (beef, i))

/-- Loop and fill beef. -/
def fill (r : Nat) : Nat → Beef → Nat → Prog (Option Beef)
  | 0, beef, _ => pure (some beef)
  | fuel + 1, beef, i => do
    if i < r then
      match ← pair beef i with
      | none => pure none
      | some b => fill r fuel b.1 (b.2 + 1)
    else pure (some beef)

/-! ## Lines -/

def sides : coin_side_t → List Byte
  | SIDE_UNK => ascii "???3"
  | SIDE_BID => ascii "BID3"
  | SIDE_ASK => ascii "ASK3"

def record (rt : tv_t) (beef : Beef) : Prog (List Byte) := do
  let buf ← memncpy [] (tvtostr beef.xt ++ [tab])
  let buf ← memncpy buf (tvtostr rt ++ [tab])
  let ins ← bytes beef.ins.1 beef.ins.2
  let buf ← memncpy buf (ins ++ [tab])
  let buf ← memncpy buf (sides beef.sd ++ [tab])
  let p ← upto_nul beef.p
  let buf ← memncpy buf (p ++ [tab])
  let buf ← memncpy buf (if beef.ty ≠ TYPE_OPEN then [chr '-'] else [])
  let q ← upto_nul beef.q
  memncpy buf (q ++ [nl])

/-- With `r` tokens. -/
def process (rt : tv_t) (r : Nat) : Prog Output := do
  -- top-level element should be an object
  if (← toks 0).type ≠ JSMN_OBJECT then pure ⟨-1, []⟩ else
  match ← fill r r Beef.zero 1 with
  | none => pure ⟨0, []⟩
  | some beef =>
    -- check quantity
    if beef.q.getD 0 0 = 0 ∨ (beef.q.getD 0 0 = chr '0' ∧ beef.q.getD 1 0 = 0) then pure ⟨0, []⟩ else
    let buf ← record rt beef
    pure ⟨0, [buf]⟩

/-- `old` is what was in the token array and behind the line. -/
def procln (old : (c : Cell) → c.Ans) (line : List Byte) : Output :=
  match json_part countof (chr '{') line with
  | none => ⟨-1, []⟩
  | some (rt, on, ts) => (process rt ts.length).eval (memory on ts old)

end Coins.Quotes.Coin2b
