import Coins.Rest.Recv
import Coins.Snarf.Log
import Coins.Ws.Recv

/-!
# One socket of `wssnarf`

The callbacks of a socket read into its session buffer and log the lines that are complete; `prepare`
takes the socket from one state to the next. What other code does is an input: the predicates and
actions of a coin, the outcome of `ws_open` and `tinf_uncompress`, and the clock.
-/

open Coins.Memory Coins.Numeral Coins.Ws

namespace Coins.Snarf

inductive coin_st_t
  | COIN_ST_UNK | COIN_ST_CONN | COIN_ST_CONND | COIN_ST_AUTH | COIN_ST_AUTHD | COIN_ST_JOIN
  | COIN_ST_JOIND | COIN_ST_NODATA | COIN_ST_INTR | COIN_ST_FINI
deriving DecidableEq

open coin_st_t

/-- What `wssnarf_s` has for one socket. The session buffer has `mem.size` bytes, of which `n` are in
use. `ended` is set when the event loop is left. -/
structure Slot where
  ws : Option ws_s
  inflate : Bool
  st : coin_st_t
  mem : Mem Byte
  n : Nat
  ended : Bool

/-- A socket as `make_wssnarf` and `add_wssnarf` leave it. -/
def Slot.init (inflate : Bool) : Slot := ⟨none, inflate, COIN_ST_UNK, ⟨fun _ => 0, 0, []⟩, 0, false⟩

/-- What one call of a callback meets: the bytes on the socket, the clock when lines are logged and
when a restart is, the verdict of the predicate, and the inflated bytes. -/
structure Input where
  rd : List Byte
  tsp : Clock
  late : Clock
  r : Int
  inflated : Option (List Byte)

inductive Out
  | logged (l : List Byte)
  | sent (msg : List Byte)

/-! ## Callbacks -/

/-- Makes the buffer larger when there is less room than `room`. -/
def grow (room : Nat) (m : Mem Byte) (n : Nat) : Mem Byte :=
  if m.size < n + room then m.resize (if m.size * 2 ≠ 0 then m.size * 2 else 4096) else m

/-- Logs the lines and moves what is left to the front: the buffer, its fill, and the records. -/
def log_and_shift (mas : Massage) (t : Clock) (m : Mem Byte) (xn : Nat) :
    Mem Byte × Nat × List Out :=
  let (m, npr, out) := logwss mas t m INI_GBOF (xn - INI_GBOF)
  (m.move INI_GBOF (INI_GBOF + npr) (xn - npr), xn - npr, out.map Out.logged)

/-- Puts the inflated bytes over those that came: the buffer and its fill; `none` is `weird`. -/
def inflate_in_place (m : Mem Byte) (xn nrd : Nat) (inflated : Option (List Byte)) :
    Option (Mem Byte × Nat) :=
  let xn := xn - nrd
  -- fast forward over whitespace
  let skip := if m.cell xn = nl then 1 else 0
  let m := m.read xn 1
  let xn := xn + skip
  inflated.map fun l =>
    let m := if xn + l.length ≥ m.size then m.resize (xn + l.length + m.size) else m
    (m.store xn l, xn + l.length)

/-- From `log` on. -/
def log_him (mas : Massage) (inflates : Bool) (s : Slot) (m : Mem Byte) (xn nrd : Nat) (e : Input) :
    Slot × List Out :=
  let inflated := if inflates then inflate_in_place m xn nrd e.inflated else some (m, xn)
  match inflated with
  | none => ({ s with mem := m.read (xn - nrd : Nat) 1, n := INI_GBOF }, [])
  | some (m, xn) =>
    let (m, n, out) := log_and_shift mas e.tsp m xn
    ({ s with mem := m, n := n }, out)

/-- From `unroll` on: `n` stays as it was. -/
def unroll (s : Slot) (m : Mem Byte) (e : Input) : Slot × List Out :=
  ({ s with mem := m, ended := true }, [.logged (loghim e.late (ascii "restart"))])

/-- From `logunr` on. `xn` has `nrd` in it, and it is added once more. -/
def logunr (mas : Massage) (s : Slot) (m : Mem Byte) (xn nrd : Nat) (e : Input) : Slot × List Out :=
  let (m, _, out) := logwss mas e.tsp m INI_GBOF (xn + nrd - INI_GBOF)
  let r := unroll s m e
  (r.1, out.map Out.logged ++ r.2)

/-- What the predicate of a coin makes of a state: `ctx->st[idx] += (r > 0)`. -/
def upgrade : coin_st_t → Int → coin_st_t
  | COIN_ST_CONN, r => if 0 < r then COIN_ST_CONND else COIN_ST_CONN
  | COIN_ST_AUTH, r => if 0 < r then COIN_ST_AUTHD else COIN_ST_AUTH
  | COIN_ST_JOIN, r => if 0 < r then COIN_ST_JOIND else COIN_ST_JOIN
  | st, _ => st

theorem upgrade_ne_unk (st : coin_st_t) (r : Int) (h : st ≠ COIN_ST_UNK) :
    upgrade st r ≠ COIN_ST_UNK := by
  unfold upgrade
  split
  · split <;> simp
  · split <;> simp
  · split <;> simp
  · exact h

/-- `ws_cb` and `sio3_cb`: what they share. `talk` is what is sent before lines are logged. -/
def io_cb (mas : Massage) (inflates : Bool) (talk : coin_st_t → List (List Byte)) (s : Slot)
    (e : Input) : Slot × List Out :=
  match s.ws with
  | none => (s, [])
  | some ws =>
    -- check if there's still room for, say, 4000U bytes
    let m := grow 4000 s.mem s.n
    let r := ws_recv ws m s.n (m.size - s.n) e.rd
    let pongs := r.sent.map Out.sent
    let s := { s with ws := some r.ws, mem := r.mem }
    match r.ret with
    | none => ({ s with ended := true }, pongs) -- abort
    | some ret =>
      if ret < 0 then
        let q := unroll s s.mem e
        (q.1, pongs ++ q.2)
      else
        let nrd := ret.toNat
        let xn := s.n + nrd
        let s := if s.st = COIN_ST_UNK then { s with st := COIN_ST_CONN } else s
        let q :=
          match s.st with
          | COIN_ST_CONN | COIN_ST_AUTH | COIN_ST_JOIN =>
            if e.r < 0 then logunr mas s s.mem xn nrd e
            else
              let t := { s with st := upgrade s.st e.r }
              let q := log_him mas inflates t t.mem xn nrd e
              (q.1, (talk s.st).map Out.sent ++ q.2)
          | COIN_ST_CONND | COIN_ST_AUTHD | COIN_ST_JOIND =>
            let q := log_him mas inflates s s.mem xn nrd e
            (q.1, (talk s.st).map Out.sent ++ q.2)
          | _ => ({ s with n := INI_GBOF }, [])
        (q.1, pongs ++ q.2)

def ws_cb (mas : Massage) (s : Slot) (e : Input) : Slot × List Out :=
  io_cb mas s.inflate (fun _ => []) s e

/-- The messages of `sio3_cb`: a probe once connected, an upgrade once authenticated. -/
def sio3_talk : coin_st_t → List (List Byte)
  | COIN_ST_CONN | COIN_ST_CONND => [ascii "2probe"]
  | COIN_ST_AUTH | COIN_ST_AUTHD => [ascii "5"]
  | _ => []

def sio3_cb (mas : Massage) (s : Slot) (e : Input) : Slot × List Out := io_cb mas false sio3_talk s e

def rest_cb (mas : Massage) (s : Slot) (e : Input) : Slot × List Out :=
  match s.ws with
  | none => (s, [])
  | some ws =>
    -- check if there's still room for, say, 4096U bytes
    let m := grow 4096 s.mem s.n
    let r := Rest.rest_recv ws m s.n (m.size - s.n) e.rd
    if r.ret < 0 then ({ s with ws := none, st := COIN_ST_UNK, mem := r.mem, n := INI_GBOF }, [])
    else
      let (m, n, out) := log_and_shift mas e.tsp r.mem (s.n + r.ret.toNat)
      ({ s with ws := some r.ws, mem := m, n := n }, out)

/-- The callback that `open_coin` hooks up. -/
def callback (mas : Massage) (s : Slot) (e : Input) : Slot × List Out :=
  match s.ws.map ws_s.p with
  | none => (s, [])
  | some .WS_PROTO_REST => rest_cb mas s e
  | some .WS_PROTO_SIO3 => sio3_cb mas s e
  | some _ => ws_cb mas s e

/-! ## `prepare` -/

/-- What `prepare` meets: the connection that `ws_open` makes, what the actions of a coin return, and
whether the socket was idle for too long. -/
structure Turn where
  opened : Option ws_proto_t
  conn : Int
  auth : Int
  join : Int
  idle : Bool

def Slot.rest (s : Slot) : Bool := s.ws.map ws_s.p = some .WS_PROTO_REST

namespace prepare

variable (t : Turn) (s : Slot)

/-- Disconnect and unroll. -/
def disc : Slot := { s with ws := none, st := COIN_ST_FINI, ended := true }

def joind : Slot := if s.rest ∨ ¬ t.idle then s else disc s

def join : Slot :=
  if s.rest then joind t { s with st := COIN_ST_JOIND }
  else if t.join < 0 then { s with st := COIN_ST_AUTHD }
  else if t.join = 0 then s
  else joind t { s with st := COIN_ST_JOIND }

def authd : Slot := join t { s with n := INI_GBOF, st := COIN_ST_JOIN }

def auth : Slot :=
  if s.rest then authd t s
  else if t.auth < 0 then { s with st := COIN_ST_CONND }
  else if t.auth = 0 then s
  else authd t s

def connd : Slot := auth t { s with n := INI_GBOF, st := COIN_ST_AUTH }

def conn : Slot := if t.conn < 0 then disc s else if t.conn = 0 then s else connd t s

def unk : Slot :=
  match t.opened with
  | none => disc s
  | some p => conn t { s with ws := some (ws_s.init p), n := INI_GBOF, st := COIN_ST_CONN }

end prepare

open prepare in
def prepare (t : Turn) (s : Slot) : Slot :=
  match s.st with
  | COIN_ST_UNK => unk t s
  | COIN_ST_CONN => conn t s
  | COIN_ST_CONND => connd t s
  | COIN_ST_AUTH => auth t s
  | COIN_ST_AUTHD => authd t s
  | COIN_ST_JOIN => join t s
  | COIN_ST_JOIND => joind t s
  | COIN_ST_NODATA | COIN_ST_INTR => disc s
  | COIN_ST_FINI => { s with ended := true }

/-! ## Steps -/

inductive Step
  | prepare (t : Turn)
  | callback (e : Input)
  | hbeat (t : Clock) (nodata : Bool)
  | sigint (t : Clock)

/-- Nothing happens any more once the event loop is left. -/
def step (mas : Massage) (s : Slot) (x : Step) : Slot × List Out :=
  if s.ended then (s, [])
  else
    match x with
    | .prepare t => (prepare t s, [])
    | .callback e => callback mas s e
    | .hbeat t nodata =>
      ({ s with st := if nodata then COIN_ST_NODATA else s.st },
        [.logged (loghim t (ascii "HEARTBEAT"))])
    | .sigint t => ({ s with st := COIN_ST_INTR }, [.logged (loghim t (ascii "C-c"))])

/-! ## Growth -/

/-- The buffer is not there yet, or has its first size at least. -/
def Sized (m : Mem Byte) (n : Nat) : Prop :=
  (m.size = 0 ∧ n = INI_GBOF) ∨ (4096 ≤ m.size ∧ n ≤ m.size)

theorem grow_size (room : Nat) (m : Mem Byte) (n : Nat) (h : Sized m n) (hr : 4000 ≤ room)
    (hr' : room ≤ 4096) :
    n + 4000 ≤ (grow room m n).size ∧ 4096 ≤ (grow room m n).size := by
  unfold Sized INI_GBOF at h
  unfold grow
  split
  · rw [Mem.size_resize]
    split <;> omega
  · omega

theorem grow_cell (room : Nat) (m : Mem Byte) (n : Nat) : (grow room m n).cell = m.cell := by
  unfold grow
  split <;> rfl

theorem grow_log (room : Nat) (m : Mem Byte) (n : Nat) : (grow room m n).log = m.log := by
  unfold grow
  split <;> rfl

end Coins.Snarf
