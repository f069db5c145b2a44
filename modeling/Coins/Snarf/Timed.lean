import Coins.Snarf.Control
import Mathlib.Algebra.Order.Ring.Rat

/-!
# The clock of `wssnarf`

The sockets of the event loop with the times of their last activity. `tsp` is one for all of them, and only
the functions that log read the clock, so it stands still in between. How far the clock goes until it is
read again is an input, and so is what a coin logs itself by `wssnarf_log`.
-/

open Coins.History Coins.Ws

namespace Coins.Snarf.Timed

open coin_st_t Control

/-- What happens to a socket, with what `tsp` says then. -/
inductive Fact
  | opened
  | heard
  | failed
  | nodata
  | unrolled
deriving DecidableEq

/-- `wssnarf_param_t`, as far as it matters. -/
structure Param where
  p : ws_proto_t
  max_inact : ℚ
  inflate : Bool

/-- One socket. Times are in nanoseconds. -/
structure Watch where
  sock : Sock
  inflate : Bool
  max_inact : ℚ
  last_act : Nat
  hist : List (Nat × Fact)

/-- One socket and the clock. -/
structure Now extends Watch where
  tsp : Nat

def tv_sec (t : Nat) : ℤ := (t / 10 ^ 9 : Nat)

/-- `add_wssnarf` -/
def Watch.init (prm : Param) : Watch :=
  ⟨.init prm.p, prm.inflate, if prm.max_inact ≤ 0 then 10 ^ 48 else prm.max_inact, 0, []⟩

/-- The clock is read when something is logged. -/
def Now.log (ticks : Nat) (n : Now) : Now := { n with tsp := n.tsp + ticks }

def Now.note (f : Fact) (n : Now) : Now := { n with hist := n.hist ++ [(n.tsp, f)] }

def Now.use (n : Now) : Now := { n with sock := n.sock.use }

def Now.to (st : coin_st_t) (n : Now) : Now := { n with sock := { n.sock with st := st } }

/-- Keeps a reference of the time stamp. -/
def Now.stamp (n : Now) : Now := { n with last_act := n.tsp }

/-- A function of the coin is called, and may log. -/
def Now.call (k : Coin) (r : Int) (ticks : Nat) (n : Now) : Now :=
  { n with sock := n.sock.act (.call k r) }.log ticks

/-- The seconds since the last activity, which are compared as a `double`. -/
def Now.inact (n : Now) : ℚ := (tv_sec n.tsp - tv_sec n.last_act : ℤ)

/-! ## `prepare` -/

/-- What `prepare` meets, and how far the clock goes in the functions of the coin. -/
structure Turn where
  opened : Option ws_proto_t
  conn : Int
  auth : Int
  join : Int
  ticks : Coin → Nat

/-- What the loop without a clock is told. -/
abbrev Turn.told (t : Turn) (idle : Bool) : Snarf.Turn := ⟨t.opened, t.conn, t.auth, t.join, idle⟩

namespace prepare

variable (t : Turn) (n : Now)

/-- Disconnect and unroll. -/
def disc : Now := { n with sock := (Control.prepare.disc n.sock).1 }

def joind : Now :=
  if n.sock.p = .WS_PROTO_REST then n.use
  else if n.inact < n.max_inact then n.use
  else (disc n.use).note .unrolled

def join : Now :=
  if n.sock.p = .WS_PROTO_REST then joind (n.use.to COIN_ST_JOIND)
  else
    let n := n.use.use.call .join t.join (t.ticks .join)
    if t.join < 0 then n.to COIN_ST_AUTHD
    else if t.join = 0 then n
    else joind (n.to COIN_ST_JOIND)

def authd : Now := join t (n.to COIN_ST_JOIN)

def auth : Now :=
  if n.sock.p = .WS_PROTO_REST then authd t n.use
  else
    let n := n.use.use.call .auth t.auth (t.ticks .auth)
    if t.auth < 0 then n.to COIN_ST_CONND
    else if t.auth = 0 then n
    else authd t n

def connd : Now := auth t (n.to COIN_ST_AUTH)

def conn : Now :=
  let n := n.use.call .conn t.conn (t.ticks .conn)
  if t.conn < 0 then disc n else if t.conn = 0 then n else connd t n

def unk : Now :=
  let r := open_coin (t.told false) n.sock
  let n := { n with sock := r.1 }
  if r.2 < 0 then disc n
  -- consider this channel active
  else conn t ((n.to COIN_ST_CONN).note .opened).stamp

end prepare

open Timed.prepare in
def prepare (t : Turn) (n : Now) : Now :=
  match n.sock.st with
  | COIN_ST_UNK => unk t n
  | COIN_ST_CONN => conn t n
  | COIN_ST_CONND => connd t n
  | COIN_ST_AUTH => auth t n
  | COIN_ST_AUTHD => authd t n
  | COIN_ST_JOIN => join t n
  | COIN_ST_JOIND => joind n
  | COIN_ST_NODATA => (disc n).note .unrolled
  | COIN_ST_INTR => disc n
  | COIN_ST_FINI => n

/-! ## Callbacks -/

/-- What a read gives, whether it inflates, and how far the clock goes in the predicate of the coin and
until lines are logged. -/
structure Io extends Control.Io where
  inflates : Bool
  said : Nat
  ticks : Nat

/-- What `heartbeat` returns, and how far the clock goes until `HEARTBEAT` is logged and in it. -/
structure Beat where
  r : Int
  ticks : Nat
  said : Nat

/-- The states in which lines are logged. -/
def lines : coin_st_t → Bool
  | COIN_ST_NODATA | COIN_ST_INTR | COIN_ST_FINI => false
  | _ => true

/-- From `log` on. -/
def log_him (inflate : Bool) (e : Io) (n : Now) : Now :=
  if inflate = true ∧ e.inflates = false then n else (n.log e.ticks).stamp

/-- In the state `st`: the predicate is asked, and lines are logged. -/
def switch (inflate : Bool) (e : Io) (st : coin_st_t) (n : Now) : Now :=
  match asks st with
  | some _ => if e.r < 0 then (n.log e.said).log e.ticks else log_him inflate e (n.log e.said)
  | none => if lines st then log_him inflate e n else n

/-- `ws_cb` and `sio3_cb`, with what they make of the socket as `sock`. -/
def io_cb (sock : Sock) (inflate : Bool) (e : Io) (n : Now) : Now :=
  let st := if n.sock.st = COIN_ST_UNK then COIN_ST_CONN else n.sock.st
  let n := { n with sock := sock }
  if e.nrd < 0 then n.log e.ticks
  else if 0 < e.nrd then (switch inflate e st n).note .heard
  else switch inflate e st n

def ws_cb (e : Io) (n : Now) : Now := io_cb (Control.ws_cb e.toIo n.sock).1 n.inflate e n

def sio3_cb (e : Io) (n : Now) : Now := io_cb (Control.sio3_cb e.toIo n.sock).1 false e n

def rest_cb (e : Io) (n : Now) : Now :=
  let n := { n with sock := (Control.rest_cb e.toIo n.sock).1 }
  if e.nrd < 0 then n
  else if 0 < e.nrd then (n.log e.ticks).note .heard
  else n.log e.ticks

/-- The callback that `open_coin` hooks up. -/
def callback (e : Io) (n : Now) : Now :=
  match n.sock.p with
  | .WS_PROTO_REST => rest_cb e n
  | .WS_PROTO_SIO3 => sio3_cb e n
  | _ => ws_cb e n

def hbeat_cb (b : Beat) (n : Now) : Now :=
  let n := (n.log b.ticks).use.log b.said
  if b.r < 0 then (n.to COIN_ST_NODATA).note .failed
  else if n.max_inact < n.inact then (n.to COIN_ST_NODATA).note .nodata
  else n

/-! ## Runs -/

structure Ctx (ns : Nat) where
  tsp : Nat
  watch : Fin ns → Watch

/-- `prepare` goes through the sockets one by one. The clock is also read when the log is rotated, and
when all sockets are interrupted. -/
inductive Step (ns : Nat)
  | prepare (i : Fin ns) (t : Turn)
  | io (i : Fin ns) (e : Io)
  | hbeat (i : Fin ns) (b : Beat)
  | sigint (ticks : Nat)
  | rotate (ticks : Nat)

variable {ns : Nat}

def Ctx.init (prm : Fin ns → Param) (tsp : Nat) : Ctx ns := ⟨tsp, fun i => .init (prm i)⟩

def Ctx.now (c : Ctx ns) (i : Fin ns) : Now := ⟨c.watch i, c.tsp⟩

def Ctx.set (c : Ctx ns) (i : Fin ns) (n : Now) : Ctx ns := ⟨n.tsp, Function.update c.watch i n.toWatch⟩

def Ctx.step (c : Ctx ns) : Step ns → Ctx ns
  | .prepare i t => c.set i (Timed.prepare t (c.now i))
  | .io i e => if (c.watch i).sock.watcher then c.set i (callback e (c.now i)) else c
  | .hbeat i b => c.set i (hbeat_cb b (c.now i))
  | .sigint ticks =>
    ⟨c.tsp + ticks, fun i => { c.watch i with sock := sigint_cb (c.watch i).sock }⟩
  | .rotate ticks => { c with tsp := c.tsp + ticks }

def run (c : Ctx ns) (xs : List (Step ns)) : Ctx ns := xs.foldl Ctx.step c

/-! ## Without the clock -/

namespace prepare

variable (t : Turn) (n : Now)

theorem joind_sock : ∃ idle, (joind n).sock = (Control.prepare.joind (t.told idle) n.sock).1 := by
  refine ⟨decide (¬ n.inact < n.max_inact), ?_⟩
  unfold joind Control.prepare.joind Turn.told
  by_cases hp : n.sock.p = .WS_PROTO_REST
  · rw [if_pos hp, if_pos hp]
    rfl
  · rw [if_neg hp, if_neg hp]
    by_cases hlate : n.inact < n.max_inact
    · rw [if_pos hlate, if_pos (by simpa using hlate)]
      rfl
    · rw [if_neg hlate, if_neg (by simpa using hlate)]
      rfl

theorem join_sock : ∃ idle, (join t n).sock = (Control.prepare.join (t.told idle) n.sock).1 := by
  unfold join Control.prepare.join
  by_cases hp : n.sock.p = .WS_PROTO_REST
  · simp only [if_pos hp]
    exact joind_sock t _
  · simp only [if_neg hp, Turn.told]
    by_cases hneg : t.join < 0
    · simp only [if_pos hneg]
      exact ⟨false, rfl⟩
    · simp only [if_neg hneg]
      by_cases hwait : t.join = 0
      · simp only [if_pos hwait]
        exact ⟨false, rfl⟩
      · simp only [if_neg hwait]
        exact joind_sock t _

theorem auth_sock : ∃ idle, (auth t n).sock = (Control.prepare.auth (t.told idle) n.sock).1 := by
  unfold auth Control.prepare.auth
  by_cases hp : n.sock.p = .WS_PROTO_REST
  · simp only [if_pos hp]
    exact join_sock t _
  · simp only [if_neg hp, Turn.told]
    by_cases hneg : t.auth < 0
    · simp only [if_pos hneg]
      exact ⟨false, rfl⟩
    · simp only [if_neg hneg]
      by_cases hwait : t.auth = 0
      · simp only [if_pos hwait]
        exact ⟨false, rfl⟩
      · simp only [if_neg hwait]
        exact join_sock t _

theorem conn_sock : ∃ idle, (conn t n).sock = (Control.prepare.conn (t.told idle) n.sock).1 := by
  unfold conn Control.prepare.conn
  simp only [Turn.told]
  by_cases hneg : t.conn < 0
  · simp only [if_pos hneg]
    exact ⟨false, rfl⟩
  · simp only [if_neg hneg]
    by_cases hwait : t.conn = 0
    · simp only [if_pos hwait]
      exact ⟨false, rfl⟩
    · simp only [if_neg hwait]
      exact auth_sock t _

theorem unk_sock : ∃ idle, (unk t n).sock = (Control.prepare.unk (t.told idle) n.sock).1 := by
  unfold unk Control.prepare.unk open_coin
  simp only [Turn.told]
  cases t.opened with
  | none => exact ⟨false, rfl⟩
  | some p => exact conn_sock t _

end prepare

theorem prepare_sock (t : Turn) (n : Now) :
    ∃ idle, (prepare t n).sock = (Control.prepare (t.told idle) n.sock).1 := by
  unfold prepare Control.prepare
  cases n.sock.st with
  | COIN_ST_UNK => exact prepare.unk_sock t n
  | COIN_ST_CONN => exact prepare.conn_sock t n
  | COIN_ST_CONND => exact prepare.auth_sock t _
  | COIN_ST_AUTH => exact prepare.auth_sock t n
  | COIN_ST_AUTHD => exact prepare.join_sock t _
  | COIN_ST_JOIN => exact prepare.join_sock t n
  | COIN_ST_JOIND => exact prepare.joind_sock t n
  | COIN_ST_NODATA => exact ⟨false, rfl⟩
  | COIN_ST_INTR => exact ⟨false, rfl⟩
  | COIN_ST_FINI => exact ⟨false, rfl⟩

theorem io_cb_sock (sock : Sock) (inflate : Bool) (e : Io) (n : Now) : (io_cb sock inflate e n).sock = sock := by
  have hswitch : ∀ st, (switch inflate e st { n with sock := sock }).sock = sock := by
    intro st
    unfold switch log_him
    repeat' split
    all_goals rfl
  unfold io_cb
  dsimp only
  split
  · rfl
  · split
    · exact hswitch _
    · exact hswitch _

theorem rest_cb_sock (e : Io) (n : Now) : (rest_cb e n).sock = (Control.rest_cb e.toIo n.sock).1 := by
  unfold rest_cb
  dsimp only
  split
  · rfl
  · split <;> rfl

theorem callback_sock (e : Io) (n : Now) : (callback e n).sock = (Control.callback e.toIo n.sock).1 := by
  unfold callback Control.callback
  cases n.sock.p with
  | WS_PROTO_REST => exact rest_cb_sock e n
  | WS_PROTO_SIO3 => exact io_cb_sock _ _ e n
  | _ => exact io_cb_sock _ _ e n

theorem hbeat_cb_sock (b : Beat) (n : Now) :
    ∃ late, (hbeat_cb b n).sock = Control.hbeat_cb ⟨b.r, late⟩ n.sock := by
  unfold hbeat_cb Control.hbeat_cb
  dsimp only
  split
  · refine ⟨false, ?_⟩
    rw [if_pos (Or.inl (by assumption))]
    rfl
  · split
    · refine ⟨true, ?_⟩
      rw [if_pos (Or.inr rfl)]
      rfl
    · refine ⟨false, ?_⟩
      rw [if_neg (by simp; omega)]
      rfl

/-! ## The clock goes on -/

section
variable (n : Now)

@[simp] theorem use_tsp : n.use.tsp = n.tsp := rfl
@[simp] theorem to_tsp (st : coin_st_t) : (n.to st).tsp = n.tsp := rfl
@[simp] theorem note_tsp (f : Fact) : (n.note f).tsp = n.tsp := rfl
@[simp] theorem stamp_tsp : n.stamp.tsp = n.tsp := rfl
@[simp] theorem log_tsp (ticks : Nat) : (n.log ticks).tsp = n.tsp + ticks := rfl
@[simp] theorem call_tsp (k : Coin) (r : Int) (ticks : Nat) : (n.call k r ticks).tsp = n.tsp + ticks := rfl
@[simp] theorem disc_tsp : (prepare.disc n).tsp = n.tsp := rfl

end

namespace prepare

variable (t : Turn) (n : Now)

@[simp] theorem joind_tsp : (joind n).tsp = n.tsp := by
  unfold joind
  split
  · rfl
  · split <;> rfl

theorem join_tsp : n.tsp ≤ (join t n).tsp := by
  unfold join
  dsimp only
  split
  · simp
  · split
    · simp
    · split <;> simp

theorem authd_tsp : n.tsp ≤ (authd t n).tsp := by
  have h := join_tsp t (n.to COIN_ST_JOIN)
  rwa [to_tsp] at h

theorem auth_tsp : n.tsp ≤ (auth t n).tsp := by
  unfold auth
  dsimp only
  split
  · have h := authd_tsp t n.use
    rwa [use_tsp] at h
  · split
    · simp
    · split
      · simp
      · have h := authd_tsp t (n.use.use.call .auth t.auth (t.ticks .auth))
        rw [call_tsp, use_tsp, use_tsp] at h
        omega

theorem connd_tsp : n.tsp ≤ (connd t n).tsp := by
  have h := auth_tsp t (n.to COIN_ST_AUTH)
  rwa [to_tsp] at h

theorem conn_tsp : n.tsp ≤ (conn t n).tsp := by
  unfold conn
  dsimp only
  split
  · simp
  · split
    · simp
    · have h := connd_tsp t (n.use.call .conn t.conn (t.ticks .conn))
      rw [call_tsp, use_tsp] at h
      omega

theorem unk_tsp : n.tsp ≤ (unk t n).tsp := by
  unfold unk
  dsimp only
  generalize (open_coin (t.told false) n.sock) = r
  split
  · simp
  · have h := conn_tsp t ((Now.to COIN_ST_CONN { n with sock := r.1 }).note .opened).stamp
    rwa [stamp_tsp, note_tsp, to_tsp] at h

end prepare

theorem prepare_tsp (t : Turn) (n : Now) : n.tsp ≤ (prepare t n).tsp := by
  unfold prepare
  split
  · exact prepare.unk_tsp t n
  · exact prepare.conn_tsp t n
  · exact prepare.connd_tsp t n
  · exact prepare.auth_tsp t n
  · exact prepare.authd_tsp t n
  · exact prepare.join_tsp t n
  · simp
  · simp
  · simp
  · simp

theorem log_him_tsp (inflate : Bool) (e : Io) (n : Now) : n.tsp ≤ (log_him inflate e n).tsp := by
  unfold log_him
  split <;> simp

theorem switch_tsp (inflate : Bool) (e : Io) (st : coin_st_t) (n : Now) : n.tsp ≤ (switch inflate e st n).tsp := by
  unfold switch
  split
  · split
    · simp only [log_tsp]
      omega
    · have h := log_him_tsp inflate e (n.log e.said)
      rw [log_tsp] at h
      omega
  · split
    · exact log_him_tsp inflate e n
    · exact le_refl _

theorem io_cb_tsp (sock : Sock) (inflate : Bool) (e : Io) (n : Now) : n.tsp ≤ (io_cb sock inflate e n).tsp := by
  unfold io_cb
  dsimp only
  split
  · simp
  · split
    · exact switch_tsp inflate e _ { n with sock := sock }
    · exact switch_tsp inflate e _ { n with sock := sock }

theorem rest_cb_tsp (e : Io) (n : Now) : n.tsp ≤ (rest_cb e n).tsp := by
  unfold rest_cb
  dsimp only
  split
  · exact le_refl _
  · split <;> simp

theorem callback_tsp (e : Io) (n : Now) : n.tsp ≤ (callback e n).tsp := by
  unfold callback
  cases n.sock.p with
  | WS_PROTO_REST => exact rest_cb_tsp e n
  | WS_PROTO_SIO3 => exact io_cb_tsp _ _ e n
  | _ => exact io_cb_tsp _ _ e n

theorem hbeat_cb_tsp (b : Beat) (n : Now) : n.tsp ≤ (hbeat_cb b n).tsp := by
  unfold hbeat_cb
  dsimp only
  split
  · simp only [note_tsp, to_tsp, log_tsp, use_tsp]
    omega
  · split
    · simp only [note_tsp, to_tsp, log_tsp, use_tsp]
      omega
    · simp only [log_tsp, use_tsp]
      omega

end Coins.Snarf.Timed
