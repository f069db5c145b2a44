import Coins.Lib.History
import Coins.Snarf.Slot
import Mathlib.Data.Fin.Basic
import Mathlib.Logic.Function.Basic

/-!
# The event loop of `wssnarf`

Any number of sockets without their session buffers, and what happened to each of them. In every
iteration `prepare` goes through all sockets, then the callbacks run that are pending, in any order.
What a callback receives and what the coin says are inputs.
-/

open Coins.History Coins.Ws

namespace Coins.Snarf.Control

open coin_st_t

/-- The functions of a coin that come in pairs: `conn_coin` and `connd_coin`, and so on. -/
inductive Coin
  | conn | auth | join
deriving DecidableEq

inductive Act
  | opened (id : Nat)
  | closed (id : Nat)
  | use (ws : Option Nat)
  | call (k : Coin) (r : Int)
  | asked (k : Coin) (r : Int)
  | received (nrd : Int)
deriving DecidableEq

/-- One socket. Handles are numbered; `p` is what `guess_proto` makes of the url. -/
structure Sock where
  p : ws_proto_t
  ws : Option Nat
  watcher : Bool
  st : coin_st_t
  next : Nat
  hist : List Act

def Sock.init (p : ws_proto_t) : Sock := ⟨p, none, false, COIN_ST_UNK, 0, []⟩

def Sock.act (a : Act) (s : Sock) : Sock := { s with hist := s.hist ++ [a] }

/-- The handle is passed on, or looked into. -/
def Sock.use (s : Sock) : Sock := s.act (.use s.ws)

/-! ## `prepare` -/

/-- The socket, and 1 or -1. -/
def open_coin (t : Turn) (s : Sock) : Sock × Int :=
  match t.opened with
  | none => ({ s with ws := none }, -1)
  | some _ =>
    let s := ({ s with ws := some s.next, next := s.next + 1 }.act (.opened s.next)).use
    ({ s with watcher := true, st := COIN_ST_UNK }, 1)

def fini_coin (s : Sock) : Sock :=
  let s := { s with watcher := false }
  match s.ws with
  | none => s
  | some id => { s.act (.closed id) with ws := none }

namespace prepare

variable (t : Turn) (s : Sock)

/-- Disconnect and unroll. The flag says that the loop is left. -/
def disc : Sock × Bool := ({ fini_coin s with st := COIN_ST_FINI }, true)

def joind : Sock × Bool :=
  if s.p = .WS_PROTO_REST then (s.use, false)
  else if ¬ t.idle then (s.use, false)
  else disc s.use

def join : Sock × Bool :=
  if s.p = .WS_PROTO_REST then joind t { s.use with st := COIN_ST_JOIND }
  else
    let s := s.use.use.act (.call .join t.join)
    if t.join < 0 then ({ s with st := COIN_ST_AUTHD }, false)
    else if t.join = 0 then (s, false)
    else joind t { s with st := COIN_ST_JOIND }

def authd : Sock × Bool := join t { s with st := COIN_ST_JOIN }

def auth : Sock × Bool :=
  if s.p = .WS_PROTO_REST then authd t s.use
  else
    let s := s.use.use.act (.call .auth t.auth)
    if t.auth < 0 then ({ s with st := COIN_ST_CONND }, false)
    else if t.auth = 0 then (s, false)
    else authd t s

def connd : Sock × Bool := auth t { s with st := COIN_ST_AUTH }

def conn : Sock × Bool :=
  let s := s.use.act (.call .conn t.conn)
  if t.conn < 0 then disc s else if t.conn = 0 then (s, false) else connd t s

def unk : Sock × Bool :=
  let r := open_coin t s
  if r.2 < 0 then disc r.1 else conn t { r.1 with st := COIN_ST_CONN }

end prepare

open Control.prepare in
def prepare (t : Turn) (s : Sock) : Sock × Bool :=
  match s.st with
  | COIN_ST_UNK => unk t s
  | COIN_ST_CONN => conn t s
  | COIN_ST_CONND => connd t s
  | COIN_ST_AUTH => auth t s
  | COIN_ST_AUTHD => authd t s
  | COIN_ST_JOIN => join t s
  | COIN_ST_JOIND => joind t s
  | COIN_ST_NODATA | COIN_ST_INTR => disc s
  | COIN_ST_FINI => (s, true)

/-! ## Callbacks -/

/-- What `ws_recv` or `rest_recv` returns, and the verdict of the predicate. -/
structure Io where
  nrd : Int
  r : Int

/-- What `heartbeat` returns, and whether the last lines were logged too long ago. -/
structure Beat where
  r : Int
  late : Bool

/-- The predicate that is asked in a state. -/
def asks : coin_st_t → Option Coin
  | COIN_ST_CONN => some .conn
  | COIN_ST_AUTH => some .auth
  | COIN_ST_JOIN => some .join
  | _ => none

/-- What `ws_cb` and `sio3_cb` share: `talks` says in which states something is sent. -/
def io_cb (talks : coin_st_t → Bool) (e : Io) (s : Sock) : Sock × Bool :=
  let s := s.use.act (.received e.nrd)
  if e.nrd < 0 then (s, true)
  else
    let s := if s.st = COIN_ST_UNK then { s with st := COIN_ST_CONN } else s
    let talk := fun s : Sock => if talks s.st then s.use else s
    match asks s.st with
    | some k =>
      let s := s.act (.asked k e.r)
      if e.r < 0 then (s, true) else ({ talk s with st := upgrade s.st e.r }, false)
    | none => (talk s, false)

def ws_cb : Io → Sock → Sock × Bool := io_cb fun _ => false

def sio3_cb : Io → Sock → Sock × Bool := io_cb fun st => !(sio3_talk st).isEmpty

def rest_cb (e : Io) (s : Sock) : Sock × Bool :=
  let s := s.use.act (.received e.nrd)
  if e.nrd < 0 then ({ fini_coin s with st := COIN_ST_UNK }, false) else (s, false)

/-- The callback that `open_coin` hooks up. -/
def callback (e : Io) (s : Sock) : Sock × Bool :=
  match s.p with
  | .WS_PROTO_REST => rest_cb e s
  | .WS_PROTO_SIO3 => sio3_cb e s
  | _ => ws_cb e s

def hbeat_cb (b : Beat) (s : Sock) : Sock :=
  let s := s.use
  if b.r < 0 ∨ b.late then { s with st := COIN_ST_NODATA } else s

def sigint_cb (s : Sock) : Sock := { s with st := COIN_ST_INTR }

/-! ## The loop -/

/-- `done` is set by `ev_break`. -/
structure Ctx (ns : Nat) where
  sock : Fin ns → Sock
  done : Bool

inductive Event (ns : Nat)
  | io (i : Fin ns) (e : Io)
  | hbeat (i : Fin ns) (b : Beat)
  | sigint

structure Iteration (ns : Nat) where
  turns : Fin ns → Turn
  events : List (Event ns)

variable {ns : Nat}

def Ctx.init (p : Fin ns → ws_proto_t) : Ctx ns := ⟨fun i => .init (p i), false⟩

def Ctx.set (c : Ctx ns) (i : Fin ns) (r : Sock × Bool) : Ctx ns :=
  ⟨Function.update c.sock i r.1, c.done || r.2⟩

def Ctx.prepare (turns : Fin ns → Turn) (c : Ctx ns) : Ctx ns :=
  ⟨fun i => (Control.prepare (turns i) (c.sock i)).1,
    c.done || (List.finRange ns).any fun i => (Control.prepare (turns i) (c.sock i)).2⟩

/-- A callback that is pending. A watcher that was stopped is not. -/
def Ctx.event (c : Ctx ns) : Event ns → Ctx ns
  | .io i e => if (c.sock i).watcher then c.set i (callback e (c.sock i)) else c
  | .hbeat i b => c.set i (hbeat_cb b (c.sock i), false)
  | .sigint => { c with sock := fun i => sigint_cb (c.sock i) }

/-- The loop is left when `prepare` says so, or after the callbacks of an iteration. -/
def Ctx.iterate (c : Ctx ns) (it : Iteration ns) : Ctx ns :=
  if c.done then c
  else
    let c := c.prepare it.turns
    if c.done then c else it.events.foldl Ctx.event c

def run (c : Ctx ns) (its : List (Iteration ns)) : Ctx ns := its.foldl Ctx.iterate c

/-! ## What an act changes -/

section
variable (a : Act) (s : Sock)

@[simp] theorem Sock.act_p : (s.act a).p = s.p := rfl
@[simp] theorem Sock.act_ws : (s.act a).ws = s.ws := rfl
@[simp] theorem Sock.act_watcher : (s.act a).watcher = s.watcher := rfl
@[simp] theorem Sock.act_st : (s.act a).st = s.st := rfl
@[simp] theorem Sock.act_next : (s.act a).next = s.next := rfl
@[simp] theorem Sock.act_hist : (s.act a).hist = s.hist ++ [a] := rfl
@[simp] theorem Sock.use_p : s.use.p = s.p := rfl
@[simp] theorem Sock.use_ws : s.use.ws = s.ws := rfl
@[simp] theorem Sock.use_watcher : s.use.watcher = s.watcher := rfl
@[simp] theorem Sock.use_st : s.use.st = s.st := rfl
@[simp] theorem Sock.use_next : s.use.next = s.next := rfl
@[simp] theorem Sock.use_hist : s.use.hist = s.hist ++ [.use s.ws] := rfl

end

/-! ## The protocol stays -/

@[simp] theorem fini_coin_p (s : Sock) : (fini_coin s).p = s.p := by
  unfold fini_coin
  cases s.ws <;> rfl

@[simp] theorem fini_coin_ws (s : Sock) : (fini_coin s).ws = none := by
  unfold fini_coin
  cases s.ws <;> rfl

@[simp] theorem fini_coin_watcher (s : Sock) : (fini_coin s).watcher = false := by
  unfold fini_coin
  cases s.ws <;> rfl

namespace prepare

variable (t : Turn) (s : Sock)

theorem joind_p : (joind t s).1.p = s.p := by
  unfold joind disc
  split
  · rfl
  · split
    · rfl
    · simp

theorem join_p : (join t s).1.p = s.p := by
  unfold join
  split
  · exact joind_p t _
  · simp only
    split
    · rfl
    · split
      · rfl
      · exact joind_p t _

theorem auth_p : (auth t s).1.p = s.p := by
  unfold auth
  split
  · exact join_p t _
  · simp only
    split
    · rfl
    · split
      · rfl
      · exact join_p t _

theorem conn_p : (conn t s).1.p = s.p := by
  unfold conn disc
  simp only
  split
  · simp
  · split
    · rfl
    · exact auth_p t _

end prepare

theorem open_coin_p (t : Turn) (s : Sock) : (open_coin t s).1.p = s.p := by
  unfold open_coin
  cases t.opened <;> rfl

open Control.prepare in
theorem prepare_p (t : Turn) (s : Sock) : (prepare t s).1.p = s.p := by
  unfold prepare
  split
  · unfold unk disc
    simp only
    split
    · rw [fini_coin_p, open_coin_p]
    · rw [conn_p]
      exact open_coin_p t s
  · exact conn_p t s
  · exact auth_p t _
  · exact auth_p t s
  · exact join_p t _
  · exact join_p t s
  · exact joind_p t s
  · exact fini_coin_p s
  · exact fini_coin_p s
  · rfl

theorem io_cb_p (talks : coin_st_t → Bool) (e : Io) (s : Sock) : (io_cb talks e s).1.p = s.p := by
  unfold io_cb
  simp only
  split
  · rfl
  · generalize hu : (if (s.use.act (.received e.nrd)).st = COIN_ST_UNK then
      { s.use.act (.received e.nrd) with st := COIN_ST_CONN } else s.use.act (.received e.nrd)) = u
    have hp : u.p = s.p := by
      rw [← hu]
      split <;> rfl
    rw [← hp]
    split
    · split
      · rfl
      · simp only
        split <;> rfl
    · simp only
      split <;> rfl

theorem callback_p (e : Io) (s : Sock) : (callback e s).1.p = s.p := by
  unfold callback
  split
  · unfold rest_cb
    simp only
    split
    · simp
    · rfl
  · exact io_cb_p _ e s
  · exact io_cb_p _ e s

theorem hbeat_cb_p (b : Beat) (s : Sock) : (hbeat_cb b s).p = s.p := by
  unfold hbeat_cb
  simp only
  split <;> rfl

/-! ## One socket of many -/

section
variable {ns : Nat} (c : Ctx ns) (i j : Fin ns)

theorem Ctx.set_sock (r : Sock × Bool) :
    (c.set j r).sock i = if i = j then r.1 else c.sock i := by
  unfold Ctx.set
  exact Function.update_apply c.sock j r.1 i

theorem event_io_sock (e : Io) : (c.event (.io j e)).sock i =
    if i = j ∧ (c.sock i).watcher = true then (callback e (c.sock i)).1 else c.sock i := by
  unfold Ctx.event
  by_cases hij : i = j
  · subst hij
    by_cases hw : (c.sock i).watcher = true
    · simp [hw, Ctx.set_sock]
    · simp [hw]
  · simp only [hij, false_and, if_false]
    split
    · rw [Ctx.set_sock, if_neg hij]
    · rfl

theorem event_hbeat_sock (b : Beat) : (c.event (.hbeat j b)).sock i =
    if i = j then hbeat_cb b (c.sock i) else c.sock i := by
  unfold Ctx.event
  rw [Ctx.set_sock]
  by_cases hij : i = j
  · rw [if_pos hij, if_pos hij, hij]
  · rw [if_neg hij, if_neg hij]

theorem prepare_sock (turns : Fin ns → Turn) :
    (c.prepare turns).sock i = (Control.prepare (turns i) (c.sock i)).1 := rfl

theorem prepare_go (turns : Fin ns → Turn) (h : (c.prepare turns).done = false) :
    c.done = false ∧ (Control.prepare (turns i) (c.sock i)).2 = false := by
  unfold Ctx.prepare at h
  simp only [Bool.or_eq_false_iff, List.any_eq_false] at h
  exact ⟨h.1, by simpa using h.2 i (List.mem_finRange i)⟩

end

/-! ## What a callback changes -/

/-- What `ws_cb` and `sio3_cb` leave alone, in the states that `prepare` leaves behind. -/
structure Heard (e : Io) (s s' : Sock) : Prop where
  p : s'.p = s.p
  ws : s'.ws = s.ws
  watcher : s'.watcher = s.watcher
  next : s'.next = s.next
  st : s'.st = s.st ∨ s'.st = upgrade s.st e.r
  hist : ∃ more, s'.hist = s.hist ++ [.use s.ws] ++ [.received e.nrd] ++ more ∧
    ∀ a ∈ more, a = .use s.ws ∨ ∃ k, a = .asked k e.r

theorem io_cb_heard (talks : coin_st_t → Bool) (e : Io) (s : Sock) (hst : s.st ≠ COIN_ST_UNK) :
    Heard e s (io_cb talks e s).1 := by
  have hgot : Heard e s (s.use.act (.received e.nrd)) :=
    ⟨rfl, rfl, rfl, rfl, Or.inl rfl, [], by simp, by simp⟩
  unfold io_cb
  simp only
  split
  · exact hgot
  · rw [if_neg (by simpa using hst)]
    cases asks (s.use.act (.received e.nrd)).st with
    | none =>
      simp only
      split
      · exact ⟨rfl, rfl, rfl, rfl, Or.inl rfl, [.use s.ws], by simp, by simp⟩
      · exact hgot
    | some k =>
      simp only
      split
      · exact ⟨rfl, rfl, rfl, rfl, Or.inl rfl, [.asked k e.r], by simp, by simp⟩
      · split
        · exact ⟨rfl, rfl, rfl, rfl, Or.inr rfl, [.asked k e.r, .use s.ws], by simp, by simp⟩
        · exact ⟨rfl, rfl, rfl, rfl, Or.inr rfl, [.asked k e.r], by simp, by simp⟩

theorem callback_heard (e : Io) (s : Sock) (hp : s.p ≠ .WS_PROTO_REST) (hst : s.st ≠ COIN_ST_UNK) :
    Heard e s (callback e s).1 := by
  unfold callback
  split
  · exact absurd (by assumption) hp
  · exact io_cb_heard _ e s hst
  · exact io_cb_heard _ e s hst

/-! ## What `prepare` leaves behind -/

/-- The states of a connection. -/
def alive : coin_st_t → Bool
  | COIN_ST_UNK | COIN_ST_NODATA | COIN_ST_INTR | COIN_ST_FINI => false
  | _ => true

/-- There is a handle in these states, and its watcher is on. -/
def Live (s : Sock) : Prop := alive s.st = true → s.ws.isSome = true ∧ s.watcher = true

/-- A socket as `prepare` leaves it while the loop goes on. -/
structure Up (s : Sock) : Prop where
  ws : s.ws.isSome = true
  watcher : s.watcher = true
  st : s.st ≠ COIN_ST_UNK

namespace prepare

variable (t : Turn) (s : Sock)

theorem joind_up (h : Up s) (hgo : (joind t s).2 = false) : Up (joind t s).1 := by
  unfold joind at hgo ⊢
  split
  · exact ⟨h.ws, h.watcher, h.st⟩
  · rename_i hp
    rw [if_neg hp] at hgo
    split
    · exact ⟨h.ws, h.watcher, h.st⟩
    · rename_i hidle
      rw [if_neg hidle] at hgo
      cases hgo

theorem join_up (h : Up s) (hgo : (join t s).2 = false) : Up (join t s).1 := by
  unfold join at hgo ⊢
  split
  · rename_i hp
    rw [if_pos hp] at hgo
    exact joind_up t _ ⟨h.ws, h.watcher, by simp⟩ hgo
  · rename_i hp
    rw [if_neg hp] at hgo
    simp only at hgo ⊢
    split
    · exact ⟨h.ws, h.watcher, by simp⟩
    · rename_i hneg
      rw [if_neg hneg] at hgo
      split
      · exact ⟨h.ws, h.watcher, h.st⟩
      · rename_i hz
        rw [if_neg hz] at hgo
        exact joind_up t _ ⟨h.ws, h.watcher, by simp⟩ hgo

theorem authd_up (h : Up s) (hgo : (authd t s).2 = false) : Up (authd t s).1 :=
  join_up t _ ⟨h.ws, h.watcher, by simp⟩ hgo

theorem auth_up (h : Up s) (hgo : (auth t s).2 = false) : Up (auth t s).1 := by
  unfold auth at hgo ⊢
  split
  · rename_i hp
    rw [if_pos hp] at hgo
    exact authd_up t _ ⟨h.ws, h.watcher, h.st⟩ hgo
  · rename_i hp
    rw [if_neg hp] at hgo
    simp only at hgo ⊢
    split
    · exact ⟨h.ws, h.watcher, by simp⟩
    · rename_i hneg
      rw [if_neg hneg] at hgo
      split
      · exact ⟨h.ws, h.watcher, h.st⟩
      · rename_i hz
        rw [if_neg hz] at hgo
        exact authd_up t _ ⟨h.ws, h.watcher, h.st⟩ hgo

theorem connd_up (h : Up s) (hgo : (connd t s).2 = false) : Up (connd t s).1 :=
  auth_up t _ ⟨h.ws, h.watcher, by simp⟩ hgo

theorem conn_up (h : Up s) (hgo : (conn t s).2 = false) : Up (conn t s).1 := by
  unfold conn at hgo ⊢
  simp only at hgo ⊢
  split
  · rename_i hneg
    rw [if_pos hneg] at hgo
    cases hgo
  · rename_i hneg
    rw [if_neg hneg] at hgo
    split
    · exact ⟨h.ws, h.watcher, h.st⟩
    · rename_i hz
      rw [if_neg hz] at hgo
      exact connd_up t _ ⟨h.ws, h.watcher, h.st⟩ hgo

theorem unk_up (hgo : (unk t s).2 = false) : Up (unk t s).1 := by
  unfold unk open_coin at hgo ⊢
  cases ho : t.opened with
  | none =>
    rw [ho] at hgo
    cases hgo
  | some _ =>
    rw [ho] at hgo
    exact conn_up t _ ⟨rfl, rfl, by simp⟩ hgo

end prepare

open Control.prepare in
theorem prepare_up (t : Turn) (s : Sock) (h : Live s) (hgo : (prepare t s).2 = false) :
    Up (prepare t s).1 := by
  have hup : ∀ st, s.st = st → alive st = true → Up s := by
    rintro st hst halive
    obtain ⟨hws, hwatcher⟩ := h (by rwa [hst])
    refine ⟨hws, hwatcher, fun hunk => ?_⟩
    rw [← hst, hunk] at halive
    cases halive
  unfold prepare at hgo ⊢
  split
  all_goals
    rename_i hst
    simp only [hst] at hgo
  · exact unk_up t s hgo
  · exact conn_up t s (hup _ hst rfl) hgo
  · exact connd_up t s (hup _ hst rfl) hgo
  · exact auth_up t s (hup _ hst rfl) hgo
  · exact authd_up t s (hup _ hst rfl) hgo
  · exact join_up t s (hup _ hst rfl) hgo
  · exact joind_up t s (hup _ hst rfl) hgo
  · cases hgo
  · cases hgo
  · cases hgo

end Coins.Snarf.Control
