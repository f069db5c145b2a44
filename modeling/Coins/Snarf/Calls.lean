import Coins.Snarf.Control

/-!
# The calls to a coin

Authentication comes after the connection, and joining after authentication, on every connection
anew. A coin that has to wait is called again all the same, unless it got a response by then.
-/

open Coins.History Coins.Ws

namespace Coins.Snarf.Control

open coin_st_t

/-! ## All sockets at all times -/

section
variable {ns : Nat} (P : Sock → Prop)

theorem event_sock (hcb : ∀ e s, P s → P (callback e s).1) (hbeat : ∀ b s, P s → P (hbeat_cb b s))
    (hint : ∀ s, P s → P (sigint_cb s)) (i : Fin ns) (c : Ctx ns) (ev : Event ns) (h : P (c.sock i)) :
    P ((c.event ev).sock i) := by
  cases ev with
  | io j e =>
    rw [event_io_sock]
    split
    · exact hcb e _ h
    · exact h
  | hbeat j b =>
    rw [event_hbeat_sock]
    split
    · exact hbeat b _ h
    · exact h
  | sigint => exact hint _ h

theorem iterate_sock (hprep : ∀ t s, P s → P (prepare t s).1)
    (hev : ∀ (i : Fin ns) (c : Ctx ns) ev, P (c.sock i) → P ((c.event ev).sock i)) (i : Fin ns)
    (c : Ctx ns) (it : Iteration ns) (h : P (c.sock i)) : P ((c.iterate it).sock i) := by
  unfold Ctx.iterate
  split
  · exact h
  · have hp : P ((c.prepare it.turns).sock i) := hprep (it.turns i) _ h
    simp only
    split
    · exact hp
    · exact List.foldlRecOn (motive := fun c : Ctx ns => P (c.sock i)) it.events _ hp
        fun c h ev _ => hev i c ev h

end

/-! ## The order of calls -/

def isOpened (a : Act) : Prop := ∃ id, a = .opened id

instance : DecidablePred isOpened := fun a =>
  match a with
  | .opened id => .isTrue ⟨id, rfl⟩
  | .closed _ | .use _ | .call _ _ | .asked _ _ | .received _ =>
    .isFalse fun ⟨_, h⟩ => by cases h

/-- `k` succeeded, or its response did, on the connection that is open now. -/
def Succeeded (k : Coin) (h : List Act) : Prop :=
  ∃ r, 0 < r ∧ (.call k r ∈ since isOpened h ∨ .asked k r ∈ since isOpened h)

/-- Authentication waits for the connection, and joining for authentication. -/
def InTurn (pre : List Act) : Act → Prop
  | .call .auth _ => Succeeded .conn pre
  | .call .join _ => Succeeded .auth pre
  | _ => True

/-- The states in which a connection is known to be there, and in which it is authenticated. -/
def connected : coin_st_t → Bool
  | COIN_ST_CONND | COIN_ST_AUTH | COIN_ST_AUTHD | COIN_ST_JOIN | COIN_ST_JOIND => true
  | _ => false

def authenticated : coin_st_t → Bool
  | COIN_ST_AUTHD | COIN_ST_JOIN | COIN_ST_JOIND => true
  | _ => false

structure Ordered (s : Sock) : Prop where
  calls : Always InTurn s.hist
  conn : connected s.st = true → Succeeded .conn s.hist
  auth : authenticated s.st = true → Succeeded .auth s.hist

theorem Succeeded.concat {k : Coin} {h : List Act} (hk : Succeeded k h) (a : Act)
    (ha : ¬ isOpened a) : Succeeded k (h ++ [a]) := by
  obtain ⟨r, hr, hin⟩ := hk
  refine ⟨r, hr, ?_⟩
  rw [since_concat, if_neg ha]
  exact hin.imp (List.mem_append_left _) (List.mem_append_left _)

theorem succeeded_call (k : Coin) (h : List Act) (r : Int) (hr : 0 < r) :
    Succeeded k (h ++ [.call k r]) := by
  refine ⟨r, hr, Or.inl ?_⟩
  rw [since_concat, if_neg (by rintro ⟨_, h⟩; cases h)]
  exact List.mem_append_right _ List.mem_cons_self

theorem succeeded_asked (k : Coin) (h : List Act) (r : Int) (hr : 0 < r) :
    Succeeded k (h ++ [.asked k r]) := by
  refine ⟨r, hr, Or.inr ?_⟩
  rw [since_concat, if_neg (by rintro ⟨_, h⟩; cases h)]
  exact List.mem_append_right _ List.mem_cons_self

theorem Ordered.act {s : Sock} (h : Ordered s) (a : Act) (ha : ¬ isOpened a)
    (hturn : InTurn s.hist a) : Ordered (s.act a) :=
  ⟨(always_concat _ _ _).mpr ⟨h.calls, hturn⟩, fun hst => (h.conn hst).concat a ha,
    fun hst => (h.auth hst).concat a ha⟩

theorem Ordered.use {s : Sock} (h : Ordered s) : Ordered s.use :=
  h.act _ (by rintro ⟨_, h⟩; cases h) trivial

theorem Ordered.to {s : Sock} (h : Ordered s) (st : coin_st_t)
    (hconn : connected st = true → Succeeded .conn s.hist)
    (hauth : authenticated st = true → Succeeded .auth s.hist) : Ordered { s with st := st } :=
  ⟨h.calls, hconn, hauth⟩

theorem Ordered.fini {s : Sock} (h : Ordered s) : Ordered (fini_coin s) := by
  unfold fini_coin
  cases s.ws with
  | none => exact ⟨h.calls, h.conn, h.auth⟩
  | some id =>
    have := h.act (.closed id) (by rintro ⟨_, h⟩; cases h) trivial
    exact ⟨this.calls, this.conn, this.auth⟩

/-! ## `prepare` keeps the order -/

namespace prepare

variable (t : Turn) (s : Sock)

theorem disc_ordered (h : Ordered s) : Ordered (disc s).1 :=
  h.fini.to COIN_ST_FINI (fun h => by cases h) (fun h => by cases h)

theorem joind_ordered (h : Ordered s) : Ordered (joind t s).1 := by
  unfold joind
  split
  · exact h.use
  · split
    · exact h.use
    · exact disc_ordered _ h.use

theorem join_ordered (hp : s.p ≠ .WS_PROTO_REST) (h : Ordered s) (hst : s.st = COIN_ST_JOIN) :
    Ordered (join t s).1 := by
  have hauth : Succeeded .auth s.use.use.hist := h.use.use.auth (by simp [hst, authenticated])
  have hcall : Ordered (s.use.use.act (.call .join t.join)) :=
    h.use.use.act _ (by rintro ⟨_, h⟩; cases h) hauth
  have hto : ∀ st, Ordered { s.use.use.act (.call .join t.join) with st := st } := fun st =>
    hcall.to st (fun _ => hcall.conn (by simp [hst, connected]))
      fun _ => hcall.auth (by simp [hst, authenticated])
  unfold join
  rw [if_neg hp]
  simp only
  split
  · exact hto _
  · split
    · exact hcall
    · exact joind_ordered t _ (hto _)

theorem authd_ordered (hp : s.p ≠ .WS_PROTO_REST) (h : Ordered s) (hconn : Succeeded .conn s.hist)
    (hauth : Succeeded .auth s.hist) : Ordered (authd t s).1 :=
  join_ordered t _ hp (h.to _ (fun _ => hconn) fun _ => hauth) rfl

theorem auth_ordered (hp : s.p ≠ .WS_PROTO_REST) (h : Ordered s) (hst : s.st = COIN_ST_AUTH) :
    Ordered (auth t s).1 := by
  have hconn : Succeeded .conn s.use.use.hist := h.use.use.conn (by simp [hst, connected])
  have hcall : Ordered (s.use.use.act (.call .auth t.auth)) :=
    h.use.use.act _ (by rintro ⟨_, h⟩; cases h) hconn
  have hstill := hcall.conn (by simp [hst, connected])
  unfold auth
  rw [if_neg hp]
  simp only
  split
  · exact hcall.to _ (fun _ => hstill) fun h => by cases h
  · split
    · exact hcall
    · refine authd_ordered t _ hp hcall hstill (succeeded_call .auth _ t.auth ?_)
      omega

theorem connd_ordered (hp : s.p ≠ .WS_PROTO_REST) (h : Ordered s) (hconn : Succeeded .conn s.hist) :
    Ordered (connd t s).1 :=
  auth_ordered t _ hp (h.to _ (fun _ => hconn) fun h => by cases h) rfl

theorem conn_ordered (hp : s.p ≠ .WS_PROTO_REST) (h : Ordered s) : Ordered (conn t s).1 := by
  have hcall : Ordered (s.use.act (.call .conn t.conn)) :=
    h.use.act _ (by rintro ⟨_, h⟩; cases h) trivial
  unfold conn
  simp only
  split
  · exact disc_ordered _ hcall
  · split
    · exact hcall
    · refine connd_ordered t _ hp hcall (succeeded_call .conn _ t.conn ?_)
      omega

theorem unk_ordered (hp : s.p ≠ .WS_PROTO_REST) (h : Ordered s) : Ordered (unk t s).1 := by
  unfold unk open_coin
  cases t.opened with
  | none => exact disc_ordered _ ⟨h.calls, h.conn, h.auth⟩
  | some _ =>
    refine conn_ordered t _ hp ⟨?_, (fun h => by cases h), (fun h => by cases h)⟩
    simp only [Sock.use_hist, Sock.act_hist]
    rw [always_concat, always_concat]
    exact ⟨⟨h.calls, trivial⟩, trivial⟩

end prepare

open Control.prepare in
theorem prepare_ordered (t : Turn) (s : Sock) (hp : s.p ≠ .WS_PROTO_REST) (h : Ordered s) :
    Ordered (prepare t s).1 := by
  unfold prepare
  split
  · exact unk_ordered t s hp h
  · exact conn_ordered t s hp h
  · rename_i hst
    exact connd_ordered t s hp h (h.conn (by rw [hst]; rfl))
  · rename_i hst
    exact auth_ordered t s hp h hst
  · rename_i hst
    exact authd_ordered t s hp h (h.conn (by rw [hst]; rfl)) (h.auth (by rw [hst]; rfl))
  · rename_i hst
    exact join_ordered t s hp h hst
  · exact joind_ordered t s h
  · exact disc_ordered s h
  · exact disc_ordered s h
  · exact h

/-! ## Callbacks keep the order -/

theorem upgrade_ordered (u v : Sock) (k : Coin) (r : Int) (hk : asks u.st = some k) (hv : Ordered v)
    (hst : v.st = u.st) (hr : 0 < r → Succeeded k v.hist) :
    Ordered { v with st := upgrade u.st r } := by
  unfold asks at hk
  unfold upgrade
  split at hk
  · rename_i hu
    obtain rfl := Option.some.inj hk
    rw [hu]
    simp only
    split
    · exact hv.to _ (fun _ => hr (by assumption)) fun h => by cases h
    · exact hv.to _ (fun h => by cases h) fun h => by cases h
  · rename_i hu
    obtain rfl := Option.some.inj hk
    have hconn := hv.conn (by rw [hst, hu]; rfl)
    rw [hu]
    simp only
    split
    · exact hv.to _ (fun _ => hconn) fun _ => hr (by assumption)
    · exact hv.to _ (fun _ => hconn) fun h => by cases h
  · rename_i hu
    have hconn := hv.conn (by rw [hst, hu]; rfl)
    have hauth := hv.auth (by rw [hst, hu]; rfl)
    rw [hu]
    simp only
    split
    · exact hv.to _ (fun _ => hconn) fun _ => hauth
    · exact hv.to _ (fun _ => hconn) fun _ => hauth
  · cases hk

theorem io_cb_ordered (talks : coin_st_t → Bool) (e : Io) (s : Sock) (h : Ordered s) :
    Ordered (io_cb talks e s).1 := by
  have hgot : Ordered (s.use.act (.received e.nrd)) :=
    h.use.act _ (by rintro ⟨_, h⟩; cases h) trivial
  unfold io_cb
  simp only
  split
  · exact hgot
  · generalize hu : (if (s.use.act (.received e.nrd)).st = COIN_ST_UNK then
      { s.use.act (.received e.nrd) with st := COIN_ST_CONN } else s.use.act (.received e.nrd)) = u
    have hord : Ordered u := by
      rw [← hu]
      split
      · exact hgot.to _ (fun h => by cases h) fun h => by cases h
      · exact hgot
    cases hk : asks u.st with
    | none =>
      simp only
      split
      · exact hord.use
      · exact hord
    | some k =>
      have hask : Ordered (u.act (.asked k e.r)) := hord.act _ (by rintro ⟨_, h⟩; cases h) trivial
      have hr := succeeded_asked k u.hist e.r
      simp only
      split
      · exact hask
      · split
        · exact upgrade_ordered u _ k e.r hk hask.use rfl fun h =>
            (hr h).concat _ (by rintro ⟨_, h⟩; cases h)
        · exact upgrade_ordered u _ k e.r hk hask rfl hr

theorem callback_ordered (e : Io) (s : Sock) (hp : s.p ≠ .WS_PROTO_REST) (h : Ordered s) :
    Ordered (callback e s).1 := by
  unfold callback
  split
  · exact absurd (by assumption) hp
  · exact io_cb_ordered _ e s h
  · exact io_cb_ordered _ e s h

theorem hbeat_cb_ordered (b : Beat) (s : Sock) (h : Ordered s) : Ordered (hbeat_cb b s) := by
  unfold hbeat_cb
  simp only
  split
  · exact h.use.to _ (fun h => by cases h) fun h => by cases h
  · exact h.use

theorem sigint_cb_ordered (s : Sock) (h : Ordered s) : Ordered (sigint_cb s) :=
  h.to _ (fun h => by cases h) fun h => by cases h

/-! ## Runs -/

/-- In every run the calls to the coin are in order, on every connection. -/
theorem calls_in_order {ns : Nat} (p : Fin ns → ws_proto_t) (its : List (Iteration ns)) (i : Fin ns)
    (hp : p i ≠ .WS_PROTO_REST) : Ordered ((run (.init p) its).sock i) := by
  have hinit : Ordered (Sock.init (p i)) :=
    ⟨always_nil _, (fun h => by cases h), (fun h => by cases h)⟩
  let P : Sock → Prop := fun s => s.p ≠ .WS_PROTO_REST ∧ Ordered s
  have hstep : ∀ (c : Ctx ns) it, P (c.sock i) → P ((c.iterate it).sock i) := by
    intro c it h
    apply iterate_sock P _ _ i c it h
    · rintro t s ⟨hp, h⟩
      exact ⟨by rwa [prepare_p], prepare_ordered t s hp h⟩
    · intro i c ev h
      apply event_sock P _ _ _ i c ev h
      · rintro e s ⟨hp, h⟩
        exact ⟨by rwa [callback_p], callback_ordered e s hp h⟩
      · rintro b s ⟨hp, h⟩
        exact ⟨by rwa [hbeat_cb_p], hbeat_cb_ordered b s h⟩
      · rintro s ⟨hp, h⟩
        exact ⟨hp, sigint_cb_ordered s h⟩
  have hrun : P ((run (.init p) its).sock i) :=
    List.foldlRecOn its _ ⟨hp, hinit⟩ fun c h it _ => hstep c it h
  exact hrun.2

def turn (conn auth join : Int) : Turn := ⟨some .WS_PROTO_RAW, conn, auth, join, false⟩

/-- The connection is up at once, authentication and joining have to wait for a response. -/
def handshake : List (Iteration 1) :=
  [⟨fun _ => turn 1 0 0, [.io 0 ⟨20, 1⟩]⟩, ⟨fun _ => turn 1 0 0, [.io 0 ⟨20, 1⟩]⟩]

theorem calls_in_order_handshake :
    Ordered ((run (.init fun _ => .WS_PROTO_RAW) handshake).sock 0) :=
  calls_in_order (fun _ => .WS_PROTO_RAW) handshake 0 (by simp)

end Coins.Snarf.Control
