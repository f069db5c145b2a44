import Coins.Snarf.Calls

/-!
# Waiting for a response

A coin that has to wait returns 0. Nothing records that, so the next `prepare` calls it again, unless
a response has come by then.
-/

open Coins.History Coins.Ws

namespace Coins.Snarf.Control

open coin_st_t

def wakes : Act → Bool
  | .opened _ => true
  | .received nrd => decide (0 < nrd)
  | _ => false

/-- `k` does not wait for a response. -/
def Idle (k : Coin) (h : List Act) : Prop := .call k 0 ∉ since (fun a => wakes a = true) h

/-- Whoever waits is not called again. -/
def NotAgain (pre : List Act) : Act → Prop
  | .call k _ => Idle k pre
  | _ => True

theorem Idle.concat {k : Coin} {h : List Act} (hk : Idle k h) (a : Act) (ha : a ≠ .call k 0) :
    Idle k (h ++ [a]) := by
  unfold Idle at *
  rw [since_concat]
  split
  · exact List.not_mem_nil
  · simp only [List.mem_append, List.mem_singleton, not_or]
    exact ⟨hk, fun he => ha he.symm⟩

theorem Idle.append {k : Coin} {h : List Act} (hk : Idle k h) (l : List Act)
    (hl : ∀ a ∈ l, a ≠ .call k 0) : Idle k (h ++ l) := by
  induction l generalizing h with
  | nil => rwa [List.append_nil]
  | cons a l ih =>
    rw [List.append_cons]
    apply ih (hk.concat a (hl a List.mem_cons_self))
    exact fun b hb => hl b (List.mem_cons_of_mem a hb)

theorem idle_woken (k : Coin) (h : List Act) (a : Act) (ha : wakes a = true) : Idle k (h ++ [a]) := by
  unfold Idle
  rw [since_concat, if_pos ha]
  exact List.not_mem_nil

/-- The states in which `k` is still to come, but for the one in which it was called already. -/
def before : Coin → coin_st_t → Bool
  | .conn, _ => false
  | .auth, COIN_ST_CONN | .auth, COIN_ST_CONND => true
  | .join, COIN_ST_CONN | .join, COIN_ST_CONND | .join, COIN_ST_AUTH | .join, COIN_ST_AUTHD => true
  | _, _ => false

structure Patient (s : Sock) : Prop where
  calls : Always NotAgain s.hist
  idle : ∀ k, before k s.st = true → Idle k s.hist

/-- Nobody waits any more when the state is one in which somebody may. -/
def Ready (s : Sock) : Prop := (asks s.st).isSome = true → ∀ k, Idle k s.hist

theorem Patient.act {s : Sock} (h : Patient s) (a : Act) (ha : ∀ k, a ≠ .call k 0)
    (hcall : NotAgain s.hist a) : Patient (s.act a) :=
  ⟨(always_concat _ _ _).mpr ⟨h.calls, hcall⟩, fun k hk => (h.idle k hk).concat a (ha k)⟩

theorem Patient.use {s : Sock} (h : Patient s) : Patient s.use :=
  h.act _ (fun _ h => by cases h) trivial

theorem Patient.to {s : Sock} (h : Patient s) (st : coin_st_t)
    (hst : ∀ k, before k st = true → Idle k s.hist) : Patient { s with st := st } :=
  ⟨h.calls, hst⟩

theorem Patient.late {s : Sock} (h : Patient s) (st : coin_st_t) (hst : ∀ k, before k st = false) :
    Patient { s with st := st } :=
  h.to st fun k hk => by rw [hst k] at hk; cases hk

theorem Patient.fini {s : Sock} (h : Patient s) : Patient (fini_coin s) := by
  unfold fini_coin
  cases s.ws with
  | none => exact ⟨h.calls, h.idle⟩
  | some id =>
    have := h.act (.closed id) (fun _ h => by cases h) trivial
    exact ⟨this.calls, this.idle⟩

/-! ## `prepare` -/

namespace prepare

variable (t : Turn) (s : Sock)

theorem disc_patient (h : Patient s) : Patient (disc s).1 :=
  h.fini.late COIN_ST_FINI fun k => by cases k <;> rfl

theorem joind_patient (h : Patient s) : Patient (joind t s).1 := by
  unfold joind
  split
  · exact h.use
  · split
    · exact h.use
    · exact disc_patient _ h.use

theorem called (k : Coin) (r : Int) (st : coin_st_t) (h : Patient s) (hk : Idle k s.hist)
    (hst : ∀ j, before j st = true → Idle j s.hist ∧ (j = k → r ≠ 0)) :
    Patient { s.act (.call k r) with st := st } := by
  refine ⟨(always_concat _ _ _).mpr ⟨h.calls, hk⟩, fun j hj => ?_⟩
  obtain ⟨hidle, hne⟩ := hst j hj
  refine hidle.concat _ fun heq => ?_
  obtain ⟨rfl, hr⟩ := Act.call.inj heq
  exact hne rfl hr

theorem idle_use (k : Coin) (h : Idle k s.hist) : Idle k s.use.hist :=
  h.concat _ fun he => by cases he

theorem join_patient (hp : s.p ≠ .WS_PROTO_REST) (h : Patient s) (hst : s.st = COIN_ST_JOIN)
    (hjoin : Idle .join s.hist) : Patient (join t s).1 := by
  have hcall : Idle .join s.use.use.hist := idle_use _ _ (idle_use _ _ hjoin)
  unfold join
  rw [if_neg hp]
  simp only
  split
  · rename_i hr
    refine called s.use.use .join t.join _ h.use.use hcall fun j hj => ?_
    cases j <;> cases hj
    exact ⟨hcall, fun _ => by omega⟩
  · split
    · have := called s.use.use .join t.join s.st h.use.use hcall fun j hj => by
        rw [hst] at hj
        cases j <;> cases hj
      exact this
    · refine joind_patient t _ (called s.use.use .join t.join _ h.use.use hcall fun j hj => ?_)
      cases j <;> cases hj

theorem authd_patient (hp : s.p ≠ .WS_PROTO_REST) (h : Patient s) (hjoin : Idle .join s.hist) :
    Patient (authd t s).1 :=
  join_patient t _ hp (h.late _ fun k => by cases k <;> rfl) rfl hjoin

theorem auth_patient (hp : s.p ≠ .WS_PROTO_REST) (h : Patient s) (hst : s.st = COIN_ST_AUTH)
    (hauth : Idle .auth s.hist) (hjoin : Idle .join s.hist) : Patient (auth t s).1 := by
  have hcall : Idle .auth s.use.use.hist := idle_use _ _ (idle_use _ _ hauth)
  have hlast : Idle .join s.use.use.hist := idle_use _ _ (idle_use _ _ hjoin)
  unfold auth
  rw [if_neg hp]
  simp only
  split
  · refine called s.use.use .auth t.auth _ h.use.use hcall fun j hj => ?_
    cases j <;> cases hj
    · exact ⟨hcall, fun _ => by omega⟩
    · exact ⟨hlast, fun h => by cases h⟩
  · have hsame : Patient (s.use.use.act (.call .auth t.auth)) := by
      have := called s.use.use .auth t.auth s.st h.use.use hcall fun j hj => by
        rw [hst] at hj
        cases j <;> cases hj
        exact ⟨hlast, fun h => by cases h⟩
      exact this
    split
    · exact hsame
    · exact authd_patient t _ hp hsame (hlast.concat _ fun h => by cases h)

theorem connd_patient (hp : s.p ≠ .WS_PROTO_REST) (h : Patient s) (hauth : Idle .auth s.hist)
    (hjoin : Idle .join s.hist) : Patient (connd t s).1 := by
  refine auth_patient t _ hp (h.to _ fun k hk => ?_) rfl hauth hjoin
  cases k <;> cases hk
  exact hjoin

theorem conn_patient (hp : s.p ≠ .WS_PROTO_REST) (h : Patient s) (hst : s.st = COIN_ST_CONN)
    (hall : ∀ k, Idle k s.hist) : Patient (conn t s).1 := by
  have huse : ∀ k, Idle k s.use.hist := fun k => idle_use _ k (hall k)
  have hsame : Patient (s.use.act (.call .conn t.conn)) := by
    have := called s.use .conn t.conn s.st h.use (huse .conn) fun j hj => by
      rw [hst] at hj
      cases j <;> cases hj
      · exact ⟨huse .auth, fun h => by cases h⟩
      · exact ⟨huse .join, fun h => by cases h⟩
    exact this
  unfold conn
  simp only
  split
  · exact disc_patient _ hsame
  · split
    · exact hsame
    · exact connd_patient t _ hp hsame ((huse .auth).concat _ fun h => by cases h)
        ((huse .join).concat _ fun h => by cases h)

theorem unk_patient (hp : s.p ≠ .WS_PROTO_REST) (h : Patient s) : Patient (unk t s).1 := by
  unfold unk open_coin
  cases t.opened with
  | none => exact disc_patient _ ⟨h.calls, h.idle⟩
  | some _ =>
    have hidle : ∀ k, Idle k (s.hist ++ [.opened s.next] ++ [.use (some s.next)]) := fun k =>
      (idle_woken k s.hist (.opened s.next) rfl).concat _ fun h => by cases h
    refine conn_patient t _ hp ⟨?_, fun k _ => hidle k⟩ rfl hidle
    simp only [Sock.use_hist, Sock.act_hist]
    rw [always_concat, always_concat]
    exact ⟨⟨h.calls, trivial⟩, trivial⟩

end prepare

open Control.prepare in
theorem prepare_patient (t : Turn) (s : Sock) (hp : s.p ≠ .WS_PROTO_REST) (h : Patient s)
    (hready : Ready s) : Patient (prepare t s).1 := by
  unfold prepare
  split
  · exact unk_patient t s hp h
  · rename_i hst
    exact conn_patient t s hp h hst (hready (by rw [hst]; rfl))
  · rename_i hst
    exact connd_patient t s hp h (h.idle _ (by rw [hst]; rfl)) (h.idle _ (by rw [hst]; rfl))
  · rename_i hst
    have hall := hready (by rw [hst]; rfl)
    exact auth_patient t s hp h hst (hall _) (hall _)
  · rename_i hst
    exact authd_patient t s hp h (h.idle _ (by rw [hst]; rfl))
  · rename_i hst
    exact join_patient t s hp h hst (hready (by rw [hst]; rfl) _)
  · exact joind_patient t s h
  · exact disc_patient s h
  · exact disc_patient s h
  · exact h

/-! ## Callbacks -/

/-- What the callbacks do to a socket as `prepare` leaves it. -/
structure Quiet (s s' : Sock) : Prop where
  p : s'.p = s.p
  up : Up s'
  before : ∀ k, before k s'.st = true → before k s.st = true
  hist : ∃ more, s'.hist = s.hist ++ more ∧ ∀ a ∈ more, ∀ k r, a ≠ .call k r

theorem Quiet.refl {s : Sock} (h : Up s) : Quiet s s := ⟨rfl, h, fun _ => id, [], by simp, by simp⟩

theorem Quiet.trans {s s' s'' : Sock} (h : Quiet s s') (h' : Quiet s' s'') : Quiet s s'' := by
  obtain ⟨more, hmore, hcall⟩ := h.hist
  obtain ⟨more', hmore', hcall'⟩ := h'.hist
  refine ⟨h'.p.trans h.p, h'.up, fun k hk => h.before k (h'.before k hk), more ++ more', ?_, ?_⟩
  · rw [hmore', hmore, List.append_assoc]
  · intro a ha
    exact (List.mem_append.mp ha).elim (hcall a) (hcall' a)

theorem Quiet.patient {s s' : Sock} (h : Quiet s s') (hs : Patient s) : Patient s' := by
  obtain ⟨more, hmore, hcall⟩ := h.hist
  refine ⟨?_, fun k hk => ?_⟩
  · rw [hmore]
    apply hs.calls.append
    intro pre a ha
    cases a with
    | call k r => exact absurd rfl (hcall _ ha k r)
    | _ => exact trivial
  · rw [hmore]
    exact (hs.idle k (h.before k hk)).append more fun a ha => hcall a ha k 0

theorem Quiet.idle {s s' : Sock} (h : Quiet s s') (k : Coin) (hs : Idle k s.hist) : Idle k s'.hist := by
  obtain ⟨more, hmore, hcall⟩ := h.hist
  rw [hmore]
  exact hs.append more fun a ha => hcall a ha k 0

theorem before_upgrade (k : Coin) (st : coin_st_t) (r : Int) (h : before k (upgrade st r) = true) :
    before k st = true := by
  unfold upgrade at h
  cases st <;> simp only at h
  all_goals try exact h
  all_goals
    split at h
    · cases k <;> cases h <;> rfl
    · exact h

theorem callback_quiet (e : Io) (s : Sock) (hp : s.p ≠ .WS_PROTO_REST) (h : Up s) :
    Quiet s (callback e s).1 := by
  have hheard := callback_heard e s hp h.st
  obtain ⟨more, hmore, hin⟩ := hheard.hist
  refine ⟨hheard.p, ⟨?_, ?_, ?_⟩, ?_, [.use s.ws] ++ [.received e.nrd] ++ more, ?_, ?_⟩
  · rw [hheard.ws]
    exact h.ws
  · rw [hheard.watcher]
    exact h.watcher
  · rcases hheard.st with hst | hst <;> rw [hst]
    · exact h.st
    · exact upgrade_ne_unk s.st e.r h.st
  · intro k hk
    rcases hheard.st with hst | hst <;> rw [hst] at hk
    · exact hk
    · exact before_upgrade k s.st e.r hk
  · rw [hmore]
    simp only [List.append_assoc]
  · intro a ha k r
    rcases List.mem_append.mp ha with ha | ha
    · rcases List.mem_append.mp ha with ha | ha <;> obtain rfl := List.mem_singleton.mp ha <;> simp
    · rcases hin a ha with rfl | ⟨_, rfl⟩ <;> simp

theorem callback_woken (e : Io) (s : Sock) (hp : s.p ≠ .WS_PROTO_REST) (h : Up s) (he : 0 < e.nrd)
    (k : Coin) : Idle k (callback e s).1.hist := by
  obtain ⟨more, hmore, hin⟩ := (callback_heard e s hp h.st).hist
  have hwoken := idle_woken k (s.hist ++ [.use s.ws]) (.received e.nrd) (by simpa [wakes] using he)
  rw [hmore]
  apply hwoken.append
  intro a ha
  rcases hin a ha with rfl | ⟨_, rfl⟩ <;> simp

theorem hbeat_cb_quiet (b : Beat) (s : Sock) (h : Up s) : Quiet s (hbeat_cb b s) := by
  unfold hbeat_cb
  simp only
  split
  · refine ⟨rfl, ⟨h.ws, h.watcher, by simp⟩, ?_, [.use s.ws], rfl, by simp⟩
    rintro k hk
    cases k <;> cases hk
  · exact ⟨rfl, ⟨h.ws, h.watcher, h.st⟩, fun _ => id, [.use s.ws], rfl, by simp⟩

theorem sigint_cb_quiet (s : Sock) (h : Up s) : Quiet s (sigint_cb s) := by
  unfold sigint_cb
  refine ⟨rfl, ⟨h.ws, h.watcher, by simp⟩, ?_, [], by simp, by simp⟩
  rintro k hk
  cases k <;> cases hk

/-! ## Runs -/

section
variable {ns : Nat} (i : Fin ns)

theorem event_quiet (s : Sock) (hp : s.p ≠ .WS_PROTO_REST) (c : Ctx ns) (ev : Event ns)
    (h : Quiet s (c.sock i)) : Quiet s ((c.event ev).sock i) := by
  apply event_sock (Quiet s) _ _ _ i c ev h
  · rintro e u hu
    exact hu.trans (callback_quiet e u (by rwa [hu.p]) hu.up)
  · rintro b u hu
    exact hu.trans (hbeat_cb_quiet b u hu.up)
  · rintro u hu
    exact hu.trans (sigint_cb_quiet u hu.up)

theorem events_quiet (c : Ctx ns) (hp : (c.sock i).p ≠ .WS_PROTO_REST) (h : Up (c.sock i))
    (evs : List (Event ns)) : Quiet (c.sock i) ((evs.foldl Ctx.event c).sock i) :=
  List.foldlRecOn (motive := fun u : Ctx ns => Quiet (c.sock i) (u.sock i)) evs _ (Quiet.refl h)
    fun u hu ev _ => event_quiet i (c.sock i) hp u ev hu

/-- The socket has received something. -/
def Hears (it : Iteration ns) : Prop := ∃ e, .io i e ∈ it.events ∧ 0 < e.nrd

theorem events_woken (c : Ctx ns) (hp : (c.sock i).p ≠ .WS_PROTO_REST) (h : Up (c.sock i))
    (it : Iteration ns) (hears : Hears i it) (k : Coin) :
    Idle k ((it.events.foldl Ctx.event c).sock i).hist := by
  obtain ⟨e, hin, he⟩ := hears
  obtain ⟨pre, post, hevs⟩ := List.append_of_mem hin
  rw [hevs, List.foldl_append, List.foldl_cons]
  have hpre := events_quiet i c hp h pre
  generalize pre.foldl Ctx.event c = u at hpre ⊢
  have hpu : (u.sock i).p ≠ .WS_PROTO_REST := by rwa [hpre.p]
  have hev : ((u.event (.io i e)).sock i) = (callback e (u.sock i)).1 := by
    rw [event_io_sock, if_pos ⟨rfl, hpre.up.watcher⟩]
  have hcb := callback_quiet e (u.sock i) hpu hpre.up
  have hpost := events_quiet i (u.event (.io i e)) (by rwa [hev, hcb.p]) (by rw [hev]; exact hcb.up) post
  apply hpost.idle k
  rw [hev]
  exact callback_woken e (u.sock i) hpu hpre.up he k

/-- `prepare` meets the socket in a state of waiting only when it has received something since the
last `prepare`, which is what `got` says at the beginning. -/
def Answered : Prop → Ctx ns → List (Iteration ns) → Prop
  | _, _, [] => True
  | got, c, it :: its =>
    (c.done = false → (asks (c.sock i).st).isSome = true → got) ∧
      Answered (Hears i it) (c.iterate it) its

/-- What holds between iterations. -/
structure Waiting (got : Prop) (c : Ctx ns) : Prop where
  p : (c.sock i).p ≠ .WS_PROTO_REST
  patient : Patient (c.sock i)
  live : c.done = false → Live (c.sock i)
  idle : c.done = false → got → ∀ k, Idle k (c.sock i).hist

theorem Up.live {s : Sock} (h : Up s) : Live s := fun _ => ⟨h.ws, h.watcher⟩

theorem iterate_waiting (got : Prop) (c : Ctx ns) (it : Iteration ns) (h : Waiting i got c)
    (hans : c.done = false → (asks (c.sock i).st).isSome = true → got) :
    Waiting i (Hears i it) (c.iterate it) := by
  unfold Ctx.iterate
  split
  · rename_i hdone
    exact ⟨h.p, h.patient, (fun hgo => by rw [hdone] at hgo; cases hgo),
      (fun hgo => by rw [hdone] at hgo; cases hgo)⟩
  · rename_i hdone
    have hgo : c.done = false := by simpa using hdone
    have hp : ((c.prepare it.turns).sock i).p ≠ .WS_PROTO_REST := by
      rw [prepare_sock, prepare_p]
      exact h.p
    have hpat : Patient ((c.prepare it.turns).sock i) :=
      prepare_patient _ _ h.p h.patient fun hst => h.idle hgo (hans hgo hst)
    simp only
    split
    · rename_i hbroke
      exact ⟨hp, hpat, (fun hgo => by rw [hbroke] at hgo; cases hgo),
        (fun hgo => by rw [hbroke] at hgo; cases hgo)⟩
    · rename_i hbroke
      have hup : Up ((c.prepare it.turns).sock i) :=
        prepare_up _ _ (h.live hgo) (prepare_go c i it.turns (by simpa using hbroke)).2
      have hquiet := events_quiet i _ hp hup it.events
      exact ⟨by rwa [hquiet.p], hquiet.patient hpat, fun _ => hquiet.up.live,
        fun _ hears => events_woken i _ hp hup it hears⟩

end

/-- Whoever waits is not called again, in every run in which responses come that fast. -/
theorem waits_answered {ns : Nat} (p : Fin ns → ws_proto_t) (its : List (Iteration ns)) (i : Fin ns)
    (hp : p i ≠ .WS_PROTO_REST) (hans : Answered i False (.init p) its) :
    Always NotAgain ((run (.init p) its).sock i).hist := by
  have hrun : ∀ (its : List (Iteration ns)) got (c : Ctx ns), Waiting i got c → Answered i got c its →
      Patient ((run c its).sock i) := by
    intro its
    induction its with
    | nil => exact fun _ _ h _ => h.patient
    | cons it its ih => exact fun got c h hans => ih _ _ (iterate_waiting i got c it h hans.1) hans.2
  have hinit : Patient (Sock.init (p i)) := ⟨always_nil _, fun k hk => by cases k <;> cases hk⟩
  have hwait : Waiting i False (.init p) := ⟨hp, hinit, (fun _ h => by cases h), fun _ h => h.elim⟩
  exact (hrun its False (.init p) hwait hans).calls

/-- A response that does not settle the authentication. -/
theorem waits_answered_slowly : Always NotAgain ((run (.init fun _ => .WS_PROTO_RAW)
    [⟨fun _ => turn 1 0 0, [.io 0 ⟨20, 0⟩]⟩, ⟨fun _ => turn 1 0 0, []⟩] : Ctx 1).sock 0).hist := by
  apply waits_answered (fun _ => .WS_PROTO_RAW) _ 0 (by simp)
  refine ⟨fun _ h => ?_, fun _ _ => ?_, trivial⟩
  · cases h
  · exact ⟨_, List.mem_cons_self, by decide⟩

/-- A heartbeat is enough for `auth_coin` to be called a second time. -/
theorem called_again : ¬ Always NotAgain ((run (.init fun _ => .WS_PROTO_RAW)
    [⟨fun _ => turn 1 0 0, [.hbeat 0 ⟨0, false⟩]⟩, ⟨fun _ => turn 1 0 0, []⟩] : Ctx 1).sock 0).hist := by
  have hhist : ((run (.init fun _ => .WS_PROTO_RAW)
      [⟨fun _ => turn 1 0 0, [.hbeat 0 ⟨0, false⟩]⟩, ⟨fun _ => turn 1 0 0, []⟩] : Ctx 1).sock 0).hist =
      [.opened 0, .use (some 0), .use (some 0), .call .conn 1, .use (some 0), .use (some 0),
        .call .auth 0, .use (some 0), .use (some 0), .use (some 0)] ++ [.call .auth 0] := by
    decide
  rw [hhist, always_concat]
  rintro ⟨_, hidle⟩
  apply hidle
  decide
end Coins.Snarf.Control
