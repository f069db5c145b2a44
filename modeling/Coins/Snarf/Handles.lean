import Coins.Snarf.Waits

/-!
# The handle of a socket

`open_coin` sets it, `fini_coin` and `rest_cb` close it, and five functions use it.
-/

open Coins.History Coins.Ws

namespace Coins.Snarf.Control

open coin_st_t

def IsOpen (id : Nat) (h : List Act) : Prop := .opened id ∈ h ∧ .closed id ∉ h

/-- What is used or closed is open. -/
def Valid (pre : List Act) : Act → Prop
  | .use ws => ∃ id, ws = some id ∧ IsOpen id pre
  | .closed id => IsOpen id pre
  | _ => True

/-- The handle is open, and numbers that come later were never closed. -/
structure Held (s : Sock) : Prop where
  valid : Always Valid s.hist
  now : ∀ id, s.ws = some id → id < s.next ∧ IsOpen id s.hist
  later : ∀ id, s.next ≤ id → .closed id ∉ s.hist

theorem IsOpen.concat {id : Nat} {h : List Act} (hopen : IsOpen id h) (a : Act)
    (ha : a ≠ .closed id) : IsOpen id (h ++ [a]) := by
  refine ⟨List.mem_append_left _ hopen.1, ?_⟩
  rw [List.mem_append, List.mem_singleton]
  rintro (hc | rfl)
  · exact hopen.2 hc
  · exact ha rfl

theorem Held.act {s : Sock} (h : Held s) (a : Act) (ha : ∀ id, a ≠ .closed id)
    (hvalid : Valid s.hist a) : Held (s.act a) := by
  refine ⟨(always_concat _ _ _).mpr ⟨h.valid, hvalid⟩, fun id hid => ?_, fun id hid => ?_⟩
  · exact ⟨(h.now id hid).1, (h.now id hid).2.concat a (ha id)⟩
  · rw [Sock.act_hist, List.mem_append, List.mem_singleton]
    rintro (hc | hc)
    · exact h.later id hid hc
    · exact ha id hc.symm

theorem Held.use {s : Sock} (h : Held s) (hws : s.ws.isSome = true) : Held s.use := by
  obtain ⟨id, hid⟩ := Option.isSome_iff_exists.mp hws
  exact h.act _ (fun _ h => by cases h) ⟨id, hid, (h.now id hid).2⟩

theorem Held.to {s : Sock} (h : Held s) (st : coin_st_t) : Held { s with st := st } :=
  ⟨h.valid, h.now, h.later⟩

theorem Held.fini {s : Sock} (h : Held s) : Held (fini_coin s) := by
  unfold fini_coin
  cases hws : s.ws with
  | none => exact ⟨h.valid, (fun _ h => by cases h), h.later⟩
  | some id =>
    have hid := h.now id hws
    refine ⟨(always_concat _ _ _).mpr ⟨h.valid, hid.2⟩, (fun _ h => by cases h), fun j hj => ?_⟩
    simp only [Sock.act_hist, List.mem_append, List.mem_singleton]
    rintro (hc | hc)
    · exact h.later j hj hc
    · have := Act.closed.inj hc
      have hlt := hid.1
      simp only [Sock.act_next] at hj
      omega

/-! ## `prepare` -/

namespace prepare

variable (t : Turn) (s : Sock)

theorem disc_held (h : Held s) : Held (disc s).1 := h.fini.to COIN_ST_FINI

theorem joind_held (h : Held s) (hws : s.ws.isSome = true) : Held (joind t s).1 := by
  unfold joind
  split
  · exact h.use hws
  · split
    · exact h.use hws
    · exact disc_held _ (h.use hws)

theorem join_held (h : Held s) (hws : s.ws.isSome = true) : Held (join t s).1 := by
  unfold join
  split
  · exact joind_held t _ ((h.use hws).to _) hws
  · have hcall : Held (s.use.use.act (.call .join t.join)) :=
      ((h.use hws).use hws).act _ (fun _ h => by cases h) trivial
    simp only
    split
    · exact hcall.to _
    · split
      · exact hcall
      · exact joind_held t _ (hcall.to _) hws

theorem authd_held (h : Held s) (hws : s.ws.isSome = true) : Held (authd t s).1 :=
  join_held t _ (h.to _) hws

theorem auth_held (h : Held s) (hws : s.ws.isSome = true) : Held (auth t s).1 := by
  unfold auth
  split
  · exact authd_held t _ (h.use hws) hws
  · have hcall : Held (s.use.use.act (.call .auth t.auth)) :=
      ((h.use hws).use hws).act _ (fun _ h => by cases h) trivial
    simp only
    split
    · exact hcall.to _
    · split
      · exact hcall
      · exact authd_held t _ hcall hws

theorem connd_held (h : Held s) (hws : s.ws.isSome = true) : Held (connd t s).1 :=
  auth_held t _ (h.to _) hws

theorem conn_held (h : Held s) (hws : s.ws.isSome = true) : Held (conn t s).1 := by
  have hcall : Held (s.use.act (.call .conn t.conn)) :=
    (h.use hws).act _ (fun _ h => by cases h) trivial
  unfold conn
  simp only
  split
  · exact disc_held _ hcall
  · split
    · exact hcall
    · exact connd_held t _ hcall hws

theorem unk_held (h : Held s) : Held (unk t s).1 := by
  unfold unk open_coin
  cases t.opened with
  | none => exact disc_held _ ⟨h.valid, (fun _ h => by cases h), h.later⟩
  | some _ =>
    have hnew : IsOpen s.next (s.hist ++ [.opened s.next]) := by
      refine ⟨List.mem_append_right _ List.mem_cons_self, ?_⟩
      simpa using h.later s.next (le_refl _)
    have hopened : Held ({ s with ws := some s.next, next := s.next + 1 }.act (.opened s.next)) := by
      refine ⟨(always_concat _ _ _).mpr ⟨h.valid, trivial⟩, fun id hid => ?_, fun id hid => ?_⟩
      · obtain rfl := Option.some.inj hid
        exact ⟨Nat.lt_succ_self _, hnew⟩
      · simpa using h.later id (Nat.le_of_succ_le hid)
    have huse := hopened.use rfl
    exact conn_held t _ ⟨huse.valid, huse.now, huse.later⟩ rfl

end prepare

open Control.prepare in
theorem prepare_held (t : Turn) (s : Sock) (h : Held s) (hlive : Live s) : Held (prepare t s).1 := by
  have hws : ∀ st, s.st = st → alive st = true → s.ws.isSome = true := by
    rintro st rfl hst
    exact (hlive hst).1
  unfold prepare
  split
  all_goals rename_i hst
  · exact unk_held t s h
  · exact conn_held t s h (hws _ hst rfl)
  · exact connd_held t s h (hws _ hst rfl)
  · exact auth_held t s h (hws _ hst rfl)
  · exact authd_held t s h (hws _ hst rfl)
  · exact join_held t s h (hws _ hst rfl)
  · exact joind_held t s h (hws _ hst rfl)
  · exact disc_held s h
  · exact disc_held s h
  · exact h

/-! ## Callbacks -/

theorem io_cb_held (talks : coin_st_t → Bool) (e : Io) (s : Sock) (h : Held s)
    (hws : s.ws.isSome = true) : Held (io_cb talks e s).1 := by
  have hgot : Held (s.use.act (.received e.nrd)) := (h.use hws).act _ (fun _ h => by cases h) trivial
  unfold io_cb
  simp only
  split
  · exact hgot
  · generalize hu : (if (s.use.act (.received e.nrd)).st = COIN_ST_UNK then
      { s.use.act (.received e.nrd) with st := COIN_ST_CONN } else s.use.act (.received e.nrd)) = u
    have hheld : Held u ∧ u.ws.isSome = true := by
      rw [← hu]
      split
      · exact ⟨hgot.to _, hws⟩
      · exact ⟨hgot, hws⟩
    cases asks u.st with
    | none =>
      simp only
      split
      · exact hheld.1.use hheld.2
      · exact hheld.1
    | some k =>
      have hask : Held (u.act (.asked k e.r)) := hheld.1.act _ (fun _ h => by cases h) trivial
      simp only
      split
      · exact hask
      · split
        · exact (hask.use hheld.2).to _
        · exact hask.to _

theorem callback_held (e : Io) (s : Sock) (h : Held s) (hws : s.ws.isSome = true) :
    Held (callback e s).1 := by
  unfold callback
  split
  · have hgot : Held (s.use.act (.received e.nrd)) :=
      (h.use hws).act _ (fun _ h => by cases h) trivial
    unfold rest_cb
    simp only
    split
    · exact hgot.fini.to _
    · exact hgot
  · exact io_cb_held _ e s h hws
  · exact io_cb_held _ e s h hws

theorem hbeat_cb_held (b : Beat) (s : Sock) (h : Held s) (hws : s.ws.isSome = true) :
    Held (hbeat_cb b s) := by
  unfold hbeat_cb
  simp only
  split
  · exact (h.use hws).to _
  · exact h.use hws

/-! ## Within an iteration -/

/-- A socket of which a read failed, until the next `prepare`. -/
structure Down (s : Sock) : Prop where
  p : s.p = .WS_PROTO_REST
  ws : s.ws = none
  watcher : s.watcher = false
  st : alive s.st = false

theorem callback_up (e : Io) (s : Sock) (h : Up s) :
    Up (callback e s).1 ∨ Down (callback e s).1 ∧ e.nrd < 0 := by
  by_cases hp : s.p = .WS_PROTO_REST
  · have hcb : callback e s = rest_cb e s := by
      unfold callback
      rw [hp]
    rw [hcb]
    unfold rest_cb
    simp only
    split
    · exact Or.inr ⟨⟨by simpa using hp, fini_coin_ws _, fini_coin_watcher _, rfl⟩, by assumption⟩
    · exact Or.inl ⟨h.ws, h.watcher, h.st⟩
  · exact Or.inl (callback_quiet e s hp h).up

section
variable {ns : Nat} (i : Fin ns)

/-- A socket between two callbacks, after the events `evs`. -/
structure Pending (evs : List (Event ns)) (s : Sock) : Prop where
  held : Held s
  up : Up s ∨ Down s ∧ ∃ e, .io i e ∈ evs ∧ e.nrd < 0

/-- No heartbeat of a socket comes after a read that failed. -/
def Spaced (p : Fin ns → ws_proto_t) (evs : List (Event ns)) : Prop :=
  evs |> Always fun pre ev => ∀ j b, ev = .hbeat j b → p j = .WS_PROTO_REST →
    ∀ e, .io j e ∈ pre → 0 ≤ e.nrd

theorem Pending.more {evs : List (Event ns)} {s : Sock} (h : Pending i evs s) (ev : Event ns) :
    Pending i (evs ++ [ev]) s := by
  refine ⟨h.held, h.up.imp_right ?_⟩
  rintro ⟨hdown, e, he, hneg⟩
  exact ⟨hdown, e, List.mem_append_left _ he, hneg⟩

theorem event_pending (evs : List (Event ns)) (c : Ctx ns) (ev : Event ns)
    (h : Pending i evs (c.sock i))
    (hbeat : ∀ b, ev = .hbeat i b → (c.sock i).p = .WS_PROTO_REST → ∀ e, .io i e ∈ evs → 0 ≤ e.nrd) :
    Pending i (evs ++ [ev]) ((c.event ev).sock i) := by
  cases ev with
  | io j e =>
    rw [event_io_sock]
    split
    · rename_i hij
      obtain ⟨rfl, hw⟩ := hij
      have hup : Up (c.sock i) := by
        rcases h.up with hup | ⟨hdown, _⟩
        · exact hup
        · rw [hdown.watcher] at hw
          cases hw
      refine ⟨callback_held e _ h.held hup.ws, (callback_up e _ hup).imp_right ?_⟩
      rintro ⟨hdown, hneg⟩
      exact ⟨hdown, e, List.mem_append_right _ List.mem_cons_self, hneg⟩
    · exact h.more i _
  | hbeat j b =>
    rw [event_hbeat_sock]
    split
    · rename_i hij
      subst hij
      have hup : Up (c.sock i) := by
        rcases h.up with hup | ⟨hdown, e, he, hneg⟩
        · exact hup
        · have := hbeat b rfl hdown.p e he
          omega
      refine ⟨hbeat_cb_held b _ h.held hup.ws, Or.inl ?_⟩
      unfold hbeat_cb
      simp only
      split
      · exact ⟨hup.ws, hup.watcher, by simp⟩
      · exact ⟨hup.ws, hup.watcher, hup.st⟩
    · exact h.more i _
  | sigint =>
    have hmore := h.more i .sigint
    refine ⟨hmore.held.to _, hmore.up.imp ?_ ?_⟩
    · intro hup
      exact ⟨hup.ws, hup.watcher, (fun h => by cases h)⟩
    · rintro ⟨hdown, he⟩
      exact ⟨⟨hdown.p, hdown.ws, hdown.watcher, rfl⟩, he⟩

theorem event_p (c : Ctx ns) (ev : Event ns) : ((c.event ev).sock i).p = (c.sock i).p :=
  event_sock (fun s => s.p = (c.sock i).p) (fun e s h => by rwa [callback_p])
    (fun b s h => by rwa [hbeat_cb_p]) (fun _ h => h) i c ev rfl

theorem events_p (evs : List (Event ns)) (c : Ctx ns) :
    ((evs.foldl Ctx.event c).sock i).p = (c.sock i).p :=
  List.foldlRecOn (motive := fun u : Ctx ns => (u.sock i).p = (c.sock i).p) evs _ rfl
    fun u hu ev _ => (event_p i u ev).trans hu

theorem events_pending (p : Fin ns → ws_proto_t) (c : Ctx ns) (hp : (c.sock i).p = p i)
    (hheld : Held (c.sock i)) (hup : Up (c.sock i)) (evs : List (Event ns)) (hevs : Spaced p evs) :
    Pending i evs ((evs.foldl Ctx.event c).sock i) := by
  induction evs using List.reverseRecOn with
  | nil => exact ⟨hheld, Or.inl hup⟩
  | append_singleton evs ev ih =>
    obtain ⟨hevs, hev⟩ := (always_concat _ _ _).mp hevs
    rw [List.foldl_append, List.foldl_cons, List.foldl_nil]
    apply event_pending i evs _ ev (ih hevs)
    rintro b rfl hpu
    refine hev i b rfl ?_
    rwa [events_p, hp] at hpu

/-! ## Runs -/

/-- What holds between iterations. -/
structure Handled (p : Fin ns → ws_proto_t) (c : Ctx ns) : Prop where
  p : (c.sock i).p = p i
  held : Held (c.sock i)
  live : c.done = false → Live (c.sock i)

theorem iterate_handled (p : Fin ns → ws_proto_t) (c : Ctx ns) (it : Iteration ns)
    (h : Handled i p c) (hit : Spaced p it.events) :
    Handled i p (c.iterate it) := by
  unfold Ctx.iterate
  split
  · exact h
  · rename_i hdone
    have hgo : c.done = false := by simpa using hdone
    have hp : ((c.prepare it.turns).sock i).p = p i := by
      rw [prepare_sock, prepare_p]
      exact h.p
    have hheld : Held ((c.prepare it.turns).sock i) := prepare_held _ _ h.held (h.live hgo)
    simp only
    split
    · rename_i hbroke
      exact ⟨hp, hheld, fun hgo => by rw [hbroke] at hgo; cases hgo⟩
    · rename_i hbroke
      have hup : Up ((c.prepare it.turns).sock i) :=
        prepare_up _ _ (h.live hgo) (prepare_go c i it.turns (by simpa using hbroke)).2
      have hpend := events_pending i p _ hp hheld hup it.events hit
      refine ⟨by rwa [events_p], hpend.held, fun _ => ?_⟩
      rcases hpend.up with hup | ⟨hdown, _⟩
      · exact hup.live
      · intro halive
        rw [hdown.st] at halive
        cases halive

end

/-- Every handle is open when it is used, and is closed once. -/
theorem handles_valid {ns : Nat} (p : Fin ns → ws_proto_t) (its : List (Iteration ns))
    (hits : ∀ it ∈ its, Spaced p it.events) (i : Fin ns) :
    Always Valid ((run (.init p) its).sock i).hist := by
  have hinit : Held (Sock.init (p i)) :=
    ⟨always_nil _, (fun _ h => by cases h), fun _ _ => List.not_mem_nil⟩
  have hhandled : Handled i p (.init p) := ⟨rfl, hinit, fun _ h => by cases h⟩
  have hrun : Handled i p (run (.init p) its) :=
    List.foldlRecOn its _ hhandled fun c h it hit => iterate_handled i p c it h (hits it hit)
  exact hrun.held.valid

/-- A heartbeat, then a read that fails, and a new connection. -/
theorem handles_valid_reopened :
    Always Valid ((run (.init fun _ => .WS_PROTO_REST)
      [⟨fun _ => turn 1 0 0, [.hbeat 0 ⟨1, false⟩, .io 0 ⟨-1, 0⟩]⟩, ⟨fun _ => turn 1 0 0, []⟩] :
      Ctx 1).sock 0).hist := by
  apply handles_valid (fun _ => .WS_PROTO_REST)
  intro it hit
  simp only [List.mem_cons, List.not_mem_nil, or_false] at hit
  rcases hit with rfl | rfl
  · refine (always_concat _ [Event.hbeat 0 ⟨1, false⟩] _).mpr ⟨(always_concat _ [] _).mpr ⟨?_, ?_⟩, ?_⟩
    · exact always_nil _
    · simp
    · simp
  · exact always_nil _

/-- The other way round the heartbeat gets no handle. -/
theorem beats_nothing :
    ¬ Always Valid ((run (.init fun _ => .WS_PROTO_REST)
      [⟨fun _ => turn 1 0 0, [.io 0 ⟨-1, 0⟩, .hbeat 0 ⟨1, false⟩]⟩] : Ctx 1).sock 0).hist := by
  have hhist : ((run (.init fun _ => .WS_PROTO_REST)
      [⟨fun _ => turn 1 0 0, [.io 0 ⟨-1, 0⟩, .hbeat 0 ⟨1, false⟩]⟩] : Ctx 1).sock 0).hist =
      [.opened 0, .use (some 0), .use (some 0), .call .conn 1, .use (some 0), .use (some 0),
        .use (some 0), .use (some 0), .received (-1), .closed 0] ++ [.use none] := by
    decide
  rw [hhist, always_concat]
  rintro ⟨_, id, hid, _⟩
  cases hid

end Coins.Snarf.Control
