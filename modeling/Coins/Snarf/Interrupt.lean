import Coins.Snarf.Handles

/-!
# After an interrupt

`sigint_cb` marks all sockets, and the next `prepare` takes them down, unless a callback in between
marks one of them otherwise.
-/

open Coins.Ws

namespace Coins.Snarf.Control

open coin_st_t

/-- The states that `prepare` takes down at once. -/
def dying : coin_st_t → Bool
  | COIN_ST_NODATA | COIN_ST_INTR => true
  | _ => false

theorem callback_dying (e : Io) (s : Sock) (h : dying s.st = true)
    (hrest : s.p = .WS_PROTO_REST → 0 ≤ e.nrd) : dying (callback e s).1.st = true := by
  by_cases hp : s.p = .WS_PROTO_REST
  · have hnrd := hrest hp
    unfold callback rest_cb
    rw [hp]
    simp only
    rw [if_neg (by omega)]
    exact h
  · have hne : s.st ≠ COIN_ST_UNK := by
      rintro hst
      rw [hst] at h
      cases h
    rcases (callback_heard e s hp hne).st with hst | hst <;> rw [hst]
    · exact h
    · cases hs : s.st <;> rw [hs] at h <;> cases h <;> rfl

theorem prepare_dying (t : Turn) (s : Sock) (h : dying s.st = true) :
    prepare t s = prepare.disc s := by
  unfold prepare
  split
  all_goals rename_i hst
  all_goals first
    | rfl
    | rw [hst] at h
      cases h

/-- No connection is opened from `s` to `s'`. -/
def Unopened (s s' : Sock) : Prop := ∃ more, s'.hist = s.hist ++ more ∧ ∀ id, .opened id ∉ more

theorem disc_unopened (s : Sock) : Unopened s (prepare.disc s).1 := by
  unfold prepare.disc fini_coin
  cases s.ws with
  | none => exact ⟨[], by simp, by simp⟩
  | some id => exact ⟨[.closed id], rfl, by simp⟩

section
variable {ns : Nat}

theorem event_dying (c : Ctx ns) (ev : Event ns) (h : ∀ i, dying (c.sock i).st = true)
    (hev : ∀ i e, ev = .io i e → (c.sock i).p = .WS_PROTO_REST → 0 ≤ e.nrd) (i : Fin ns) :
    dying ((c.event ev).sock i).st = true := by
  cases ev with
  | io j e =>
    rw [event_io_sock]
    split
    · rename_i hij
      exact callback_dying e _ (h i) fun hp => hev i e (by rw [hij.1]) hp
    · exact h i
  | hbeat j b =>
    rw [event_hbeat_sock]
    split
    · unfold hbeat_cb
      simp only
      split
      · rfl
      · exact h i
    · exact h i
  | sigint => rfl

theorem events_dying (c : Ctx ns) (evs : List (Event ns)) (h : ∀ i, dying (c.sock i).st = true)
    (hevs : ∀ i e, .io i e ∈ evs → (c.sock i).p = .WS_PROTO_REST → 0 ≤ e.nrd) (i : Fin ns) :
    dying ((evs.foldl Ctx.event c).sock i).st = true := by
  let I : Ctx ns → Prop := fun u => ∀ i, dying (u.sock i).st = true ∧ (u.sock i).p = (c.sock i).p
  have hI : I (evs.foldl Ctx.event c) := by
    apply List.foldlRecOn evs _ fun i => ⟨h i, rfl⟩
    intro u hu ev hev i
    refine ⟨event_dying u ev (fun i => (hu i).1) ?_ i, (event_p i u ev).trans (hu i).2⟩
    rintro i e rfl hp
    exact hevs i e hev (by rwa [(hu i).2] at hp)
  exact (hI i).1

theorem run_done (c : Ctx ns) (h : c.done = true) (its : List (Iteration ns)) : run c its = c := by
  unfold run
  induction its with
  | nil => rfl
  | cons it its ih =>
    rw [List.foldl_cons]
    unfold Ctx.iterate
    rw [if_pos h]
    exact ih

theorem run_dying (c : Ctx ns) (h : ∀ i, dying (c.sock i).st = true) (its : List (Iteration ns))
    (i : Fin ns) : Unopened (c.sock i) ((run c its).sock i) := by
  cases its with
  | nil => exact ⟨[], by simp [run], by simp⟩
  | cons it its =>
    by_cases hdone : c.done = true
    · rw [run_done c hdone]
      exact ⟨[], by simp, by simp⟩
    · have hbroke : (c.prepare it.turns).done = true := by
        unfold Ctx.prepare
        simp only [Bool.or_eq_true, List.any_eq_true]
        refine Or.inr ⟨i, List.mem_finRange i, ?_⟩
        rw [prepare_dying _ _ (h i)]
        rfl
      have hit : c.iterate it = c.prepare it.turns := by
        unfold Ctx.iterate
        rw [if_neg hdone]
        exact if_pos hbroke
      have hrun : run c (it :: its) = c.prepare it.turns := by
        have := run_done _ hbroke its
        unfold run at this ⊢
        rw [List.foldl_cons, hit, this]
      rw [hrun, prepare_sock, prepare_dying _ _ (h i)]
      exact disc_unopened _

end

/-- After an interrupt the next `prepare` closes every handle, and nothing is opened any more, unless
a REST connection fails behind the interrupt. -/
theorem interrupt_final {ns : Nat} (p : Fin ns → ws_proto_t) (its : List (Iteration ns))
    (it : Iteration ns) (hgo : ((run (.init p) its).prepare it.turns).done = false)
    (pre post : List (Event ns)) (hevents : it.events = pre ++ .sigint :: post)
    (hpost : ∀ i e, .io i e ∈ post → p i = .WS_PROTO_REST → 0 ≤ e.nrd) (i : Fin ns) :
    let c := run (.init p) (its ++ [it])
    (c.done = false → ∀ turns, ((c.prepare turns).sock i).st = COIN_ST_FINI ∧
      ((c.prepare turns).sock i).ws = none) ∧
    ∀ later, Unopened (c.sock i) ((run c later).sock i) := by
  have hp : ∀ i, ((run (.init p) its).sock i).p = p i := fun i =>
    List.foldlRecOn (motive := fun c : Ctx ns => (c.sock i).p = p i) its _ rfl fun c h it _ =>
      iterate_sock (fun s => s.p = p i) (fun t s hs => by rwa [prepare_p])
        (fun i c ev hs => by rwa [event_p]) i c it h
  have hc : run (.init p) (its ++ [it]) =
      it.events.foldl Ctx.event ((run (.init p) its).prepare it.turns) := by
    unfold run at hgo ⊢
    rw [List.foldl_append, List.foldl_cons, List.foldl_nil]
    generalize its.foldl Ctx.iterate (.init p) = u at hgo ⊢
    unfold Ctx.iterate
    have hu := prepare_go u i it.turns hgo
    simp only [hu.1, hgo, Bool.false_eq_true, if_false]
  have hdying : ∀ i, dying ((run (.init p) (its ++ [it])).sock i).st = true := by
    rw [hc, hevents, List.foldl_append, List.foldl_cons]
    intro i
    apply events_dying _ post (fun _ => rfl)
    intro i e he hrest
    refine hpost i e he ?_
    rw [event_p, events_p, prepare_sock, prepare_p, hp i] at hrest
    exact hrest
  refine ⟨fun _ turns => ?_, fun later => run_dying _ hdying later i⟩
  rw [prepare_sock, prepare_dying _ _ (hdying i)]
  exact ⟨rfl, fini_coin_ws _⟩

/-- The failure of a REST connection, and then the interrupt. -/
theorem interrupt_final_rest :
    let c : Ctx 1 := run (.init fun _ => .WS_PROTO_REST)
      ([] ++ [⟨fun _ => turn 1 0 0, [.io 0 ⟨-1, 0⟩, .sigint]⟩])
    (c.done = false → ∀ turns, ((c.prepare turns).sock 0).st = COIN_ST_FINI ∧
      ((c.prepare turns).sock 0).ws = none) ∧
    ∀ later, Unopened (c.sock 0) ((run c later).sock 0) :=
  interrupt_final (fun _ => .WS_PROTO_REST) [] _ (by decide) [.io 0 ⟨-1, 0⟩] [] rfl
    (fun _ _ h => by cases h) 0

/-- The other way round the socket is connected anew. -/
theorem interrupt_undone :
    let c : Ctx 1 := run (.init fun _ => .WS_PROTO_REST)
      [⟨fun _ => turn 1 0 0, [.sigint, .io 0 ⟨-1, 0⟩]⟩]
    c.done = false ∧ ((c.prepare fun _ => turn 1 0 0).sock 0).st = COIN_ST_JOIND ∧
      ((c.prepare fun _ => turn 1 0 0).sock 0).ws = some 1 := by
  decide

end Coins.Snarf.Control
