import Coins.Snarf.Bounds
import Coins.Snarf.Control

/-!
# One socket, with its buffer and without

The event loop leaves out the session buffers. What it says of the state, the handle and the end of
the loop is what a socket with its buffer does.
-/

open Coins.History Coins.Memory Coins.Ws

namespace Coins.Snarf.Control

open coin_st_t

/-- A socket of the loop stands for one that has its buffer. -/
structure Agree (c : Sock) (s : Slot) : Prop where
  st : c.st = s.st
  ws : c.ws.isSome = s.ws.isSome
  p : ∀ ws, s.ws = some ws → ws.p = c.p
  watcher : c.watcher = c.ws.isSome
  live : alive c.st = true → c.ws.isSome = true

def AgreeEnd (c : Sock × Bool) (s : Slot) : Prop := Agree c.1 s ∧ c.2 = s.ended

theorem Agree.init (p : ws_proto_t) (inflate : Bool) : Agree (.init p) (.init inflate) :=
  ⟨rfl, rfl, (fun _ h => by cases h), rfl, (fun h => by cases h)⟩

theorem Agree.act {c : Sock} {s : Slot} (h : Agree c s) (a : Act) : Agree (c.act a) s :=
  ⟨h.st, h.ws, h.p, h.watcher, h.live⟩

theorem Agree.use {c : Sock} {s : Slot} (h : Agree c s) : Agree c.use s := h.act _

theorem Agree.to {c : Sock} {s : Slot} (h : Agree c s) (st : coin_st_t) (m : Mem Byte) (n : Nat)
    (hlive : c.ws.isSome = true) : Agree { c with st := st } { s with st := st, mem := m, n := n } :=
  ⟨rfl, h.ws, h.p, h.watcher, fun _ => hlive⟩

theorem Agree.rest {c : Sock} {s : Slot} (h : Agree c s) (hlive : c.ws.isSome = true) :
    s.rest = true ↔ c.p = .WS_PROTO_REST := by
  obtain ⟨ws, hws⟩ : ∃ ws, s.ws = some ws := Option.isSome_iff_exists.mp (h.ws ▸ hlive)
  unfold Slot.rest
  rw [hws, decide_eq_true_iff, Option.map_some, Option.some.injEq, h.p ws hws]

/-! ## `prepare` -/

section
variable (t : Turn) {c : Sock} {s : Slot}

theorem disc_agree (c : Sock) (s : Slot) : AgreeEnd (prepare.disc c) (Snarf.prepare.disc s) := by
  unfold prepare.disc Snarf.prepare.disc
  exact ⟨⟨rfl, by simp, (fun _ h => by cases h), by simp, (fun h => by cases h)⟩, rfl⟩

theorem joind_agree (h : Agree c s) (hend : s.ended = false) (hlive : c.ws.isSome = true) :
    AgreeEnd (prepare.joind t c) (Snarf.prepare.joind t s) := by
  unfold prepare.joind Snarf.prepare.joind
  by_cases hp : c.p = .WS_PROTO_REST
  · rw [if_pos hp, if_pos (Or.inl ((h.rest hlive).mpr hp))]
    exact ⟨h.use, hend.symm⟩
  · have hs : ¬ s.rest = true := fun hs => hp ((h.rest hlive).mp hs)
    rw [if_neg hp]
    by_cases hidle : t.idle = true
    · rw [if_neg (by simp [hidle]), if_neg (by simp [hs, hidle])]
      exact disc_agree _ s
    · rw [if_pos hidle, if_pos (Or.inr hidle)]
      exact ⟨h.use, hend.symm⟩

theorem join_agree (h : Agree c s) (hend : s.ended = false) (hlive : c.ws.isSome = true) :
    AgreeEnd (prepare.join t c) (Snarf.prepare.join t s) := by
  unfold prepare.join Snarf.prepare.join
  by_cases hp : c.p = .WS_PROTO_REST
  · rw [if_pos hp, if_pos ((h.rest hlive).mpr hp)]
    exact joind_agree t (h.use.to COIN_ST_JOIND s.mem s.n hlive) hend hlive
  · rw [if_neg hp, if_neg fun hs => hp ((h.rest hlive).mp hs)]
    have hcall := h.use.use.act (.call .join t.join)
    simp only
    split
    · exact ⟨hcall.to COIN_ST_AUTHD s.mem s.n hlive, hend.symm⟩
    · split
      · exact ⟨hcall, hend.symm⟩
      · exact joind_agree t (hcall.to COIN_ST_JOIND s.mem s.n hlive) hend hlive

theorem authd_agree (h : Agree c s) (hend : s.ended = false) (hlive : c.ws.isSome = true) :
    AgreeEnd (prepare.authd t c) (Snarf.prepare.authd t s) :=
  join_agree t (h.to COIN_ST_JOIN s.mem INI_GBOF hlive) hend hlive

theorem auth_agree (h : Agree c s) (hend : s.ended = false) (hlive : c.ws.isSome = true) :
    AgreeEnd (prepare.auth t c) (Snarf.prepare.auth t s) := by
  unfold prepare.auth Snarf.prepare.auth
  by_cases hp : c.p = .WS_PROTO_REST
  · rw [if_pos hp, if_pos ((h.rest hlive).mpr hp)]
    exact authd_agree t h.use hend hlive
  · rw [if_neg hp, if_neg fun hs => hp ((h.rest hlive).mp hs)]
    have hcall := h.use.use.act (.call .auth t.auth)
    simp only
    split
    · exact ⟨hcall.to COIN_ST_CONND s.mem s.n hlive, hend.symm⟩
    · split
      · exact ⟨hcall, hend.symm⟩
      · exact authd_agree t hcall hend hlive

theorem connd_agree (h : Agree c s) (hend : s.ended = false) (hlive : c.ws.isSome = true) :
    AgreeEnd (prepare.connd t c) (Snarf.prepare.connd t s) :=
  auth_agree t (h.to COIN_ST_AUTH s.mem INI_GBOF hlive) hend hlive

theorem conn_agree (h : Agree c s) (hend : s.ended = false) (hlive : c.ws.isSome = true) :
    AgreeEnd (prepare.conn t c) (Snarf.prepare.conn t s) := by
  have hcall := h.use.act (.call .conn t.conn)
  unfold prepare.conn Snarf.prepare.conn
  simp only
  split
  · exact disc_agree _ s
  · split
    · exact ⟨hcall, hend.symm⟩
    · exact connd_agree t hcall hend hlive

theorem unk_agree (hend : s.ended = false) (hopen : ∀ p, t.opened = some p → p = c.p) :
    AgreeEnd (prepare.unk t c) (Snarf.prepare.unk t s) := by
  unfold prepare.unk open_coin Snarf.prepare.unk
  cases ho : t.opened with
  | none =>
    unfold prepare.disc Snarf.prepare.disc
    exact ⟨⟨rfl, by simp, (fun _ h => by cases h), by simp, (fun h => by cases h)⟩, rfl⟩
  | some p =>
    obtain rfl := hopen p ho
    refine conn_agree t ⟨rfl, rfl, ?_, rfl, fun _ => rfl⟩ hend rfl
    intro ws hws
    rw [← Option.some.inj hws]
    rfl

open Control.prepare in
theorem prepare_agree (h : Agree c s) (hend : s.ended = false)
    (hopen : ∀ p, t.opened = some p → p = c.p) :
    AgreeEnd (Control.prepare t c) (Snarf.prepare t s) := by
  have hlive : ∀ st, c.st = st → alive st = true → c.ws.isSome = true := by
    rintro st rfl halive
    exact h.live halive
  have hs := h.st
  unfold Control.prepare Snarf.prepare
  cases hst : c.st
  all_goals
    rw [hst] at hs
    simp only [← hs]
  · exact unk_agree t hend hopen
  · exact conn_agree t h hend (hlive _ hst rfl)
  · exact connd_agree t h hend (hlive _ hst rfl)
  · exact auth_agree t h hend (hlive _ hst rfl)
  · exact authd_agree t h hend (hlive _ hst rfl)
  · exact join_agree t h hend (hlive _ hst rfl)
  · exact joind_agree t h hend (hlive _ hst rfl)
  · exact disc_agree c s
  · exact disc_agree c s
  · exact ⟨⟨hst, h.ws, h.p, h.watcher, h.live⟩, rfl⟩

end

/-! ## Callbacks -/

theorem log_him_kept (mas : Massage) (inflates : Bool) (s : Slot) (m : Mem Byte) (xn nrd : Nat) (e : Input) :
    ∃ m' n', (log_him mas inflates s m xn nrd e).1 = { s with mem := m', n := n' } := by
  unfold log_him
  simp only
  split
  · exact ⟨_, _, rfl⟩
  · exact ⟨_, _, rfl⟩

/-- What the callback of a socket receives; `none` is `abort`. -/
def heard (s : Slot) (ws : ws_s) (e : Input) : Option Int :=
  if ws.p = .WS_PROTO_REST then
    let m := grow 4096 s.mem s.n
    some (Rest.rest_recv ws m s.n (m.size - s.n) e.rd).ret
  else
    let m := grow 4000 s.mem s.n
    (ws_recv ws m s.n (m.size - s.n) e.rd).ret

/-- The state that `ws_cb` and `sio3_cb` leave, and whether the loop ends. -/
def verdict (nrd r : Int) (st : coin_st_t) : coin_st_t × Bool :=
  let st' := if st = COIN_ST_UNK then COIN_ST_CONN else st
  if nrd < 0 then (st, true)
  else if (asks st').isSome ∧ r < 0 then (st', true)
  else (upgrade st' r, false)

theorem io_cb_verdict (talks : coin_st_t → Bool) (e : Io) (c : Sock) :
    let r := io_cb talks e c
    (r.1.st, r.2) = verdict e.nrd e.r c.st ∧ r.1.ws = c.ws ∧ r.1.p = c.p ∧ r.1.watcher = c.watcher := by
  unfold io_cb verdict
  simp only
  split
  · exact ⟨rfl, rfl, rfl, rfl⟩
  · generalize hu : (if (c.use.act (.received e.nrd)).st = COIN_ST_UNK then
      { c.use.act (.received e.nrd) with st := COIN_ST_CONN } else c.use.act (.received e.nrd)) = u
    obtain ⟨hst, hws, hp, hwatcher⟩ : (if c.st = COIN_ST_UNK then COIN_ST_CONN else c.st) = u.st ∧
        u.ws = c.ws ∧ u.p = c.p ∧ u.watcher = c.watcher := by
      rw [← hu, Sock.act_st, Sock.use_st]
      split
      · exact ⟨rfl, rfl, rfl, rfl⟩
      · exact ⟨rfl, rfl, rfl, rfl⟩
    rw [hst, ← hws, ← hp, ← hwatcher]
    cases ha : asks u.st with
    | none =>
      have hup : upgrade u.st e.r = u.st := by
        cases hst : u.st <;> first | rfl | (rw [hst] at ha; cases ha)
      simp only [hup]
      split <;> simp
    | some k =>
      simp only
      split
      · simp [*]
      · split <;> simp [*]

theorem slot_verdict (mas : Massage) (inflates : Bool) (talk : coin_st_t → List (List Byte)) (s : Slot)
    (ws : ws_s) (hws : s.ws = some ws) (e : Input) (nrd : Int)
    (hnrd : (ws_recv ws (grow 4000 s.mem s.n) s.n ((grow 4000 s.mem s.n).size - s.n) e.rd).ret = some nrd)
    (hend : s.ended = false) :
    let r := (Snarf.io_cb mas inflates talk s e).1
    (r.st, r.ended) = verdict nrd e.r s.st ∧ ∃ ws', r.ws = some ws' ∧ ws'.p = ws.p := by
  have hp := ws_recv_p ws (grow 4000 s.mem s.n) s.n ((grow 4000 s.mem s.n).size - s.n) e.rd
  have hcases := io_cb_cases mas inflates talk s e ws hws
  simp only at hcases ⊢
  generalize (Snarf.io_cb mas inflates talk s e).1 = q at hcases ⊢
  generalize ws_recv ws (grow 4000 s.mem s.n) s.n ((grow 4000 s.mem s.n).size - s.n) e.rd = r
    at hp hnrd hcases
  unfold verdict
  change _ = (if nrd < 0 then _ else if (asks (entered s)).isSome = true ∧ e.r < 0 then (entered s, true)
    else (upgrade (entered s) e.r, false)) ∧ _
  rcases hcases with ⟨hneg, rfl⟩ | ⟨k, hr, hcases⟩
  · have hlt : nrd < 0 := by
      by_contra h
      obtain ⟨k, rfl⟩ := Int.eq_ofNat_of_zero_le (not_lt.mp h)
      exact hneg k hnrd
    rw [if_pos hlt]
    exact ⟨rfl, r.ws, rfl, hp⟩
  · obtain rfl := Option.some.inj (hnrd.symm.trans hr)
    rw [if_neg (not_lt.mpr (Int.natCast_nonneg k))]
    have hasked : (asks (entered s)).isSome = true ∧ e.r < 0 ↔ Fails s e := by
      unfold Fails
      rw [and_comm]
      cases entered s <;> simp [asks]
    rcases hcases with ⟨hf, rfl⟩ | ⟨hl, rfl⟩ | ⟨hf, hl, rfl⟩
    · rw [if_pos (hasked.mpr hf)]
      exact ⟨rfl, r.ws, rfl, hp⟩
    · obtain ⟨m', n', hq⟩ := log_him_kept mas inflates
        { s with ws := some r.ws, mem := r.mem, st := upgrade (entered s) e.r } r.mem (s.n + k) k e
      rw [if_neg fun h => hl.1 (hasked.mp h), hq]
      exact ⟨by rw [hend], r.ws, rfl, hp⟩
    · have hup : upgrade (entered s) e.r = entered s := by
        by_contra hne
        refine hl ⟨hf, ?_, ?_, ?_⟩
        all_goals
          intro h
          rw [h] at hne
          exact hne rfl
      rw [if_neg fun h => hf (hasked.mp h), hup]
      exact ⟨by rw [hend], r.ws, rfl, hp⟩

section
variable {c : Sock} {s : Slot} {ws : ws_s}

theorem Agree.verdict (h : Agree c s) (hws : s.ws = some ws) (v : coin_st_t × Bool) (c' : Sock × Bool)
    (s' : Slot)
    (hc : (c'.1.st, c'.2) = v ∧ c'.1.ws = c.ws ∧ c'.1.p = c.p ∧ c'.1.watcher = c.watcher)
    (hs : (s'.st, s'.ended) = v ∧ ∃ ws', s'.ws = some ws' ∧ ws'.p = ws.p) : AgreeEnd c' s' := by
  obtain ⟨hcv, hcws, hcp, hcw⟩ := hc
  obtain ⟨hsv, ws', hsws, hsp⟩ := hs
  obtain ⟨hst, hflag⟩ := Prod.mk.inj (hcv.trans hsv.symm)
  have hlive : c.ws.isSome = true := by
    rw [h.ws, hws]
    rfl
  refine ⟨⟨hst, ?_, ?_, ?_, ?_⟩, hflag⟩
  · rw [hcws, hlive, hsws]
    rfl
  · intro x hx
    rw [hsws] at hx
    rw [← Option.some.inj hx, hsp, hcp, h.p ws hws]
  · rw [hcw, hcws, h.watcher]
  · intro _
    rw [hcws, hlive]

theorem io_cb_agree (mas : Massage) (inflates : Bool) (talk : coin_st_t → List (List Byte))
    (talks : coin_st_t → Bool) (h : Agree c s) (hend : s.ended = false) (hws : s.ws = some ws) (e : Input)
    (nrd : Int) (hp : ws.p ≠ .WS_PROTO_REST) (hnrd : heard s ws e = some nrd) :
    AgreeEnd (io_cb talks ⟨nrd, e.r⟩ c) (Snarf.io_cb mas inflates talk s e).1 := by
  unfold heard at hnrd
  rw [if_neg hp] at hnrd
  have hc := io_cb_verdict talks ⟨nrd, e.r⟩ c
  rw [h.st] at hc
  exact h.verdict hws _ _ _ hc (slot_verdict mas inflates talk s ws hws e nrd hnrd hend)

theorem rest_cb_agree (mas : Massage) (h : Agree c s) (hend : s.ended = false) (hws : s.ws = some ws)
    (e : Input) (nrd : Int) (hp : ws.p = .WS_PROTO_REST) (hnrd : heard s ws e = some nrd) :
    AgreeEnd (rest_cb ⟨nrd, e.r⟩ c) (Snarf.rest_cb mas s e).1 := by
  have hrp := Rest.rest_recv_p ws (grow 4096 s.mem s.n) s.n ((grow 4096 s.mem s.n).size - s.n) e.rd
  unfold heard at hnrd
  rw [if_pos hp] at hnrd
  obtain rfl := Option.some.inj hnrd
  unfold rest_cb Snarf.rest_cb
  simp only [hws]
  generalize Rest.rest_recv ws (grow 4096 s.mem s.n) s.n ((grow 4096 s.mem s.n).size - s.n) e.rd = r at hrp ⊢
  split
  · exact ⟨⟨rfl, by simp, (fun _ h => by cases h), by simp, (fun h => by cases h)⟩, hend.symm⟩
  · refine h.verdict hws (c.st, false) _ _ ⟨rfl, rfl, rfl, rfl⟩ ⟨?_, r.ws, rfl, hrp⟩
    rw [h.st, ← hend]

theorem callback_agree (mas : Massage) (h : Agree c s) (hend : s.ended = false) (hws : s.ws = some ws)
    (e : Input) (nrd : Int) (hnrd : heard s ws e = some nrd) :
    AgreeEnd (callback ⟨nrd, e.r⟩ c) (Snarf.callback mas s e).1 := by
  have hp := h.p ws hws
  unfold callback Snarf.callback
  rw [hws, Option.map_some, ← hp]
  cases hq : ws.p
  case WS_PROTO_REST => exact rest_cb_agree mas h hend hws e nrd hq hnrd
  all_goals exact io_cb_agree mas _ _ _ h hend hws e nrd (by simp [hq]) hnrd

end

/-! ## Any run -/

/-- What a step does to the socket of the loop, when `s` has the buffer. A watcher is on as long as
there is a handle. -/
def follow (s : Slot) (c : Sock × Bool) (x : Step) : Sock × Bool :=
  if c.2 then c
  else
    match x with
    | .prepare t => prepare t c.1
    | .callback e =>
      match s.ws with
      | none => c
      | some ws => callback ⟨(heard s ws e).getD 0, e.r⟩ c.1
    | .hbeat _ nodata => (hbeat_cb ⟨0, nodata⟩ c.1, false)
    | .sigint _ => (sigint_cb c.1, false)

/-- The socket and the one with the buffer, side by side. -/
def beside (mas : Massage) (q : (Sock × Bool) × Slot) (x : Step) : (Sock × Bool) × Slot :=
  (follow q.2 q.1 x, (step mas q.2 x).1)

/-- `ws_open` gives what `guess_proto` says, and `ws_recv` does not abort. -/
def Fits (p : ws_proto_t) (s : Slot) : Step → Prop
  | .prepare t => ∀ p', t.opened = some p' → p' = p
  | .callback e => ∀ ws, s.ws = some ws → (heard s ws e).isSome = true
  | .hbeat _ _ => True
  | .sigint _ => True

theorem step_agree (mas : Massage) (c : Sock × Bool) (s : Slot) (x : Step) (h : AgreeEnd c s)
    (hfits : Fits c.1.p s x) : AgreeEnd (follow s c x) (step mas s x).1 := by
  obtain ⟨hagree, hflag⟩ := h
  unfold step follow
  cases hend : s.ended with
  | true =>
    rw [if_pos (hflag.trans hend)]
    exact ⟨hagree, hflag⟩
  | false =>
    rw [if_neg (by simp [hflag, hend])]
    cases x with
    | prepare t => exact prepare_agree t hagree hend hfits
    | callback e =>
      simp only [Bool.false_eq_true, if_false]
      cases hws : s.ws with
      | none =>
        have hidle : (Snarf.callback mas s e).1 = s := by
          unfold Snarf.callback
          rw [hws]
          rfl
        rw [hidle]
        exact ⟨hagree, hflag⟩
      | some ws =>
        obtain ⟨nrd, hnrd⟩ := Option.isSome_iff_exists.mp (hfits ws hws)
        simp only [hnrd, Option.getD_some]
        exact callback_agree mas hagree hend hws e nrd hnrd
    | hbeat t nodata =>
      unfold hbeat_cb
      cases nodata with
      | true => exact ⟨⟨rfl, hagree.ws, hagree.p, hagree.watcher, (fun h => by cases h)⟩, rfl⟩
      | false => exact ⟨⟨hagree.st, hagree.ws, hagree.p, hagree.watcher, hagree.live⟩, rfl⟩
    | sigint t => exact ⟨⟨rfl, hagree.ws, hagree.p, hagree.watcher, (fun h => by cases h)⟩, rfl⟩

theorem follow_p (s : Slot) (c : Sock × Bool) (x : Step) : (follow s c x).1.p = c.1.p := by
  unfold follow
  split
  · rfl
  · cases x with
    | prepare t => exact prepare_p t c.1
    | callback e =>
      cases s.ws with
      | none => rfl
      | some ws => exact callback_p _ c.1
    | hbeat t nodata => exact hbeat_cb_p _ c.1
    | sigint t => rfl

theorem run_agree (mas : Massage) (p : ws_proto_t) (inflate : Bool) (steps : List Step) :
    let runs := fun l : List Step => l.foldl (beside mas) ((.init p, false), .init inflate)
    Always (fun pre x => Fits p (runs pre).2 x) steps → AgreeEnd (runs steps).1 (runs steps).2 := by
  intro runs hfits
  have hp : (runs steps).1.1.p = p ∧ AgreeEnd (runs steps).1 (runs steps).2 := by
    induction steps using List.reverseRecOn with
    | nil => exact ⟨rfl, Agree.init p inflate, rfl⟩
    | append_singleton steps x ih =>
      obtain ⟨hall, hx⟩ := (always_concat _ _ _).mp hfits
      obtain ⟨hp, hagree⟩ := ih hall
      have hrun : runs (steps ++ [x]) = beside mas (runs steps) x := List.foldl_concat ..
      rw [hrun]
      refine ⟨(follow_p _ _ x).trans hp, ?_⟩
      exact step_agree mas _ _ x hagree (hp.symm ▸ hx)
  exact hp.2

end Coins.Snarf.Control
