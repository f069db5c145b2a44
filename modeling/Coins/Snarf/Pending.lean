import Coins.Snarf.Failure

/-!
# What is pending when the state changes

`prepare` empties the session buffer on the way from connected to authenticated, and from there to
joined. What was not logged until then is lost.
-/

open Coins.Memory Coins.Lines Coins.Numeral Coins.Transducer Coins.Ws

namespace Coins.Snarf

open coin_st_t

/-- The bytes that have not been logged. -/
def pending (s : Slot) : List Byte := s.mem.view INI_GBOF (s.n - INI_GBOF)

/-- The connection was there before the step, and is there afterwards. -/
def Stays (t : Turn) (s : Slot) : Prop := s.st ≠ COIN_ST_UNK ∧ (prepare t s).ws = s.ws

/-- The step comes by `COIN_ST_CONND` or `COIN_ST_AUTHD`. -/
def Resets (t : Turn) (s : Slot) : Prop :=
  match s.st with
  | COIN_ST_CONND | COIN_ST_AUTHD => True
  | COIN_ST_CONN => 0 < t.conn
  | COIN_ST_AUTH => s.rest = true ∨ 0 < t.auth
  | _ => False

namespace prepare

variable (t : Turn) (s : Slot)

theorem pending_joind : pending (joind t s) = pending s := by
  unfold joind disc
  split <;> rfl

theorem pending_join : pending (join t s) = pending s := by
  unfold join
  split
  · exact pending_joind t _
  · split
    · rfl
    · split
      · rfl
      · exact pending_joind t _

theorem pending_authd : pending (authd t s) = [] := by
  unfold authd
  rw [pending_join]
  rfl

theorem pending_auth :
    pending (auth t s) = if s.rest = true ∨ 0 < t.auth then [] else pending s := by
  unfold auth
  by_cases hrest : s.rest = true
  · rw [if_pos hrest, if_pos (Or.inl hrest), pending_authd]
  · rw [if_neg hrest]
    by_cases hauth : 0 < t.auth
    · rw [if_neg (by omega), if_neg (by omega), if_pos (Or.inr hauth), pending_authd]
    · rw [if_neg (not_or.mpr ⟨hrest, hauth⟩)]
      by_cases hneg : t.auth < 0
      · rw [if_pos hneg]
        rfl
      · rw [if_neg hneg, if_pos (by omega)]

theorem pending_connd : pending (connd t s) = [] := by
  unfold connd
  rw [pending_auth]
  split <;> rfl

theorem pending_conn : pending (conn t s) = if 0 < t.conn then [] else pending s := by
  unfold conn
  by_cases hconn : 0 < t.conn
  · rw [if_neg (by omega), if_neg (by omega), if_pos hconn, pending_connd]
  · rw [if_neg hconn]
    by_cases hneg : t.conn < 0
    · rw [if_pos hneg]
      rfl
    · rw [if_neg hneg, if_pos (by omega)]

end prepare

theorem pending_prepare (t : Turn) (s : Slot) (h : s.st ≠ COIN_ST_UNK) :
    (Resets t s → pending (prepare t s) = []) ∧ (¬ Resets t s → pending (prepare t s) = pending s) := by
  unfold prepare Resets
  cases hst : s.st with
  | COIN_ST_UNK => exact absurd hst h
  | COIN_ST_CONN =>
    dsimp only
    rw [prepare.pending_conn]
    exact ⟨fun hc => if_pos hc, fun hc => if_neg hc⟩
  | COIN_ST_CONND => exact ⟨fun _ => prepare.pending_connd t s, fun hc => absurd trivial hc⟩
  | COIN_ST_AUTH =>
    dsimp only
    rw [prepare.pending_auth]
    exact ⟨fun hc => if_pos hc, fun hc => if_neg hc⟩
  | COIN_ST_AUTHD => exact ⟨fun _ => prepare.pending_authd t s, fun hc => absurd trivial hc⟩
  | COIN_ST_JOIN => exact ⟨fun hc => hc.elim, fun _ => prepare.pending_join t s⟩
  | COIN_ST_JOIND => exact ⟨fun hc => hc.elim, fun _ => prepare.pending_joind t s⟩
  | COIN_ST_NODATA => exact ⟨fun hc => hc.elim, fun _ => rfl⟩
  | COIN_ST_INTR => exact ⟨fun hc => hc.elim, fun _ => rfl⟩
  | COIN_ST_FINI => exact ⟨fun hc => hc.elim, fun _ => rfl⟩

/-! ## Runs -/

/-- A turn of `prepare` on a connection that stays leaves what is pending alone. -/
def KeepsPending (s : Slot) : Step → Prop
  | .prepare t => s.ended = false → Stays t s → pending (prepare t s) = pending s
  | _ => True

/-- Nothing is pending when such a turn comes by `COIN_ST_CONND` or `COIN_ST_AUTHD`. -/
def NonePending (s : Slot) : Step → Prop
  | .prepare t => s.ended = false → Stays t s → Resets t s → pending s = []
  | _ => True

theorem keeps_pending_iff (s : Slot) (x : Step) : KeepsPending s x ↔ NonePending s x := by
  cases x with
  | prepare t =>
    refine forall_congr' fun _ => forall_congr' fun hstays => ?_
    obtain ⟨hlost, hkept⟩ := pending_prepare t s hstays.1
    by_cases hresets : Resets t s
    · rw [hlost hresets]
      exact ⟨fun h _ => h.symm, fun h => (h hresets).symm⟩
    · exact ⟨fun _ h => absurd h hresets, fun _ => hkept hresets⟩
  | callback e => exact Iff.rfl
  | hbeat t nodata => exact Iff.rfl
  | sigint t => exact Iff.rfl

/-! ## A turn on a connection -/

/-- A turn ends the run, or the connection stays, and the buffer but for its fill. -/
structure Turned (s s' : Slot) : Prop where
  ws : s'.ws = s.ws
  mem : s'.mem = s.mem
  st : s'.st ≠ COIN_ST_UNK
  n : s'.n = s.n ∨ s'.n = INI_GBOF

def Goes (s s' : Slot) : Prop := s'.ended = true ∨ Turned s s'

theorem Turned.refl {s : Slot} (h : s.st ≠ COIN_ST_UNK) : Turned s s := ⟨rfl, rfl, h, Or.inl rfl⟩

theorem Goes.after {s u s' : Slot} (h : Turned s u) (h' : Goes u s') : Goes s s' := by
  rcases h' with hend | h'
  · exact Or.inl hend
  · refine Or.inr ⟨h'.ws.trans h.ws, h'.mem.trans h.mem, h'.st, ?_⟩
    rcases h'.n with hn | hn
    · rw [hn]
      exact h.n
    · exact Or.inr hn

namespace prepare

variable (t : Turn) (s : Slot)

theorem joind_goes (h : s.st ≠ COIN_ST_UNK) : Goes s (joind t s) := by
  unfold joind
  split
  · exact Or.inr (.refl h)
  · exact Or.inl rfl

theorem join_goes (h : s.st ≠ COIN_ST_UNK) : Goes s (join t s) := by
  have hturned : Turned s { s with st := COIN_ST_JOIND } := ⟨rfl, rfl, nofun, Or.inl rfl⟩
  have hjoind := Goes.after hturned (joind_goes t _ hturned.st)
  unfold join
  split
  · exact hjoind
  · split
    · exact Or.inr ⟨rfl, rfl, nofun, Or.inl rfl⟩
    · split
      · exact Or.inr (.refl h)
      · exact hjoind

theorem authd_goes : Goes s (authd t s) := by
  have hturned : Turned s { s with n := INI_GBOF, st := COIN_ST_JOIN } := ⟨rfl, rfl, nofun, Or.inr rfl⟩
  exact Goes.after hturned (join_goes t _ hturned.st)

theorem auth_goes (h : s.st ≠ COIN_ST_UNK) : Goes s (auth t s) := by
  unfold auth
  split
  · exact authd_goes t s
  · split
    · exact Or.inr ⟨rfl, rfl, nofun, Or.inl rfl⟩
    · split
      · exact Or.inr (.refl h)
      · exact authd_goes t s

theorem connd_goes : Goes s (connd t s) := by
  have hturned : Turned s { s with n := INI_GBOF, st := COIN_ST_AUTH } := ⟨rfl, rfl, nofun, Or.inr rfl⟩
  exact Goes.after hturned (auth_goes t _ hturned.st)

theorem conn_goes (h : s.st ≠ COIN_ST_UNK) : Goes s (conn t s) := by
  unfold conn
  split
  · exact Or.inl rfl
  · split
    · exact Or.inr (.refl h)
    · exact connd_goes t s

end prepare

theorem prepare_goes (t : Turn) (s : Slot) (h : s.st ≠ COIN_ST_UNK) : Goes s (prepare t s) := by
  unfold prepare
  cases hst : s.st with
  | COIN_ST_UNK => exact absurd hst h
  | COIN_ST_CONN => exact prepare.conn_goes t s h
  | COIN_ST_CONND => exact prepare.connd_goes t s
  | COIN_ST_AUTH => exact prepare.auth_goes t s h
  | COIN_ST_AUTHD => exact prepare.authd_goes t s
  | COIN_ST_JOIN => exact prepare.join_goes t s h
  | COIN_ST_JOIND => exact prepare.joind_goes t s h
  | COIN_ST_NODATA => exact Or.inl rfl
  | COIN_ST_INTR => exact Or.inl rfl
  | COIN_ST_FINI => exact Or.inl rfl

end Coins.Snarf
