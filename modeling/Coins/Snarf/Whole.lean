import Coins.Rest.Reads
import Coins.Snarf.Inflate

/-!
# Lines across states

A line may arrive partly in one state and partly in another. Where nothing is pending when `prepare` empties the
session buffer, all lines are logged whole, however they are spread over the states.
-/

open Coins.Memory Coins.Lines Coins.Numeral Coins.Transducer Coins.Ws

namespace Coins.Snarf

open coin_st_t

/-! ## What arrives -/

/-- What `rest_recv` does in a callback. -/
def rest_recvd (s : Slot) (e : Input) (ws : ws_s) : Rest.Received :=
  Rest.rest_recv ws (grow 4096 s.mem s.n) s.n ((grow 4096 s.mem s.n).size - s.n) e.rd

/-- A line break comes in front of what is inflated. -/
def leads (s : Slot) (e : Input) : Bool := (appended s e).head? = some nl

/-- What a callback puts behind what is pending. -/
def arrived (s : Slot) (e : Input) : List Byte :=
  match s.ws with
  | none => []
  | some ws =>
    match ws.p with
    | .WS_PROTO_REST => (rest_recvd s e ws).text s.n
    | .WS_PROTO_SIO3 => appended s e
    | _ => if s.inflate then brk (leads s e) ++ e.inflated.getD [] else appended s e

/-- Bytes are received, and there is room for a stamp left behind them. -/
def WsTakes (s : Slot) (e : Input) (ws : ws_s) : Prop :=
  Logs s e ∧ ∃ k : Nat, (recvd s e ws).ret = some (k : Int) ∧ s.n + k + INI_GBOF ≤ (grow 4000 s.mem s.n).size

/-- Something is received, and it inflates. -/
def Inflates (s : Slot) (e : Input) (ws : ws_s) : Prop :=
  Logs s e ∧ (∃ k : Nat, (recvd s e ws).ret = some (k : Int)) ∧ appended s e ≠ [] ∧ e.inflated ≠ none

/-- Bytes are received, a length that is announced is not below 0, and there is room for a stamp left behind them. -/
def RestTakes (s : Slot) (e : Input) (ws : ws_s) : Prop :=
  let m := grow 4096 s.mem s.n
  Rest.Positive ws m s.n (e.rd.take (m.size - s.n)) ∧
    ∃ k : Nat, (rest_recvd s e ws).ret = k ∧ s.n + k + INI_GBOF ≤ (rest_recvd s e ws).mem.size

/-- A callback finds what it can log, at a time of ten digits. -/
def Arrives (s : Slot) : Step → Prop
  | .callback e => s.ended = false → ∀ ws, s.ws = some ws → e.tsp.Ten ∧
    match ws.p with
    | .WS_PROTO_REST => RestTakes s e ws
    | .WS_PROTO_SIO3 => WsTakes s e ws
    | _ => if s.inflate then Inflates s e ws else WsTakes s e ws
  | _ => True

/-! ## What is pending -/

/-- A connection whose session buffer has the unfinished line `l`. -/
structure Upholds (s : Slot) (l : List Byte) : Prop where
  st : s.st ≠ COIN_ST_UNK
  ws : ∃ ws, s.ws = some ws ∧ (ws.p ≠ .WS_PROTO_REST → Good ws)
  sized : Sized s.mem s.n
  fill : s.n = INI_GBOF + l.length
  view : s.mem.view INI_GBOF l.length = l

/-- Between two steps: the run is over, or there is no connection yet, or there is one. -/
inductive Carries (s : Slot) (l : List Byte) : Prop
  | finished (h : s.ended = true)
  | fresh (hst : s.st = COIN_ST_UNK ∨ s.st = COIN_ST_NODATA ∨ s.st = COIN_ST_INTR) (hws : s.ws = none)
      (hn : s.n ≤ INI_GBOF) (hsize : s.mem.size = 0 ∨ 4096 ≤ s.mem.size) (hl : l = [])
  | held (h : Upholds s l)

theorem Upholds.pending {s : Slot} {l : List Byte} (h : Upholds s l) : pending s = l := by
  unfold Snarf.pending
  rw [h.fill, Nat.add_sub_cancel_left]
  exact h.view

theorem Carries.pending {s : Slot} {l : List Byte} (h : Carries s l) (hend : s.ended = false) : pending s = l := by
  cases h with
  | finished h => exact absurd (h.symm.trans hend) nofun
  | fresh hst hws hn hsize hl =>
    unfold Snarf.pending
    rw [hl, Nat.sub_eq_zero_of_le hn]
    rfl
  | held h => exact h.pending

/-- A turn that leaves what is pending alone. -/
theorem Upholds.turned {s s' : Slot} {l : List Byte} (h : Upholds s l) (ht : Turned s s')
    (hp : Snarf.pending s' = l) : Upholds s' l := by
  have hsize : s'.mem.size = s.mem.size := by rw [ht.mem]
  have hsized := h.sized
  have hfill := h.fill
  have hn := ht.n
  have hini : INI_GBOF ≤ s'.n := by omega
  have hlen : l.length = s'.n - INI_GBOF := by
    rw [← hp]
    exact Mem.view_length ..
  refine ⟨ht.st, ?_, ?_, by omega, ?_⟩
  · rw [ht.ws]
    exact h.ws
  · unfold Sized at *
    omega
  · rw [hlen]
    exact hp

theorem opened_carries (t : Turn) (s : Slot) (p : ws_proto_t) (hsize : s.mem.size = 0 ∨ 4096 ≤ s.mem.size) :
    Carries (prepare.conn t { s with ws := some (ws_s.init p), n := INI_GBOF, st := COIN_ST_CONN }) [] := by
  have hholds : Upholds { s with ws := some (ws_s.init p), n := INI_GBOF, st := COIN_ST_CONN } [] :=
    ⟨nofun, ⟨_, rfl, fun _ => good_init p⟩, sized_ini s.mem hsize, rfl, rfl⟩
  have hgoes := prepare.conn_goes t { s with ws := some (ws_s.init p), n := INI_GBOF, st := COIN_ST_CONN } nofun
  rcases hgoes with hover | ht
  · exact .finished hover
  · refine .held (hholds.turned ht ?_)
    rw [prepare.pending_conn]
    split
    · rfl
    · exact hholds.pending

/-- **A turn loses nothing** where nothing is pending when the buffer is emptied. -/
theorem prepare_carries (t : Turn) (s : Slot) (l : List Byte) (hend : s.ended = false) (h : Carries s l)
    (hnone : NonePending s (.prepare t)) : Carries (prepare t s) l := by
  cases h with
  | finished h => exact absurd (h.symm.trans hend) nofun
  | fresh hst hws hn hsize hl =>
    unfold prepare
    rcases hst with hst | hst | hst
    · rw [hst]
      dsimp only
      unfold prepare.unk
      cases t.opened with
      | none => exact .finished rfl
      | some p => exact hl ▸ opened_carries t s p hsize
    · rw [hst]
      exact .finished rfl
    · rw [hst]
      exact .finished rfl
  | held h =>
    rcases prepare_goes t s h.st with hover | ht
    · exact .finished hover
    · refine .held (h.turned ht ?_)
      obtain ⟨hlost, hkept⟩ := pending_prepare t s h.st
      by_cases hresets : Resets t s
      · rw [hlost hresets, ← h.pending]
        exact (hnone hend ⟨h.st, ht.ws⟩ hresets).symm
      · rw [hkept hresets]
        exact h.pending

/-! ## Callbacks -/

/-- The complete lines of `a` are logged, and the unfinished one is kept. -/
def Logged (t : Clock) (a : List Byte) (r : Slot × List Out) : Prop :=
  Upholds r.1 (rest nl a) ∧ logged r.2 = (lines nl a).map (record t)

theorem shift_logged (s : Slot) (outs : List Out) {t : Clock} {m : Mem Byte} {a : List Byte} {xn : Nat} (ht : t.Ten)
    (hxn : xn = INI_GBOF + a.length) (hview : m.view INI_GBOF a.length = a) (hbig : 4096 ≤ m.size)
    (hroom : xn ≤ m.size) (hst : s.st ≠ COIN_ST_UNK)
    (hws : ∃ ws, s.ws = some ws ∧ (ws.p ≠ .WS_PROTO_REST → Good ws)) (houts : logged outs = []) :
    let q := log_and_shift massage t m xn
    Logged t a ({ s with mem := q.1, n := q.2.1 }, outs ++ q.2.2) := by
  intro q
  obtain ⟨hrest, hn, hout, hsame⟩ := shift_spec t m a xn ht hxn hview
  have hle : (rest nl a).length ≤ a.length := rest_length_le a
  refine ⟨⟨hst, hws, Or.inr ⟨hbig.trans hsame.ge, ?_⟩, hn, hrest⟩, ?_⟩
  · change q.2.1 ≤ q.1.size
    rw [hsame, hn]
    omega
  · rw [logged_append, houts, hout, logged_map]
    rfl

section
variable {s : Slot} {e : Input} {ws : ws_s} {l : List Byte} (hs : Upholds s l) (hws : s.ws = some ws) (hten : e.tsp.Ten)

include hs hws hten

theorem io_cb_logged (hp : ws.p ≠ .WS_PROTO_REST) (talk : coin_st_t → List (List Byte)) (h : WsTakes s e ws) :
    Logged e.tsp (l ++ appended s e) (io_cb massage false talk s e) := by
  obtain ⟨hlogs, k, hret, hroom⟩ := h
  obtain ⟨ws', hws', hgood⟩ := hs.ws
  obtain rfl : ws = ws' := Option.some.inj (hws ▸ hws')
  obtain ⟨hk, hview, hgood', hsize⟩ := recvd_view s e ws l k hs.fill hs.sized hs.view hws (hgood hp) hret
  obtain ⟨hfree, -⟩ := grow_size 4000 s.mem s.n hs.sized (by omega) (by omega)
  have hgrown : (recvd s e ws).mem.size = (grow 4000 s.mem s.n).size :=
    (ws_recv_bounded ws (grow 4000 s.mem s.n) s.n _ e.rd (hgood hp) (by omega)).mem.size
  have hfill := hs.fill
  have hcb := io_cb_logs massage false talk s e ws k hws hlogs hret
  simp only [log_him, Bool.false_eq_true, if_false] at hcb
  rw [hcb, ← List.append_assoc]
  refine shift_logged { s with ws := some (recvd s e ws).ws, st := upgrade (entered s) e.r } _ hten ?_ hview hsize
    (by omega) (upgrade_ne_unk _ _ (entered_ne s)) ⟨_, rfl, fun _ => hgood'⟩ ?_
  · rw [List.length_append, ← hk]
    omega
  · rw [logged_append, logged_sent, logged_sent]
    rfl

theorem inflating_logged (hp : ws.p ≠ .WS_PROTO_REST) (hinf : s.inflate = true) (h : Inflates s e ws) :
    Logged e.tsp (l ++ (brk (leads s e) ++ e.inflated.getD [])) (ws_cb massage s e) := by
  obtain ⟨hlogs, ⟨k, hret⟩, hcame, hinflated⟩ := h
  obtain ⟨t, ht⟩ := Option.ne_none_iff_exists'.mp hinflated
  obtain ⟨ws', hws', hgood⟩ := hs.ws
  obtain rfl : ws = ws' := Option.some.inj (hws ▸ hws')
  obtain ⟨hk, hview, hgood', hsize⟩ := recvd_view s e ws l k hs.fill hs.sized hs.view hws (hgood hp) hret
  obtain ⟨d, hd, hsome⟩ :
      ∃ d, appended s e = brk (leads s e) ++ d ∧ (leads s e = false → d ≠ [] ∧ d.head? ≠ some nl) := by
    unfold leads
    cases happ : appended s e with
    | nil => exact absurd happ hcame
    | cons b d =>
      by_cases hb : b = nl
      · subst hb
        exact ⟨d, by simp [brk], by simp⟩
      · exact ⟨b :: d, by simp [brk, hb], by simp [hb]⟩
  rw [hd] at hview hk
  obtain ⟨m', hplace, hview', hfit, hgrown⟩ := inflate_view (recvd s e ws).mem l d t (leads s e) hview hsome
  rw [← hk, ← hs.fill] at hplace
  have hcb := ws_cb_logs massage s e ws k hws hlogs hret
  simp only [log_him, hinf, if_true, ht, hplace] at hcb
  rw [hcb, ht, Option.getD_some, ← List.append_assoc]
  exact shift_logged { s with ws := some (recvd s e ws).ws, inflate := true, st := upgrade (entered s) e.r } _
    hten rfl hview' (hsize.trans hgrown) hfit (upgrade_ne_unk _ _ (entered_ne s)) ⟨_, rfl, fun _ => hgood'⟩
    (logged_sent _)

theorem rest_cb_logged (hp : ws.p = .WS_PROTO_REST) (h : RestTakes s e ws) :
    Logged e.tsp (l ++ (rest_recvd s e ws).text s.n) (rest_cb massage s e) := by
  obtain ⟨hpositive, k, hret, hroom⟩ := h
  obtain ⟨hfree, hbig⟩ := grow_size 4096 s.mem s.n hs.sized (by omega) (by omega)
  obtain ⟨hsize, hcell⟩ := Rest.rest_recv_untouched ws (grow 4096 s.mem s.n) s.n
    ((grow 4096 s.mem s.n).size - s.n) e.rd (by omega) hpositive
  have hgrown := grow_cell 4096 s.mem s.n
  have hfill := hs.fill
  have hrp := Rest.rest_recv_p ws (grow 4096 s.mem s.n) s.n ((grow 4096 s.mem s.n).size - s.n) e.rd
  have htext : (rest_recvd s e ws).text s.n = (rest_recvd s e ws).mem.view s.n k := by
    unfold Rest.Received.text
    rw [hret]
    rfl
  have hcb : rest_cb massage s e = ({ s with
      ws := some (rest_recvd s e ws).ws
      mem := (log_and_shift massage e.tsp (rest_recvd s e ws).mem (s.n + k)).1
      n := (log_and_shift massage e.tsp (rest_recvd s e ws).mem (s.n + k)).2.1 },
      (log_and_shift massage e.tsp (rest_recvd s e ws).mem (s.n + k)).2.2) := by
    have hneg : ¬ (rest_recvd s e ws).ret < 0 := by omega
    have hnat : (rest_recvd s e ws).ret.toNat = k := by omega
    unfold rest_cb
    rw [hws]
    unfold rest_recvd at hneg hnat ⊢
    simp only
    rw [if_neg hneg, hnat]
  rw [hcb, htext]
  refine shift_logged { s with ws := some (rest_recvd s e ws).ws } [] hten ?_ ?_ ?_ ?_ hs.st
    ⟨_, rfl, fun hne => absurd (hrp.trans hp) hne⟩ rfl
  · rw [List.length_append, Mem.view_length]
    omega
  · rw [List.length_append, Mem.view_length, Mem.view_append]
    have hold : (rest_recvd s e ws).mem.view INI_GBOF l.length = l := by
      rw [Mem.view_congr s.mem _ _ _ fun i _ hi => ?_]
      · exact hs.view
      · exact (hcell i (by omega)).trans (by rw [hgrown])
    have haddr : (INI_GBOF : Int) + (l.length : Nat) = s.n := by omega
    rw [hold, haddr]
  · exact hbig.trans hsize.ge
  · omega

end

theorem callback_carries (s : Slot) (e : Input) (l : List Byte) (hend : s.ended = false) (h : Carries s l)
    (harr : Arrives s (.callback e)) :
    let r := callback massage s e
    let a := l ++ arrived s e
    Carries r.1 (rest nl a) ∧ logged r.2 = (lines nl a).map (record e.tsp) := by
  cases h with
  | finished h => exact absurd (h.symm.trans hend) nofun
  | fresh hst hws hn hsize hl =>
    have hnone : callback massage s e = (s, []) := by
      unfold callback
      rw [hws]
      rfl
    have hcame : arrived s e = [] := by
      unfold arrived
      rw [hws]
    rw [hnone, hcame, hl]
    exact ⟨.fresh hst hws hn hsize rfl, rfl⟩
  | held h =>
    obtain ⟨ws, hws, -⟩ := h.ws
    obtain ⟨hten, hcame⟩ := harr hend ws hws
    have hlogged : Logged e.tsp (l ++ arrived s e) (callback massage s e) := by
      unfold arrived callback
      rw [hws]
      simp only [Option.map_some]
      cases hp : ws.p with
      | WS_PROTO_REST =>
        rw [hp] at hcame
        exact rest_cb_logged h hws hten hp hcame
      | WS_PROTO_SIO3 =>
        rw [hp] at hcame
        exact io_cb_logged h hws hten (by rw [hp]; nofun) sio3_talk hcame
      | _ =>
        rw [hp] at hcame
        simp only at hcame ⊢
        by_cases hinf : s.inflate = true
        · rw [if_pos hinf] at hcame ⊢
          exact inflating_logged h hws hten (by rw [hp]; nofun) hinf hcame
        · rw [if_neg hinf] at hcame ⊢
          unfold ws_cb
          rw [Bool.eq_false_iff.mpr hinf]
          exact io_cb_logged h hws hten (by rw [hp]; nofun) _ hcame
    exact ⟨.held hlogged.1, hlogged.2⟩

/-! ## Runs -/

/-- What a step puts behind what is pending. -/
def came (s : Slot) : Step → List Byte
  | .callback e => if s.ended then [] else arrived s e
  | _ => []

/-- All that arrives in a run. -/
def arrivals (s : Slot) : List Step → List Byte
  | [] => []
  | x :: xs => came s x ++ arrivals (step massage s x).1 xs

/-- The records of lines that a step logs. -/
def recorded (s : Slot) (x : Step) : List (List Byte) :=
  match x with
  | .callback _ => logged (step massage s x).2
  | _ => []

def records (s : Slot) : List Step → List (List Byte)
  | [] => []
  | x :: xs => recorded s x ++ records (step massage s x).1 xs

/-- A state set from outside is not the one in which a connection is opened. -/
theorem Carries.state {s : Slot} {l : List Byte} (h : Carries s l) {st : coin_st_t}
    (hst : st = s.st ∨ st = COIN_ST_NODATA ∨ st = COIN_ST_INTR) : Carries { s with st := st } l := by
  cases h with
  | finished h => exact .finished h
  | fresh hfresh hws hn hsize hl =>
    refine .fresh ?_ hws hn hsize hl
    rcases hst with rfl | hst
    · exact hfresh
    · exact Or.inr hst
  | held h =>
    refine .held ⟨?_, h.ws, h.sized, h.fill, h.view⟩
    rcases hst with rfl | rfl | rfl
    · exact h.st
    · exact nofun
    · exact nofun

theorem step_carries (s : Slot) (x : Step) (l : List Byte) (h : Carries s l) (hl : nl ∉ l) (hnone : NonePending s x)
    (harr : Arrives s x) :
    Carries (step massage s x).1 (rest nl (l ++ came s x)) ∧
      List.Forall₂ (fun line out => ∃ e, x = .callback e ∧ out = record e.tsp line) (lines nl (l ++ came s x))
        (recorded s x) := by
  have hquiet : came s x = [] → recorded s x = [] → Carries (step massage s x).1 l →
      Carries (step massage s x).1 (rest nl (l ++ came s x)) ∧
        List.Forall₂ (fun line out => ∃ e, x = .callback e ∧ out = record e.tsp line) (lines nl (l ++ came s x))
          (recorded s x) := by
    intro hcame hrecorded hcarries
    rw [hcame, hrecorded, List.append_nil, lines_of_not_mem l hl, rest_of_not_mem l hl]
    exact ⟨hcarries, .nil⟩
  by_cases hend : s.ended = true
  · refine hquiet ?_ ?_ ?_
    · cases x <;> simp [came, hend]
    · cases x <;> simp [recorded, step, hend, logged]
    · unfold step
      rw [if_pos hend]
      exact h
  · have hgoes : ¬ s.ended = true := hend
    replace hend : s.ended = false := Bool.eq_false_iff.mpr hend
    cases x with
    | prepare t =>
      refine hquiet rfl rfl ?_
      rw [step, if_neg hgoes]
      exact prepare_carries t s l hend h hnone
    | callback e =>
      obtain ⟨hcarries, hout⟩ := callback_carries s e l hend h harr
      have hcame : came s (.callback e) = arrived s e := if_neg hgoes
      unfold recorded
      rw [step, if_neg hgoes, hcame]
      refine ⟨hcarries, ?_⟩
      rw [hout, List.forall₂_map_right_iff, List.forall₂_same]
      exact fun line _ => ⟨e, rfl, rfl⟩
    | hbeat t nodata =>
      refine hquiet rfl rfl ?_
      rw [step, if_neg hgoes]
      refine h.state ?_
      cases nodata with
      | true => exact Or.inr (Or.inl rfl)
      | false => exact Or.inl rfl
    | sigint t =>
      refine hquiet rfl rfl ?_
      rw [step, if_neg hgoes]
      exact h.state (Or.inr (Or.inr rfl))

theorem steps_carry (s : Slot) (xs : List Step) (l : List Byte) (h : Carries s l) (hl : nl ∉ l)
    (hnone : Each (step massage) NonePending s xs) (harr : Each (step massage) Arrives s xs) :
    let a := l ++ arrivals s xs
    Carries (feed (step massage) s xs).1 (rest nl a) ∧
      List.Forall₂ (fun line out => ∃ e, .callback e ∈ xs ∧ out = record e.tsp line) (lines nl a) (records s xs) := by
  induction xs generalizing s l with
  | nil =>
    intro a
    have ha : a = l := List.append_nil l
    rw [ha, lines_of_not_mem l hl, rest_of_not_mem l hl]
    exact ⟨h, .nil⟩
  | cons x xs ih =>
    intro a
    obtain ⟨hhead, hout⟩ := step_carries s x l h hl hnone.1 harr.1
    obtain ⟨htail, houts⟩ := ih (step massage s x).1 (rest nl (l ++ came s x)) hhead (not_mem_rest _) hnone.2 harr.2
    have ha : a = l ++ came s x ++ arrivals (step massage s x).1 xs := (List.append_assoc _ _ _).symm
    rw [ha, lines_append, rest_append, feed_cons]
    refine ⟨htail, List.rel_append (hout.imp ?_) (houts.imp ?_)⟩
    · rintro line out ⟨e, rfl, h⟩
      exact ⟨e, List.mem_cons_self, h⟩
    · rintro line out ⟨e, he, h⟩
      exact ⟨e, List.mem_cons_of_mem _ he, h⟩

/-- A turn of a raw connection on which the coin's actions return these. -/
def turn (conn auth join : Int) : Step := .prepare ⟨some .WS_PROTO_RAW, conn, auth, join, false⟩

/-- A line comes before and after the move from waiting for the channel to having joined it. -/
def joining : List Step :=
  [turn 1 1 0, .callback (taken 0 ([0x01, 12] ++ ascii "Hello, world")), turn 0 0 1,
    .callback (taken 0 ([0x81, 13] ++ ascii " of feeds\nabc"))]

end Coins.Snarf
