import Coins.Snarf.Timed
import Mathlib.Tactic.NormNum

/-!
# Inactivity

A socket is given up for inactivity by the heartbeat timer and by `prepare`. Both look at the last time stamp
that was kept, and not every callback keeps one.
-/

open Coins.History Coins.Ws

namespace Coins.Snarf.Timed

open coin_st_t Control

/-! ## The law -/

/-- How many seconds lie between two times: by the seconds alone, and to the nanosecond. -/
def seconds (t t' : Nat) : ℚ := (tv_sec t - tv_sec t' : ℤ)

def exact (t t' : Nat) : ℚ := (t - t') / 10 ^ 9

section
variable (apart : Nat → Nat → ℚ) (max : ℚ)

/-- No data came in the last `max` seconds. -/
def Quiet (h : List (Nat × Fact)) (t : Nat) : Prop := ∀ t', (t', Fact.heard) ∈ h → max ≤ apart t t'

/-- The heartbeat failed on this connection. -/
def Failed (h : List (Nat × Fact)) : Prop := ∃ t, (t, Fact.failed) ∈ since (fun a => a.2 = Fact.opened) h

/-- A socket is given up for inactivity when it is quiet, or unrolled after its heartbeat failed. -/
def Law (pre : List (Nat × Fact)) : Nat × Fact → Prop
  | (t, .nodata) => Quiet apart max pre t
  | (t, .unrolled) => Failed pre ∨ Quiet apart max pre t
  | _ => True

end

variable {ns : Nat}

/-- Data is read where the callback gets as far as to keep the time stamp: on a socket that is not a REST
one and not given up, the coin does not fail, and what came inflates. -/
structure Logs (e : Io) (w : Watch) : Prop where
  p : w.sock.p ≠ .WS_PROTO_REST
  st : lines w.sock.st = true
  r : 0 ≤ e.r
  inflates : w.inflate = true → w.sock.p ≠ .WS_PROTO_SIO3 → e.inflates = true

def Stamps (i : Fin ns) (c : Ctx ns) : Step ns → Prop
  | .io j e => j = i → (c.watch i).sock.watcher = true → 0 < e.nrd → Logs e (c.watch i)
  | _ => True

/-- When the seconds alone say that the last time stamp is too old, it is. -/
def Whole (apart : Nat → Nat → ℚ) (n : Now) : Prop :=
  n.max_inact ≤ seconds n.tsp n.last_act → n.max_inact ≤ apart n.tsp n.last_act

/-! ## Invariant -/

/-- A measure of time: it grows with the later of two times, and shrinks with the earlier one. -/
structure Measures (apart : Nat → Nat → ℚ) : Prop where
  later : ∀ t u t', t ≤ u → apart t t' ≤ apart u t'
  earlier : ∀ t t' u', t' ≤ u' → apart t u' ≤ apart t t'

theorem tv_sec_mono (t u : Nat) (h : t ≤ u) : tv_sec t ≤ tv_sec u := by
  unfold tv_sec
  exact_mod_cast Nat.div_le_div_right h

theorem seconds_measures : Measures seconds where
  later t u t' h := by
    have := tv_sec_mono t u h
    unfold seconds
    exact_mod_cast by omega
  earlier t t' u' h := by
    have := tv_sec_mono t' u' h
    unfold seconds
    exact_mod_cast by omega

theorem exact_measures : Measures exact where
  later t u t' h := by
    have : (t : ℚ) ≤ u := by exact_mod_cast h
    unfold exact
    gcongr
  earlier t t' u' h := by
    have : (t' : ℚ) ≤ u' := by exact_mod_cast h
    unfold exact
    gcongr

/-- Every read that gave data was stamped, and the law was kept so far. -/
structure Active (apart : Nat → Nat → ℚ) (max : ℚ) (n : Now) : Prop where
  limit : n.max_inact = max
  past : n.last_act ≤ n.tsp
  stamped : ∀ t, (t, Fact.heard) ∈ n.hist → t ≤ n.last_act
  law : Always (Law apart max) n.hist
  nodata : n.sock.st = COIN_ST_NODATA → Failed n.hist ∨ Quiet apart max n.hist n.tsp

section
variable {apart : Nat → Nat → ℚ} {max : ℚ} {n : Now}

theorem Quiet.later (hm : Measures apart) {h : List (Nat × Fact)} {t u : Nat} (hq : Quiet apart max h t)
    (htu : t ≤ u) : Quiet apart max h u :=
  fun t' ht' => (hq t' ht').trans (hm.later t u t' htu)

theorem Active.quiet (hm : Measures apart) (h : Active apart max n) (hlate : max ≤ apart n.tsp n.last_act) :
    Quiet apart max n.hist n.tsp :=
  fun t' ht' => hlate.trans (hm.earlier n.tsp t' n.last_act (h.stamped t' ht'))

theorem Active.sock (h : Active apart max n) (s : Sock) (hs : s.st = COIN_ST_NODATA → n.sock.st = COIN_ST_NODATA) :
    Active apart max { n with sock := s } :=
  ⟨h.limit, h.past, h.stamped, h.law, fun hst => h.nodata (hs hst)⟩

theorem Active.use (h : Active apart max n) : Active apart max n.use := h.sock n.sock.use fun hst => hst

theorem Active.to (h : Active apart max n) (st : coin_st_t) (hst : st ≠ COIN_ST_NODATA) :
    Active apart max (n.to st) :=
  h.sock { n.sock with st := st } fun heq => absurd heq hst

theorem Active.log (hm : Measures apart) (h : Active apart max n) (ticks : Nat) : Active apart max (n.log ticks) :=
  ⟨h.limit, Nat.le_add_right_of_le h.past, h.stamped, h.law,
    fun hst => (h.nodata hst).imp id fun hq => hq.later hm (Nat.le_add_right _ _)⟩

theorem Active.call (hm : Measures apart) (h : Active apart max n) (k : Coin) (r : Int) (ticks : Nat) :
    Active apart max (n.call k r ticks) :=
  (h.sock (n.sock.act (.call k r)) fun hst => hst).log hm ticks

theorem Active.stamp (h : Active apart max n) : Active apart max n.stamp :=
  ⟨h.limit, le_refl _, fun t ht => (h.stamped t ht).trans h.past, h.law, h.nodata⟩

theorem Active.note (h : Active apart max n) (f : Fact) (hlaw : Law apart max n.hist (n.tsp, f))
    (hheard : f = .heard → n.tsp ≤ n.last_act)
    (hnodata : n.sock.st = COIN_ST_NODATA →
      Failed (n.hist ++ [(n.tsp, f)]) ∨ Quiet apart max (n.hist ++ [(n.tsp, f)]) n.tsp) :
    Active apart max (n.note f) := by
  refine ⟨h.limit, h.past, fun t ht => ?_, (always_concat _ _ _).mpr ⟨h.law, hlaw⟩, hnodata⟩
  rcases List.mem_append.mp ht with ht | ht
  · exact h.stamped t ht
  · rw [List.mem_singleton, Prod.mk.injEq] at ht
    rw [ht.1]
    exact hheard ht.2.symm

theorem quiet_concat {h : List (Nat × Fact)} {t u : Nat} {f : Fact} (hq : Quiet apart max h t) (hf : f ≠ .heard) :
    Quiet apart max (h ++ [(u, f)]) t := by
  intro t' ht'
  rcases List.mem_append.mp ht' with ht' | ht'
  · exact hq t' ht'
  · rw [List.mem_singleton, Prod.mk.injEq] at ht'
    exact absurd ht'.2.symm hf

/-! ## `prepare` -/

namespace prepare

variable (t : Turn)

theorem disc_active (h : Active apart max n) : Active apart max (disc n) :=
  h.sock (Control.prepare.disc n.sock).1 fun hst => by cases hst

theorem joind_active (hm : Measures apart) (h : Active apart max n) (hwhole : Whole apart (joind n)) :
    Active apart max (joind n) := by
  unfold joind at hwhole ⊢
  by_cases hp : n.sock.p = .WS_PROTO_REST
  · rw [if_pos hp]
    exact h.use
  · rw [if_neg hp] at hwhole ⊢
    by_cases hlate : n.inact < n.max_inact
    · rw [if_pos hlate]
      exact h.use
    · rw [if_neg hlate] at hwhole ⊢
      have hquiet : Quiet apart max n.hist n.tsp := by
        refine h.quiet hm ?_
        rw [← h.limit]
        exact hwhole (not_lt.mp hlate)
      exact (disc_active h.use).note .unrolled (Or.inr hquiet) (fun hf => by cases hf) fun hst => by cases hst

theorem join_active (hm : Measures apart) (h : Active apart max n) (hwhole : Whole apart (join t n)) :
    Active apart max (join t n) := by
  unfold join at hwhole ⊢
  by_cases hp : n.sock.p = .WS_PROTO_REST
  · rw [if_pos hp] at hwhole ⊢
    exact joind_active hm (h.use.to COIN_ST_JOIND (by decide)) hwhole
  · rw [if_neg hp] at hwhole ⊢
    have hcall := h.use.use.call hm .join t.join (t.ticks .join)
    dsimp only at hwhole ⊢
    by_cases hneg : t.join < 0
    · rw [if_pos hneg]
      exact hcall.to COIN_ST_AUTHD (by decide)
    · rw [if_neg hneg] at hwhole ⊢
      by_cases hwait : t.join = 0
      · rw [if_pos hwait]
        exact hcall
      · rw [if_neg hwait] at hwhole ⊢
        exact joind_active hm (hcall.to COIN_ST_JOIND (by decide)) hwhole

theorem authd_active (hm : Measures apart) (h : Active apart max n) (hwhole : Whole apart (authd t n)) :
    Active apart max (authd t n) :=
  join_active t hm (h.to COIN_ST_JOIN (by decide)) hwhole

theorem auth_active (hm : Measures apart) (h : Active apart max n) (hwhole : Whole apart (auth t n)) :
    Active apart max (auth t n) := by
  unfold auth at hwhole ⊢
  by_cases hp : n.sock.p = .WS_PROTO_REST
  · rw [if_pos hp] at hwhole ⊢
    exact authd_active t hm h.use hwhole
  · rw [if_neg hp] at hwhole ⊢
    have hcall := h.use.use.call hm .auth t.auth (t.ticks .auth)
    dsimp only at hwhole ⊢
    by_cases hneg : t.auth < 0
    · rw [if_pos hneg]
      exact hcall.to COIN_ST_CONND (by decide)
    · rw [if_neg hneg] at hwhole ⊢
      by_cases hwait : t.auth = 0
      · rw [if_pos hwait]
        exact hcall
      · rw [if_neg hwait] at hwhole ⊢
        exact authd_active t hm hcall hwhole

theorem connd_active (hm : Measures apart) (h : Active apart max n) (hwhole : Whole apart (connd t n)) :
    Active apart max (connd t n) :=
  auth_active t hm (h.to COIN_ST_AUTH (by decide)) hwhole

theorem conn_active (hm : Measures apart) (h : Active apart max n) (hwhole : Whole apart (conn t n)) :
    Active apart max (conn t n) := by
  unfold conn at hwhole ⊢
  have hcall := h.use.call hm .conn t.conn (t.ticks .conn)
  dsimp only at hwhole ⊢
  by_cases hneg : t.conn < 0
  · rw [if_pos hneg]
    exact disc_active hcall
  · rw [if_neg hneg] at hwhole ⊢
    by_cases hwait : t.conn = 0
    · rw [if_pos hwait]
      exact hcall
    · rw [if_neg hwait] at hwhole ⊢
      exact connd_active t hm hcall hwhole

theorem unk_active (hm : Measures apart) (h : Active apart max n) (hst : n.sock.st = COIN_ST_UNK)
    (hwhole : Whole apart (unk t n)) : Active apart max (unk t n) := by
  unfold unk open_coin at hwhole ⊢
  cases ho : t.opened with
  | none =>
    simp only [ho] at hwhole ⊢
    refine disc_active (h.sock { n.sock with ws := none } fun hno => ?_)
    rw [hst] at hno
    cases hno
  | some p =>
    simp only [ho] at hwhole ⊢
    have hopen := (h.sock { (({ n.sock with ws := some n.sock.next, next := n.sock.next + 1 }.act
      (.opened n.sock.next)).use) with watcher := true, st := COIN_ST_UNK } fun hno => by cases hno).to
      COIN_ST_CONN (by decide)
    exact conn_active t hm (hopen.note .opened trivial (fun hf => by cases hf) fun hno => by cases hno).stamp hwhole

end prepare

open Timed.prepare in
theorem prepare_active (hm : Measures apart) (t : Turn) (h : Active apart max n) (hwhole : Whole apart (prepare t n)) :
    Active apart max (prepare t n) := by
  unfold prepare at hwhole ⊢
  cases hst : n.sock.st with
  | COIN_ST_UNK => exact unk_active t hm h hst (by simpa only [hst] using hwhole)
  | COIN_ST_CONN => exact conn_active t hm h (by simpa only [hst] using hwhole)
  | COIN_ST_CONND => exact connd_active t hm h (by simpa only [hst] using hwhole)
  | COIN_ST_AUTH => exact auth_active t hm h (by simpa only [hst] using hwhole)
  | COIN_ST_AUTHD => exact authd_active t hm h (by simpa only [hst] using hwhole)
  | COIN_ST_JOIN => exact join_active t hm h (by simpa only [hst] using hwhole)
  | COIN_ST_JOIND => exact joind_active hm h (by simpa only [hst] using hwhole)
  | COIN_ST_NODATA =>
    exact (disc_active h).note .unrolled (h.nodata hst) (fun hf => by cases hf) fun hno => by cases hno
  | COIN_ST_INTR => exact disc_active h
  | COIN_ST_FINI => exact h

/-! ## Callbacks -/

theorem io_cb_nodata (talks : coin_st_t → Bool) (e : Control.Io) (s : Sock)
    (h : (Control.io_cb talks e s).1.st = COIN_ST_NODATA) : s.st = COIN_ST_NODATA := by
  by_cases hunk : s.st = COIN_ST_UNK
  · unfold Control.io_cb at h
    simp only [Sock.act_st, Sock.use_st, hunk, if_true, asks] at h
    split at h
    · rw [Sock.act_st, Sock.use_st, hunk] at h
      cases h
    · split at h
      · cases h
      · unfold upgrade at h
        dsimp only at h
        split at h <;> cases h
  · rcases (io_cb_heard talks e s hunk).st with hst | hst
    · rw [← hst]
      exact h
    · rw [hst] at h
      unfold upgrade at h
      split at h
      · split at h <;> cases h
      · split at h <;> cases h
      · split at h <;> cases h
      · exact h

theorem log_him_active (hm : Measures apart) (h : Active apart max n) (inflate : Bool) (e : Io) :
    Active apart max (log_him inflate e n) := by
  unfold log_him
  split
  · exact h
  · exact (h.log hm e.ticks).stamp

theorem switch_active (hm : Measures apart) (h : Active apart max n) (inflate : Bool) (e : Io) (st : coin_st_t) :
    Active apart max (switch inflate e st n) := by
  unfold switch
  split
  · split
    · exact (h.log hm e.said).log hm e.ticks
    · exact log_him_active hm (h.log hm e.said) inflate e
  · split
    · exact log_him_active hm h inflate e
    · exact h

theorem switch_stamps (inflate : Bool) (e : Io) (st : coin_st_t) (n : Now) (hst : lines st = true) (hr : 0 ≤ e.r)
    (hi : inflate = true → e.inflates = true) :
    (switch inflate e st n).last_act = (switch inflate e st n).tsp ∧ (switch inflate e st n).sock = n.sock := by
  have hlog : ∀ n, log_him inflate e n = (n.log e.ticks).stamp := fun n =>
    if_neg fun hno => by
      rw [hi hno.1] at hno
      cases hno.2
  unfold switch
  split
  · rw [if_neg (by omega), hlog]
    exact ⟨rfl, rfl⟩
  · rw [if_pos hst, hlog]
    exact ⟨rfl, rfl⟩

theorem io_cb_active (hm : Measures apart) (sock : Sock) (inflate : Bool) (e : Io) (h : Active apart max n)
    (hsock : sock.st = COIN_ST_NODATA → n.sock.st = COIN_ST_NODATA)
    (hlogs : 0 < e.nrd → lines n.sock.st = true ∧ 0 ≤ e.r ∧ (inflate = true → e.inflates = true)) :
    Active apart max (io_cb sock inflate e n) := by
  have hs := h.sock sock hsock
  unfold io_cb
  dsimp only
  by_cases hneg : e.nrd < 0
  · rw [if_pos hneg]
    exact hs.log hm e.ticks
  · rw [if_neg hneg]
    by_cases hdata : 0 < e.nrd
    · rw [if_pos hdata]
      obtain ⟨hlines, hr, hinflates⟩ := hlogs hdata
      have hlines' : lines (if n.sock.st = COIN_ST_UNK then COIN_ST_CONN else n.sock.st) = true := by
        split
        · rfl
        · exact hlines
      obtain ⟨hlast, hsame⟩ := switch_stamps inflate e _ { n with sock := sock } hlines' hr hinflates
      refine (switch_active hm hs inflate e _).note .heard trivial (fun _ => le_of_eq hlast.symm) fun hno => ?_
      rw [hsame] at hno
      rw [hsock hno] at hlines
      cases hlines
    · rw [if_neg hdata]
      exact switch_active hm hs inflate e _

theorem callback_active (hm : Measures apart) (e : Io) (h : Active apart max n) (hlogs : 0 < e.nrd → Logs e n.toWatch) :
    Active apart max (callback e n) := by
  unfold callback
  cases hp : n.sock.p with
  | WS_PROTO_REST =>
    dsimp only
    have hnone : ¬ 0 < e.nrd := fun hdata => (hlogs hdata).p hp
    have hs : (Control.rest_cb e.toIo n.sock).1.st = COIN_ST_NODATA → n.sock.st = COIN_ST_NODATA := by
      unfold Control.rest_cb
      dsimp only
      split
      · intro hno
        cases hno
      · exact fun hno => hno
    unfold rest_cb
    dsimp only
    rw [if_neg hnone]
    split
    · exact h.sock _ hs
    · exact (h.sock _ hs).log hm e.ticks
  | WS_PROTO_SIO3 =>
    exact io_cb_active hm _ _ e h (io_cb_nodata _ _ _) fun hdata =>
      ⟨(hlogs hdata).st, (hlogs hdata).r, fun hno => by cases hno⟩
  | _ =>
    exact io_cb_active hm _ _ e h (io_cb_nodata _ _ _) fun hdata =>
      ⟨(hlogs hdata).st, (hlogs hdata).r, fun hi => (hlogs hdata).inflates hi (by rw [hp]; decide)⟩

theorem hbeat_cb_active (hm : Measures apart) (b : Beat) (h : Active apart max n)
    (hwhole : Whole apart (hbeat_cb b n)) :
    Active apart max (hbeat_cb b n) := by
  unfold hbeat_cb at hwhole ⊢
  have hlog := ((h.log hm b.ticks).use).log hm b.said
  dsimp only at hwhole ⊢
  generalize ((n.log b.ticks).use).log b.said = n at hlog hwhole ⊢
  by_cases hneg : b.r < 0
  · rw [if_pos hneg]
    refine ⟨hlog.limit, hlog.past, fun t ht => ?_, (always_concat _ _ _).mpr ⟨hlog.law, trivial⟩, fun _ => Or.inl ?_⟩
    · rcases List.mem_append.mp ht with ht | ht
      · exact hlog.stamped t ht
      · cases List.mem_singleton.mp ht
    · refine ⟨n.tsp, ?_⟩
      change _ ∈ since _ (n.hist ++ [(n.tsp, Fact.failed)])
      rw [since_concat, if_neg fun hno => by cases hno]
      simp
  · rw [if_neg hneg] at hwhole ⊢
    by_cases hlate : n.max_inact < n.inact
    · rw [if_pos hlate] at hwhole ⊢
      have hquiet : Quiet apart max n.hist n.tsp := by
        refine hlog.quiet hm ?_
        rw [← hlog.limit]
        exact hwhole (le_of_lt hlate)
      have hquiet' : Quiet apart max (n.hist ++ [(n.tsp, Fact.nodata)]) n.tsp := quiet_concat hquiet (by decide)
      refine ⟨hlog.limit, hlog.past, fun t ht => ?_, (always_concat _ _ _).mpr ⟨hlog.law, hquiet⟩,
        fun _ => Or.inr hquiet'⟩
      rcases List.mem_append.mp ht with ht | ht
      · exact hlog.stamped t ht
      · cases List.mem_singleton.mp ht
    · rw [if_neg hlate]
      exact hlog

end

/-! ## Runs -/

section
variable {apart : Nat → Nat → ℚ} {max : ℚ} (c : Ctx ns) (i j : Fin ns)

theorem set_now (n : Now) : (c.set j n).now i = if i = j then n else { c.now i with tsp := n.tsp } := by
  unfold Ctx.set Ctx.now
  by_cases hij : i = j
  · rw [if_pos hij, hij]
    dsimp only
    rw [Function.update_self]
  · rw [if_neg hij]
    dsimp only
    rw [Function.update_of_ne hij]

theorem Active.later {n : Now} (hm : Measures apart) (h : Active apart max n) (t : Nat) (ht : n.tsp ≤ t) :
    Active apart max { n with tsp := t } := by
  have hlog := h.log hm (t - n.tsp)
  unfold Now.log at hlog
  rwa [Nat.add_sub_of_le ht] at hlog

theorem set_active (hm : Measures apart) (n : Now) (h : Active apart max (c.now i)) (htsp : c.tsp ≤ n.tsp)
    (hn : j = i → Active apart max n) : Active apart max ((c.set j n).now i) := by
  rw [set_now]
  split
  · exact hn (by symm; assumption)
  · exact h.later hm n.tsp htsp

theorem step_active (hm : Measures apart) (x : Step ns) (h : Active apart max (c.now i)) (hstamps : Stamps i c x)
    (hwhole : Whole apart ((c.step x).now i)) : Active apart max ((c.step x).now i) := by
  cases x with
  | prepare j t =>
    refine set_active c i j hm _ h (prepare_tsp t (c.now j)) fun hji => ?_
    subst hji
    refine prepare_active hm t h ?_
    unfold Ctx.step at hwhole
    rwa [set_now, if_pos rfl] at hwhole
  | io j e =>
    unfold Ctx.step
    by_cases hwatch : (c.watch j).sock.watcher = true
    · dsimp only
      rw [if_pos hwatch]
      refine set_active c i j hm _ h (callback_tsp e (c.now j)) fun hji => ?_
      subst hji
      exact callback_active hm e h (hstamps rfl hwatch)
    · dsimp only
      rw [if_neg hwatch]
      exact h
  | hbeat j b =>
    refine set_active c i j hm _ h (hbeat_cb_tsp b (c.now j)) fun hji => ?_
    subst hji
    refine hbeat_cb_active hm b h ?_
    unfold Ctx.step at hwhole
    rwa [set_now, if_pos rfl] at hwhole
  | sigint ticks => exact (h.sock (sigint_cb (c.watch i).sock) fun hno => by cases hno).log hm ticks
  | rotate ticks => exact h.log hm ticks

end

theorem init_active (apart : Nat → Nat → ℚ) (prm : Fin ns → Param) (tsp : Nat) (i : Fin ns)
    (hmax : 0 < (prm i).max_inact) : Active apart (prm i).max_inact ((Ctx.init prm tsp).now i) where
  limit := if_neg (not_le.mpr hmax)
  past := Nat.zero_le _
  stamped t ht := by cases ht
  law := always_nil _
  nodata hst := by cases hst

theorem run_active (apart : Nat → Nat → ℚ) (hm : Measures apart) (prm : Fin ns → Param) (tsp : Nat) (i : Fin ns)
    (hmax : 0 < (prm i).max_inact) (xs : List (Step ns))
    (h : Always (fun pre x => Stamps i (run (.init prm tsp) pre) x ∧
      Whole apart ((run (.init prm tsp) (pre ++ [x])).now i)) xs) :
    Active apart (prm i).max_inact ((run (.init prm tsp) xs).now i) := by
  induction xs using List.reverseRecOn with
  | nil => exact init_active apart prm tsp i hmax
  | append_singleton xs x ih =>
    obtain ⟨hall, hstamps, hwhole⟩ := (always_concat _ _ _).mp h
    have hrun : run (.init prm tsp) (xs ++ [x]) = (run (.init prm tsp) xs).step x := List.foldl_concat ..
    rw [hrun] at hwhole ⊢
    exact step_active _ i hm x (ih hall) hstamps hwhole

/-- **Inactivity is judged by received data** in a run where every read that gives data is stamped: by the
seconds alone, and to the nanosecond as long as the seconds do not make a time stamp too old that is not. -/
theorem inactivity_judged (prm : Fin ns → Param) (tsp : Nat) (i : Fin ns) (hmax : 0 < (prm i).max_inact)
    (xs : List (Step ns)) (hstamps : Always (fun pre x => Stamps i (run (.init prm tsp) pre) x) xs) :
    Always (Law seconds (prm i).max_inact) ((run (.init prm tsp) xs).watch i).hist ∧
      (Always (fun pre x => Whole exact ((run (.init prm tsp) (pre ++ [x])).now i)) xs →
        Always (Law exact (prm i).max_inact) ((run (.init prm tsp) xs).watch i).hist) := by
  constructor
  · exact (run_active seconds seconds_measures prm tsp i hmax xs
      (hstamps.and fun _ _ _ h => h)).law
  · intro hwhole
    exact (run_active exact exact_measures prm tsp i hmax xs (hstamps.and hwhole)).law

/-- Opens a connection. -/
def opens : Turn := ⟨some .WS_PROTO_RAW, 1, 1, 1, fun _ => 0⟩

/-- A read that gives data, some seconds after the clock was read last. -/
def data (secs : Nat) : Io := ⟨⟨100, 1⟩, true, 0, secs * 10 ^ 9⟩

/-- A heartbeat that does not fail. -/
def beat (secs : Nat) : Beat := ⟨0, secs * 10 ^ 9, 0⟩

def feed (p : ws_proto_t) : Fin 1 → Param := fun _ => ⟨p, 10, false⟩

/-- A connection is given up that received data three seconds before. -/
def evening (i : Fin 1) : List (Step 1) := [.prepare i opens, .io i (data 9), .hbeat i (beat 3)]

theorem inactivity_judged_quiet :
    Always (Law seconds 10)
      ((run (.init (feed .WS_PROTO_RAW) (10 ^ 18)) (evening 0 ++ [.hbeat 0 (beat 8), .prepare 0 opens])).watch
        0).hist := by
  refine (inactivity_judged (feed .WS_PROTO_RAW) (10 ^ 18) 0 (by decide +kernel) _ ?_).1
  have hlogs : ∀ c : Ctx 1, (c.watch 0).sock.p = .WS_PROTO_RAW → (c.watch 0).sock.st = COIN_ST_JOIND →
      (c.watch 0).inflate = false → Stamps 0 c (.io 0 (data 9)) := by
    intro c hp hst hi _ _ _
    exact ⟨by rw [hp]; decide, by rw [hst]; rfl, by decide, fun hno => by rw [hi] at hno; cases hno⟩
  change Always _ ([] ++ [_] ++ [_] ++ [_] ++ [_] ++ [_])
  simp only [always_concat]
  exact ⟨⟨⟨⟨⟨always_nil _, trivial⟩, hlogs _ (by decide +kernel) (by decide +kernel) (by decide +kernel)⟩, trivial⟩,
    trivial⟩, trivial⟩

/-- A REST socket is given up although it has received data. -/
theorem rest_given_up :
    ¬ Always (Law seconds 10) ((run (.init (feed .WS_PROTO_REST) (10 ^ 18)) (evening 0)).watch 0).hist := by
  intro h
  have hhist : ((run (.init (feed .WS_PROTO_REST) (10 ^ 18)) (evening 0)).watch 0).hist =
      [(10 ^ 18, Fact.opened), (10 ^ 18 + 9 * 10 ^ 9, Fact.heard), (10 ^ 18 + 12 * 10 ^ 9, Fact.nodata)] := by
    decide +kernel
  rw [hhist] at h
  have hquiet := h [(10 ^ 18, Fact.opened), (10 ^ 18 + 9 * 10 ^ 9, Fact.heard)] (10 ^ 18 + 12 * 10 ^ 9, Fact.nodata)
    (List.prefix_refl _) (10 ^ 18 + 9 * 10 ^ 9) (by simp)
  exact absurd hquiet (by decide +kernel)

end Coins.Snarf.Timed
