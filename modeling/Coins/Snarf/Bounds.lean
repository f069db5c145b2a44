import Coins.Rest.Reads
import Coins.Snarf.Lines
import Coins.Snarf.Massage
import Coins.Ws.Bounds

/-!
# The bounds of the session buffer

The shift moves 21 bytes more than are left, and a failure logs the last bytes twice over. So a buffer
that is nearly full is overrun, unless the call leaves room enough.
-/

open Coins.Memory Coins.Numeral Coins.Transducer Coins.Ws

namespace Coins.Snarf

open coin_st_t

/-! ## Safe steps -/

/-- The state that a call of `ws_cb` or `sio3_cb` goes by. -/
def entered (s : Slot) : coin_st_t := if s.st = COIN_ST_UNK then COIN_ST_CONN else s.st

def Fails (s : Slot) (e : Input) : Prop :=
  e.r < 0 ∧ (entered s = COIN_ST_CONN ∨ entered s = COIN_ST_AUTH ∨ entered s = COIN_ST_JOIN)

/-- The state is one in which lines are logged. -/
def Logs (s : Slot) (e : Input) : Prop :=
  ¬ Fails s e ∧ entered s ≠ COIN_ST_NODATA ∧ entered s ≠ COIN_ST_INTR ∧ entered s ≠ COIN_ST_FINI

theorem logs_asked (s : Slot) (e : Input)
    (h : entered s = COIN_ST_CONN ∨ entered s = COIN_ST_AUTH ∨ entered s = COIN_ST_JOIN)
    (hr : ¬ e.r < 0) : Logs s e := by
  rcases h with h | h | h <;>
    exact ⟨fun hf => hr hf.1, by rw [h]; simp, by rw [h]; simp, by rw [h]; simp⟩

theorem logs_told (s : Slot) (e : Input)
    (h : entered s = COIN_ST_CONND ∨ entered s = COIN_ST_AUTHD ∨ entered s = COIN_ST_JOIND) :
    Logs s e := by
  unfold Logs Fails
  rcases h with h | h | h <;> rw [h] <;> simp

theorem not_logs (s : Slot) (e : Input)
    (h : entered s = COIN_ST_NODATA ∨ entered s = COIN_ST_INTR ∨ entered s = COIN_ST_FINI) :
    ¬ Fails s e ∧ ¬ Logs s e := by
  unfold Logs Fails
  rcases h with h | h | h <;> rw [h] <;> simp

theorem entered_ne (s : Slot) : entered s ≠ COIN_ST_UNK := by
  unfold entered
  split
  · simp
  · assumption

theorem io_cb_cases (mas : Massage) (inflates : Bool) (talk : coin_st_t → List (List Byte)) (s : Slot)
    (e : Input) (ws : ws_s) (hws : s.ws = some ws) :
    let m := grow 4000 s.mem s.n
    let r := ws_recv ws m s.n (m.size - s.n) e.rd
    let q := (io_cb mas inflates talk s e).1
    let t : Slot := { s with ws := some r.ws, mem := r.mem, st := entered s }
    ((∀ k : Nat, r.ret ≠ some (k : Int)) ∧ q = { s with ws := some r.ws, mem := r.mem, ended := true }) ∨
    ∃ k : Nat, r.ret = some (k : Int) ∧
      ((Fails s e ∧ q = (logunr mas t r.mem (s.n + k) k e).1) ∨
       (Logs s e ∧
        q = (log_him mas inflates { t with st := upgrade (entered s) e.r } r.mem (s.n + k) k e).1) ∨
       (¬ Fails s e ∧ ¬ Logs s e ∧ q = { t with n := INI_GBOF })) := by
  unfold io_cb
  rw [hws]
  simp only
  generalize grow 4000 s.mem s.n = m
  generalize ws_recv ws m s.n (m.size - s.n) e.rd = r
  cases hr : r.ret with
  | none => exact Or.inl ⟨(fun k h => by cases h), rfl⟩
  | some ret =>
    by_cases hneg : ret < 0
    · refine Or.inl ⟨fun k h => ?_, ?_⟩
      · have := Option.some.inj h
        omega
      · simp only [if_pos hneg]
        rfl
    · obtain ⟨k, rfl⟩ := Int.eq_ofNat_of_zero_le (not_lt.mp hneg)
      refine Or.inr ⟨k, rfl, ?_⟩
      have hu : (if s.st = COIN_ST_UNK then
          { s with ws := some r.ws, mem := r.mem, st := COIN_ST_CONN }
          else { s with ws := some r.ws, mem := r.mem } : Slot) =
          { s with ws := some r.ws, mem := r.mem, st := entered s } := by
        unfold entered
        split <;> rfl
      simp only [if_neg hneg, Int.toNat_natCast, hu]
      cases he : entered s with
      | COIN_ST_UNK => exact absurd he (entered_ne s)
      | COIN_ST_CONN =>
        by_cases hr : e.r < 0
        · exact Or.inl ⟨⟨hr, Or.inl he⟩, by simp only [if_pos hr]⟩
        · exact Or.inr (Or.inl ⟨logs_asked s e (Or.inl he) hr, by simp only [if_neg hr]⟩)
      | COIN_ST_AUTH =>
        by_cases hr : e.r < 0
        · exact Or.inl ⟨⟨hr, Or.inr (Or.inl he)⟩, by simp only [if_pos hr]⟩
        · exact Or.inr (Or.inl ⟨logs_asked s e (Or.inr (Or.inl he)) hr, by simp only [if_neg hr]⟩)
      | COIN_ST_JOIN =>
        by_cases hr : e.r < 0
        · exact Or.inl ⟨⟨hr, Or.inr (Or.inr he)⟩, by simp only [if_pos hr]⟩
        · exact Or.inr (Or.inl ⟨logs_asked s e (Or.inr (Or.inr he)) hr, by simp only [if_neg hr]⟩)
      | COIN_ST_CONND => exact Or.inr (Or.inl ⟨logs_told s e (Or.inl he), rfl⟩)
      | COIN_ST_AUTHD => exact Or.inr (Or.inl ⟨logs_told s e (Or.inr (Or.inl he)), rfl⟩)
      | COIN_ST_JOIND => exact Or.inr (Or.inl ⟨logs_told s e (Or.inr (Or.inr he)), rfl⟩)
      | COIN_ST_NODATA =>
        obtain ⟨hf, hl⟩ := not_logs s e (Or.inl he)
        exact Or.inr (Or.inr ⟨hf, hl, rfl⟩)
      | COIN_ST_INTR =>
        obtain ⟨hf, hl⟩ := not_logs s e (Or.inr (Or.inl he))
        exact Or.inr (Or.inr ⟨hf, hl, rfl⟩)
      | COIN_ST_FINI =>
        obtain ⟨hf, hl⟩ := not_logs s e (Or.inr (Or.inr he))
        exact Or.inr (Or.inr ⟨hf, hl, rfl⟩)

/-- The lines of the `xn` bytes can be logged: after a failure, with the last `nrd` bytes counted
twice, or with room for a stamp behind them. And `massage` can take each of them. -/
def LogFits (u : Unfolder) (inflates : Bool) (s : Slot) (e : Input) (m : Mem Byte) (xn nrd : Nat) : Prop :=
  (Fails s e → xn + nrd + (e.tsp.text.length - 20) ≤ m.size ∧
    logwss_takes u e.tsp m INI_GBOF (xn + nrd - INI_GBOF)) ∧
  (Logs s e → ∀ m' xn', (if inflates then inflate_in_place m xn nrd e.inflated else some (m, xn)) =
    some (m', xn') → xn' + INI_GBOF ≤ m'.size ∧ logwss_takes u e.tsp m' INI_GBOF (xn' - INI_GBOF))

def SafeIo (u : Unfolder) (inflates : Bool) (s : Slot) (ws : ws_s) (e : Input) : Prop :=
  let m := grow 4000 s.mem s.n
  let r := ws_recv ws m s.n (m.size - s.n) e.rd
  ¬ Overrun ws (m.size - s.n) e.rd ∧
    ∀ k : Nat, r.ret = some (k : Int) → LogFits u inflates s e r.mem (s.n + k) k

def SafeRest (u : Unfolder) (s : Slot) (ws : ws_s) (e : Input) : Prop :=
  let m := grow 4096 s.mem s.n
  let r := Rest.rest_recv ws m s.n (m.size - s.n) e.rd
  m.size < 2 ^ 63 ∧ Rest.Steady ws m s.n (m.size - s.n) e.rd ∧
    ∀ k : Nat, r.ret = k → s.n + k + INI_GBOF ≤ m.size ∧ logwss_takes u e.tsp r.mem INI_GBOF (s.n + k - INI_GBOF)

def Safe (u : Unfolder) (s : Slot) : Step → Prop
  | .callback e => s.ended = false → ∀ ws, s.ws = some ws →
    match ws.p with
    | .WS_PROTO_REST => SafeRest u s ws e
    | .WS_PROTO_SIO3 => SafeIo u false s ws e
    | _ => SafeIo u s.inflate s ws e
  | _ => True

/-! ## What holds between two steps -/

structure Inv (s : Slot) : Prop where
  sound : s.mem.Sound
  size : s.mem.size = 0 ∨ 4096 ≤ s.mem.size
  fill : s.ws ≠ none → INI_GBOF ≤ s.n ∧ Sized s.mem s.n
  good : s.ended = false → ∀ ws, s.ws = some ws → ws.p ≠ .WS_PROTO_REST → Good ws

theorem inv_init (inflate : Bool) : Inv (Slot.init inflate) :=
  ⟨by simp [Slot.init, Mem.Sound], Or.inl rfl, fun h => absurd rfl h, fun _ _ h => by cases h⟩

theorem sized_ini (m : Mem Byte) (h : m.size = 0 ∨ 4096 ≤ m.size) : Sized m INI_GBOF := by
  unfold Sized INI_GBOF
  omega

theorem Inv.state {s : Slot} (h : Inv s) (st : coin_st_t) : Inv { s with st := st } :=
  ⟨h.sound, h.size, h.fill, h.good⟩

theorem Inv.reset {s : Slot} (h : Inv s) (st : coin_st_t) :
    Inv { s with n := INI_GBOF, st := st } :=
  ⟨h.sound, h.size, fun _ => ⟨le_refl _, sized_ini s.mem h.size⟩, h.good⟩

theorem Inv.disc {s : Slot} (h : Inv s) : Inv (prepare.disc s) :=
  ⟨h.sound, h.size, fun hne => absurd rfl hne, fun _ _ hws => by cases hws⟩

namespace prepare

variable (t : Turn) (s : Slot)

theorem joind_inv (h : Inv s) : Inv (joind t s) := by
  unfold joind
  split
  · exact h
  · exact h.disc

theorem join_inv (h : Inv s) : Inv (join t s) := by
  unfold join
  split
  · exact joind_inv t _ (h.state COIN_ST_JOIND)
  · split
    · exact h.state COIN_ST_AUTHD
    · split
      · exact h
      · exact joind_inv t _ (h.state COIN_ST_JOIND)

theorem authd_inv (h : Inv s) : Inv (authd t s) := join_inv t _ (h.reset COIN_ST_JOIN)

theorem auth_inv (h : Inv s) : Inv (auth t s) := by
  unfold auth
  split
  · exact authd_inv t s h
  · split
    · exact h.state COIN_ST_CONND
    · split
      · exact h
      · exact authd_inv t s h

theorem connd_inv (h : Inv s) : Inv (connd t s) := auth_inv t _ (h.reset COIN_ST_AUTH)

theorem conn_inv (h : Inv s) : Inv (conn t s) := by
  unfold conn
  split
  · exact h.disc
  · split
    · exact h
    · exact connd_inv t s h

theorem unk_inv (h : Inv s) : Inv (unk t s) := by
  unfold unk
  cases t.opened with
  | none => exact h.disc
  | some p =>
    apply conn_inv
    refine ⟨h.sound, h.size, fun _ => ⟨le_refl _, sized_ini s.mem h.size⟩, fun _ ws hws _ => ?_⟩
    obtain rfl := Option.some.inj hws
    exact good_init p

end prepare

open prepare in
theorem prepare_inv (t : Turn) (s : Slot) (h : Inv s) : Inv (prepare t s) := by
  unfold prepare
  split
  · exact unk_inv t s h
  · exact conn_inv t s h
  · exact connd_inv t s h
  · exact auth_inv t s h
  · exact authd_inv t s h
  · exact join_inv t s h
  · exact joind_inv t s h
  · exact h.disc
  · exact h.disc
  · exact ⟨h.sound, h.size, h.fill, fun hend => by cases hend⟩

/-! ## Callbacks -/

/-- A session buffer of which all accesses so far were in bounds, and which is not overfull. -/
structure InOrder (m : Mem Byte) (n : Nat) : Prop where
  sound : m.Sound
  size : 4096 ≤ m.size
  ini : INI_GBOF ≤ n
  fill : n ≤ m.size

theorem shift_in_order (u : Unfolder) (t : Clock) (m : Mem Byte) (xn : Nat)
    (hm : m.Sound) (hsize : 4096 ≤ m.size) (hxn : INI_GBOF ≤ xn) (hfit : xn + INI_GBOF ≤ m.size)
    (htakes : logwss_takes u t m INI_GBOF (xn - INI_GBOF)) :
    InOrder (log_and_shift u.run t m xn).1 (log_and_shift u.run t m xn).2.1 := by
  obtain ⟨hwithin, hle⟩ := logwss_within u t m INI_GBOF (xn - INI_GBOF) htakes
  have hstamp := text_length_le t
  unfold INI_GBOF at *
  unfold log_and_shift INI_GBOF
  simp only
  generalize logwss u.run t m ((21 : Nat) : Int) (xn - 21) = q at hwithin hle
  obtain ⟨m1, npr, out⟩ := q
  simp only at hwithin hle ⊢
  have hsound := hwithin.sound (by omega) (by push_cast; omega) hm
  have hs := hwithin.size
  refine ⟨?_, by rw [Mem.size_move, hs]; exact hsize, by unfold INI_GBOF; omega,
    by rw [Mem.size_move, hs]; omega⟩
  -- 21 bytes more than are left
  rw [Mem.sound_move, hs]
  exact ⟨Or.inr (by omega), hsound⟩

theorem shift_room (u : Unfolder) (t : Clock) (m : Mem Byte) (xn : Nat) (hxn : INI_GBOF ≤ xn)
    (htakes : logwss_takes u t m INI_GBOF (xn - INI_GBOF)) (h : (log_and_shift u.run t m xn).1.Sound) :
    xn + INI_GBOF ≤ m.size := by
  obtain ⟨hwithin, hle⟩ := logwss_within u t m INI_GBOF (xn - INI_GBOF) htakes
  unfold INI_GBOF at *
  unfold log_and_shift INI_GBOF at h
  simp only at h
  generalize logwss u.run t m ((21 : Nat) : Int) (xn - 21) = q at h hwithin hle
  obtain ⟨m1, npr, out⟩ := q
  simp only at h hwithin hle
  rw [Mem.sound_move, hwithin.size] at h
  obtain ⟨hmove | ⟨hsrc, -⟩, -⟩ := h <;> omega

theorem inflate_in_order (m m' : Mem Byte) (n k xn' : Nat) (inflated : Option (List Byte))
    (hm : m.Sound) (hsize : 4096 ≤ m.size) (hn : INI_GBOF ≤ n) (hroom : n + 1 ≤ m.size)
    (h : inflate_in_place m (n + k) k inflated = some (m', xn')) :
    m'.Sound ∧ 4096 ≤ m'.size ∧ INI_GBOF ≤ xn' := by
  unfold inflate_in_place at h
  simp only [Nat.add_sub_cancel] at h
  generalize (if m.cell n = nl then 1 else 0) = skip at h
  obtain ⟨l, -, hl⟩ := Option.map_eq_some_iff.mp h
  obtain ⟨rfl, rfl⟩ := Prod.mk.inj hl
  have hread : (m.read n 1).Sound := by
    rw [Mem.sound_read]
    exact ⟨Or.inr ⟨by omega, by omega⟩, hm⟩
  refine ⟨?_, ?_, by omega⟩
  · rw [Mem.sound_store]
    split
    · exact ⟨Or.inr ⟨by omega, by rw [Mem.size_resize, Mem.size_read]; omega⟩, hread⟩
    · exact ⟨Or.inr ⟨by omega, by omega⟩, hread⟩
  · rw [Mem.size_store]
    split
    · rw [Mem.size_resize, Mem.size_read]
      omega
    · rw [Mem.size_read]
      exact hsize

theorem log_him_in_order (u : Unfolder) (inflates : Bool) (s : Slot) (m : Mem Byte)
    (n k : Nat) (e : Input) (hm : m.Sound) (hsize : 4096 ≤ m.size) (hn : INI_GBOF ≤ n)
    (hroom : n + 1 ≤ m.size)
    (hfit : ∀ m' xn', (if inflates then inflate_in_place m (n + k) k e.inflated
      else some (m, n + k)) = some (m', xn') →
      xn' + INI_GBOF ≤ m'.size ∧ logwss_takes u e.tsp m' INI_GBOF (xn' - INI_GBOF)) :
    let q := (log_him u.run inflates s m (n + k) k e).1
    InOrder q.mem q.n ∧ q.ws = s.ws := by
  unfold log_him
  simp only
  generalize hi : (if inflates then inflate_in_place m (n + k) k e.inflated
    else some (m, n + k)) = i at hfit
  cases i with
  | none =>
    have hini : INI_GBOF ≤ m.size := by
      unfold INI_GBOF
      omega
    refine ⟨⟨?_, hsize, le_refl _, hini⟩, rfl⟩
    simp only
    rw [Mem.sound_read]
    exact ⟨Or.inr ⟨by omega, by push_cast; omega⟩, hm⟩
  | some q =>
    obtain ⟨m', xn'⟩ := q
    have hin : m'.Sound ∧ 4096 ≤ m'.size ∧ INI_GBOF ≤ xn' := by
      cases inflates with
      | true => exact inflate_in_order m m' n k xn' _ hm hsize hn hroom (by simpa using hi)
      | false =>
        obtain ⟨rfl, rfl⟩ := Prod.mk.inj (Option.some.inj hi)
        exact ⟨hm, hsize, by omega⟩
    obtain ⟨hroom', htakes⟩ := hfit m' xn' rfl
    have h := shift_in_order u e.tsp m' xn' hin.1 hin.2.1 hin.2.2 hroom' htakes
    exact ⟨h, rfl⟩

theorem logunr_in_order (u : Unfolder) (s : Slot) (m : Mem Byte) (xn k : Nat)
    (e : Input) (hm : m.Sound) (hsize : 4096 ≤ m.size) (hxn : INI_GBOF ≤ xn)
    (hn : InOrder s.mem s.n) (hs : m.size = s.mem.size)
    (hfit : xn + k + (e.tsp.text.length - 20) ≤ m.size)
    (htakes : logwss_takes u e.tsp m INI_GBOF (xn + k - INI_GBOF)) :
    let q := (logunr u.run s m xn k e).1
    InOrder q.mem q.n ∧ q.ws = s.ws := by
  obtain ⟨hwithin, -⟩ := logwss_within u e.tsp m INI_GBOF (xn + k - INI_GBOF) htakes
  unfold INI_GBOF at *
  unfold logunr unroll INI_GBOF
  refine ⟨⟨hwithin.sound (by omega) (by push_cast; omega) hm, ?_, hn.ini, ?_⟩, rfl⟩
  · simp only
    rw [hwithin.size]
    exact hsize
  · simp only
    rw [hwithin.size, hs]
    exact hn.fill

theorem io_cb_in_order (u : Unfolder) (inflates : Bool)
    (talk : coin_st_t → List (List Byte)) (s : Slot) (e : Input) (ws : ws_s) (hws : s.ws = some ws)
    (hs : Inv s) (hgood : Good ws) (hsafe : SafeIo u inflates s ws e) :
    let q := (io_cb u.run inflates talk s e).1
    InOrder q.mem q.n ∧ (q.ended = false → ∃ ws', q.ws = some ws' ∧ Good ws') := by
  obtain ⟨hover, hlog⟩ := hsafe
  obtain ⟨hini, hsized⟩ := hs.fill (by rw [hws]; simp)
  obtain ⟨hroom, hfour⟩ := grow_size 4000 s.mem s.n hsized (le_refl _) (by omega)
  have hgrown : (grow 4000 s.mem s.n).Sound := by
    unfold Mem.Sound
    rw [grow_log]
    intro x hx
    exact hs.sound x hx
  have hb := ws_recv_bounded ws (grow 4000 s.mem s.n) s.n ((grow 4000 s.mem s.n).size - s.n) e.rd
    hgood (by omega)
  have hcases := io_cb_cases u.run inflates talk s e ws hws
  simp only at hcases ⊢
  generalize (io_cb u.run inflates talk s e).1 = q at hcases ⊢
  generalize grow 4000 s.mem s.n = m at hover hlog hroom hfour hgrown hb hcases
  generalize ws_recv ws m s.n (m.size - s.n) e.rd = r at hlog hb hcases
  obtain ⟨hwithin, hret⟩ := hb.fits hover
  have hsound := hwithin.sound (by omega) (by omega) hgrown
  have hsize := hwithin.size
  have hkept : InOrder r.mem s.n := ⟨hsound, by omega, hini, by omega⟩
  have hcleared : InOrder r.mem INI_GBOF := ⟨hsound, by omega, le_refl _, by omega⟩
  rcases hcases with ⟨-, rfl⟩ | ⟨k, hr, hcases⟩
  · exact ⟨hkept, fun h => by cases h⟩
  · have hk := hret k hr
    obtain ⟨hfails, hlogs⟩ := hlog k hr
    -- either way the connection is the one that `ws_recv` left
    have hdone : ∀ q : Slot, InOrder q.mem q.n ∧ q.ws = some r.ws → InOrder q.mem q.n ∧
        (q.ended = false → ∃ ws', q.ws = some ws' ∧ Good ws') :=
      fun q h => ⟨h.1, fun _ => ⟨r.ws, h.2, hb.good (by rw [hr]; simp)⟩⟩
    apply hdone
    rcases hcases with ⟨hf, rfl⟩ | ⟨hl, rfl⟩ | ⟨-, -, rfl⟩
    · exact logunr_in_order u _ r.mem (s.n + k) k e hsound (by omega) (by omega) hkept rfl
        (hfails hf).1 (hfails hf).2
    · exact log_him_in_order u inflates _ r.mem s.n k e hsound (by omega) hini (by omega) (hlogs hl)
    · exact ⟨hcleared, rfl⟩

theorem rest_cb_in_order (u : Unfolder) (s : Slot) (e : Input) (ws : ws_s)
    (hws : s.ws = some ws) (hp : ws.p = .WS_PROTO_REST) (hs : Inv s) (hsafe : SafeRest u s ws e) :
    let q := (rest_cb u.run s e).1
    InOrder q.mem q.n ∧ ∀ ws', q.ws = some ws' → ws'.p = .WS_PROTO_REST := by
  obtain ⟨hini, hsized⟩ := hs.fill (by rw [hws]; simp)
  obtain ⟨hroom, hfour⟩ := grow_size 4096 s.mem s.n hsized (by omega) (le_refl _)
  have hgrown : (grow 4096 s.mem s.n).Sound := by
    unfold Mem.Sound
    rw [grow_log]
    intro x hx
    exact hs.sound x hx
  have hrp := Rest.rest_recv_p ws (grow 4096 s.mem s.n) s.n ((grow 4096 s.mem s.n).size - s.n) e.rd
  unfold SafeRest at hsafe
  unfold rest_cb
  rw [hws]
  simp only at hsafe ⊢
  generalize grow 4096 s.mem s.n = m at hsafe hroom hfour hgrown hrp
  obtain ⟨hsize, hsteady, hlog⟩ := hsafe
  have hk := Rest.rest_recv_kept ws m s.n (m.size - s.n) e.rd hgrown (by omega) (by omega)
    (by omega) hsize hsteady
  generalize Rest.rest_recv ws m s.n (m.size - s.n) e.rd = r at hlog hk hrp
  obtain ⟨hsound, hrsize, hret⟩ := hk
  split
  · exact ⟨⟨hsound, by simp only; omega, le_refl _, by unfold INI_GBOF; simp only; omega⟩,
      fun ws' h => by cases h⟩
  · rename_i hneg
    obtain ⟨k, hk⟩ := Int.eq_ofNat_of_zero_le (not_lt.mp hneg)
    obtain ⟨hfit, htakes⟩ := hlog k hk
    rw [hk, Int.toNat_natCast]
    have h := shift_in_order u e.tsp r.mem (s.n + k) hsound (by omega) (by omega) (by omega) htakes
    refine ⟨h, fun ws' hws' => ?_⟩
    obtain rfl := Option.some.inj hws'
    rw [hrp]
    exact hp

/-! ## Runs -/

/-- The room that a callback of `ws` makes. -/
def room (ws : ws_s) : Nat := if ws.p = .WS_PROTO_REST then 4096 else 4000

/-- What a step keeps to: all that was touched was in the buffer. A callback has 4000 bytes behind the
`n` there are, and afterwards no more is in use than there is. -/
def Bounds (mas : Massage) (s : Slot) (x : Step) : Prop :=
  (step mas s x).1.mem.Sound ∧
  ∀ e ws, x = .callback e → s.ended = false → s.ws = some ws →
    INI_GBOF ≤ s.n ∧ s.n + 4000 ≤ (grow (room ws) s.mem s.n).size ∧
      (step mas s x).1.n ≤ (step mas s x).1.mem.size

theorem InOrder.inv {s : Slot} (h : InOrder s.mem s.n)
    (hgood : s.ended = false → ∀ ws, s.ws = some ws → ws.p ≠ .WS_PROTO_REST → Good ws) : Inv s :=
  ⟨h.sound, Or.inr h.size, fun _ => ⟨h.ini, Or.inr ⟨h.size, h.fill⟩⟩, hgood⟩

theorem callback_in_order (u : Unfolder) (s : Slot) (e : Input) (ws : ws_s)
    (hws : s.ws = some ws) (hend : s.ended = false) (hs : Inv s) (hsafe : Safe u s (.callback e)) :
    InOrder (callback u.run s e).1.mem (callback u.run s e).1.n ∧ Inv (callback u.run s e).1 := by
  have hsafe := hsafe hend ws hws
  have hgood := hs.good hend ws hws
  have hio : ∀ q : Slot, InOrder q.mem q.n ∧ (q.ended = false → ∃ ws', q.ws = some ws' ∧ Good ws') →
      InOrder q.mem q.n ∧ Inv q := fun q h => ⟨h.1, h.1.inv fun hend ws' hws' _ => by
    obtain ⟨ws'', hws'', hg⟩ := h.2 hend
    obtain rfl := Option.some.inj (hws'.symm.trans hws'')
    exact hg⟩
  unfold callback
  rw [hws, Option.map_some]
  cases hp : ws.p with
  | WS_PROTO_REST =>
    rw [hp] at hsafe
    obtain ⟨horder, hrest⟩ := rest_cb_in_order u s e ws hws hp hs hsafe
    exact ⟨horder, horder.inv fun _ ws' hws' hne => absurd (hrest ws' hws') hne⟩
  | WS_PROTO_SIO3 =>
    rw [hp] at hsafe
    exact hio _ (io_cb_in_order u false _ s e ws hws hs (hgood (by rw [hp]; simp)) hsafe)
  | _ =>
    rw [hp] at hsafe
    exact hio _ (io_cb_in_order u s.inflate _ s e ws hws hs (hgood (by rw [hp]; simp)) hsafe)

theorem room_grown (s : Slot) (ws : ws_s) (hws : s.ws = some ws) (hs : Inv s) :
    INI_GBOF ≤ s.n ∧ s.n + 4000 ≤ (grow (room ws) s.mem s.n).size := by
  obtain ⟨hini, hsized⟩ := hs.fill (by rw [hws]; simp)
  refine ⟨hini, (grow_size (room ws) s.mem s.n hsized ?_ ?_).1⟩ <;> unfold room <;> split <;> omega

theorem step_bounds (u : Unfolder) (s : Slot) (x : Step) (hs : Inv s)
    (hsafe : Safe u s x) : Bounds u.run s x ∧ Inv (step u.run s x).1 := by
  have hinv : Inv (step u.run s x).1 := by
    unfold step
    split
    · exact hs
    · rename_i hend
      cases x with
      | prepare t => exact prepare_inv t s hs
      | callback e =>
        cases hws : s.ws with
        | none =>
          unfold callback
          rw [hws]
          exact hs
        | some ws =>
          exact (callback_in_order u s e ws hws (by simpa using hend) hs hsafe).2
      | hbeat t nodata => exact hs.state _
      | sigint t => exact hs.state _
  refine ⟨⟨hinv.sound, fun e ws hx hend hws => ?_⟩, hinv⟩
  subst hx
  obtain ⟨hini, hroom⟩ := room_grown s ws hws hs
  have h := (callback_in_order u s e ws hws hend hs hsafe).1
  refine ⟨hini, hroom, ?_⟩
  unfold step
  rw [if_neg (by rw [hend]; simp)]
  exact h.fill

theorem logging_room (s : Slot) (e : Input) (ws : ws_s) (k : Nat) (hws : s.ws = some ws)
    (hin : s.inflate = false) (hst : s.st = COIN_ST_CONND ∨ s.st = COIN_ST_AUTHD ∨ s.st = COIN_ST_JOIND)
    (hret : (ws_recv ws (grow 4000 s.mem s.n) s.n ((grow 4000 s.mem s.n).size - s.n) e.rd).ret =
      some (k : Int))
    (hini : INI_GBOF ≤ s.n) (h : (ws_cb massage s e).1.mem.Sound) :
    s.n + k + INI_GBOF ≤
      (ws_recv ws (grow 4000 s.mem s.n) s.n ((grow 4000 s.mem s.n).size - s.n) e.rd).mem.size := by
  rw [ws_cb_logging s e ws k hws hin hst hret] at h
  exact shift_room weak e.tsp _ (s.n + k) (by omega) (logwss_weak ..) h

/-- Opens a raw connection, and no action of the coin has to wait. -/
def opens : Turn := ⟨some .WS_PROTO_RAW, 1, 1, 1, false⟩

def nearlyFull : List Byte := [0x81, 126, 0x0f, 0xe2] ++ List.replicate 4066 97

def joined : Slot := { connected with st := COIN_ST_JOIND }

theorem opened_callback (e : Input) :
    step massage (step massage (Slot.init false) (.prepare opens)).1 (.callback e) =
      ws_cb massage joined e := rfl

end Coins.Snarf
