import Coins.Snarf.Bounds

/-!
# What is logged when a coin gives up

On a failure the fill of the session buffer has what came already, and it is added once more. So the
bytes behind it are logged, too, whatever they are.
-/

open Coins.Memory Coins.Lines Coins.Numeral Coins.Transducer Coins.Ws

namespace Coins.Snarf

open coin_st_t

/-! ## How far the loggers look -/

theorem log_lines_strays (buf : Int) (len prfz n : Nat) (m : Mem Byte) (lp : Nat) (hlt : lp < len)
    (hn : len - lp ≤ n) : Mem.Strays (buf + len - 1) m (log_lines massage buf len prfz n m lp).1 := by
  induction n generalizing m lp with
  | zero => omega
  | succ n ih =>
    rw [log_lines, if_pos hlt]
    cases hz : memchr nl (m.view (buf + lp) (len - lp)) with
    | none => exact Mem.Strays.read _ _ (by omega) (by omega)
    | some z =>
      have hzlen := memchr_lt _ _ _ hz
      rw [Mem.view_length] at hzlen
      simp only [massage]
      generalize hm : ((m.read (buf + lp) (z + 1)).move (buf + prfz - (INI_GBOF : Nat)) (buf + lp) z).store
        (buf + prfz - (INI_GBOF : Nat) + z) [nl] = m'
      have hlog : (m.read (buf + lp) (z + 1)).log <:+ (m'.read (buf - (INI_GBOF : Nat)) (prfz + (z + 1))).log := by
        rw [← hm]
        exact ⟨[_, _, _, _], rfl⟩
      by_cases hend : lp + z + 1 < len
      · exact (ih _ (lp + z + 1) hend (by omega)).before ((Mem.log_read m _ _).trans hlog)
      · -- the line break is the last byte of the text
        have hgrows := (log_lines_within weak buf len prfz n
          (m'.read (buf - (INI_GBOF : Nat)) (prfz + (z + 1))) (lp + z + 1) (by omega) (weak_takes ..)).1.grows
        exact (Mem.Strays.read (m := m) _ _ (by omega) (by push_cast; omega)).behind (hlog.trans hgrows)

theorem logwss_strays (t : Clock) (m : Mem Byte) (buf : Int) (len : Nat) (hlen : 0 < len) :
    Mem.Strays (buf + len - 1) m (logwss massage t m buf len).1 := by
  unfold logwss
  exact (log_lines_strays buf len _ len _ 0 hlen (by omega)).before ⟨[_, _], rfl⟩

/-! ## Failures -/

/-- A socket with a session buffer: what came before and was not logged is behind the room for a stamp. -/
structure Connected (s : Slot) (ws : ws_s) : Prop where
  conn : s.ws = some ws
  good : Good ws
  sized : Sized s.mem s.n
  ini : INI_GBOF ≤ s.n

/-- What `ws_recv` does in a callback. -/
def recvd (s : Slot) (e : Input) (ws : ws_s) : Received :=
  ws_recv ws (grow 4000 s.mem s.n) s.n ((grow 4000 s.mem s.n).size - s.n) e.rd

/-- The bytes of the buffer that were not logged before, and those that came. -/
def held (s : Slot) (e : Input) : List Byte := s.mem.view INI_GBOF (s.n - INI_GBOF) ++ appended s e

/-- After a failure the complete lines are logged, then that the program restarts, and what is behind
the bytes that came is not looked at. -/
def FailureLogged (s : Slot) (e : Input) (ws : ws_s) (nrd : Nat) (q : Slot × List Out) : Prop :=
  logged q.2 = (lines nl (held s e)).map (record e.tsp) ++ [record e.late (ascii "restart")] ∧
    ¬ Mem.Strays (s.n + nrd) (recvd s e ws).mem q.1.mem

theorem held_view (s : Slot) (e : Input) (ws : ws_s) (nrd : Nat) (hs : Connected s ws)
    (hret : (recvd s e ws).ret = some (nrd : Int)) :
    (recvd s e ws).mem.view INI_GBOF (s.n + nrd - INI_GBOF) = held s e := by
  have hini := hs.ini
  obtain ⟨hfree, -⟩ := grow_size 4000 s.mem s.n hs.sized (by omega) (by omega)
  have hb := ws_recv_bounded ws (grow 4000 s.mem s.n) s.n ((grow 4000 s.mem s.n).size - s.n) e.rd
    hs.good (by omega)
  have happ : appended s e = (recvd s e ws).mem.view s.n nrd := by
    unfold appended
    rw [hs.conn]
    change (recvd s e ws).text s.n = _
    unfold Received.text
    rw [hret]
    rfl
  have hgrown := grow_cell 4000 s.mem s.n
  have hold : (recvd s e ws).mem.view INI_GBOF (s.n - INI_GBOF) = s.mem.view INI_GBOF (s.n - INI_GBOF) := by
    unfold recvd
    rw [hb.mem.view _ _ (Or.inl (by omega)), Mem.view_congr s.mem _ _ _ fun i _ _ => by rw [hgrown]]
  have haddr : (INI_GBOF : Int) + (s.n - INI_GBOF : Nat) = s.n := by omega
  unfold held
  rw [show s.n + nrd - INI_GBOF = s.n - INI_GBOF + nrd by omega, Mem.view_append, hold, haddr, happ]

theorem recvd_view (s : Slot) (e : Input) (ws : ws_s) (l : List Byte) (k : Nat) (hfill : s.n = INI_GBOF + l.length)
    (hsized : Sized s.mem s.n) (hl : s.mem.view INI_GBOF l.length = l) (hws : s.ws = some ws) (hgood : Good ws)
    (hret : (recvd s e ws).ret = some (k : Int)) :
    k = (appended s e).length ∧
      (recvd s e ws).mem.view INI_GBOF (l ++ appended s e).length = l ++ appended s e ∧
      Good (recvd s e ws).ws ∧ 4096 ≤ (recvd s e ws).mem.size := by
  have hlength : k = (appended s e).length := by
    unfold appended
    rw [hws]
    change k = ((recvd s e ws).text s.n).length
    unfold Received.text
    rw [hret, Mem.view_length]
    rfl
  obtain ⟨hfree, hbig⟩ := grow_size 4000 s.mem s.n hsized (by omega) (by omega)
  have hb := ws_recv_bounded ws (grow 4000 s.mem s.n) s.n ((grow 4000 s.mem s.n).size - s.n) e.rd hgood (by omega)
  have hview := held_view s e ws k ⟨hws, hgood, hsized, by omega⟩ hret
  have hheld : held s e = l ++ appended s e := by
    unfold held
    rw [hfill, Nat.add_sub_cancel_left, hl]
  rw [hheld, show s.n + k - INI_GBOF = (l ++ appended s e).length by rw [List.length_append]; omega] at hview
  refine ⟨hlength, hview, hb.good ?_, ?_⟩
  · change (recvd s e ws).ret ≠ none
    rw [hret]
    simp
  · unfold recvd
    rw [hb.mem.size]
    exact hbig

theorem io_cb_logs (mas : Massage) (inflates : Bool) (talk : coin_st_t → List (List Byte)) (s : Slot) (e : Input)
    (ws : ws_s) (k : Nat) (hws : s.ws = some ws) (hlogs : Logs s e) (hret : (recvd s e ws).ret = some (k : Int)) :
    let r := recvd s e ws
    let q := log_him mas inflates { s with ws := some r.ws, mem := r.mem, st := upgrade (entered s) e.r }
      r.mem (s.n + k) k e
    io_cb mas inflates talk s e = (q.1, r.sent.map Out.sent ++ ((talk (entered s)).map Out.sent ++ q.2)) := by
  have hne := entered_ne s
  obtain ⟨hfail, hnodata, hintr, hfini⟩ := hlogs
  unfold recvd at *
  unfold io_cb
  rw [hws]
  simp only
  generalize grow 4000 s.mem s.n = m at hret ⊢
  generalize ws_recv ws m s.n (m.size - s.n) e.rd = r at hret ⊢
  have hneg : ¬ ((k : Int) < 0) := by omega
  have hu : (if s.st = COIN_ST_UNK then
      { s with ws := some r.ws, mem := r.mem, st := COIN_ST_CONN }
      else { s with ws := some r.ws, mem := r.mem } : Slot) =
      { s with ws := some r.ws, mem := r.mem, st := entered s } := by
    unfold entered
    split <;> rfl
  rw [hret]
  simp only [if_neg hneg, Int.toNat_natCast, hu]
  have hasked : entered s = COIN_ST_CONN ∨ entered s = COIN_ST_AUTH ∨ entered s = COIN_ST_JOIN → ¬ e.r < 0 :=
    fun hst hr => hfail ⟨hr, hst⟩
  cases he : entered s with
  | COIN_ST_UNK => exact absurd he hne
  | COIN_ST_CONN => simp [if_neg (hasked (Or.inl he))]
  | COIN_ST_AUTH => simp [if_neg (hasked (Or.inr (Or.inl he)))]
  | COIN_ST_JOIN => simp [if_neg (hasked (Or.inr (Or.inr he)))]
  | COIN_ST_CONND => simp [upgrade]
  | COIN_ST_AUTHD => simp [upgrade]
  | COIN_ST_JOIND => simp [upgrade]
  | COIN_ST_NODATA => exact absurd he hnodata
  | COIN_ST_INTR => exact absurd he hintr
  | COIN_ST_FINI => exact absurd he hfini

theorem io_cb_fails (inflates : Bool) (talk : coin_st_t → List (List Byte)) (s : Slot) (e : Input) (ws : ws_s)
    (nrd : Nat) (hws : s.ws = some ws) (hf : Fails s e) (hret : (recvd s e ws).ret = some (nrd : Int)) :
    let r := recvd s e ws
    let q := logwss massage e.tsp r.mem INI_GBOF (s.n + nrd + nrd - INI_GBOF)
    (io_cb massage inflates talk s e).1.mem = q.1 ∧
      logged (io_cb massage inflates talk s e).2 = q.2.2 ++ [record e.late (ascii "restart")] := by
  unfold recvd at *
  unfold io_cb
  rw [hws]
  simp only
  generalize grow 4000 s.mem s.n = m at hret ⊢
  generalize ws_recv ws m s.n (m.size - s.n) e.rd = r at hret ⊢
  have hneg : ¬ ((nrd : Int) < 0) := by omega
  have hu : (if s.st = COIN_ST_UNK then
      { s with ws := some r.ws, mem := r.mem, st := COIN_ST_CONN }
      else { s with ws := some r.ws, mem := r.mem } : Slot) =
      { s with ws := some r.ws, mem := r.mem, st := entered s } := by
    unfold entered
    split <;> rfl
  rw [hret]
  simp only [if_neg hneg, Int.toNat_natCast, hu]
  have hlogs : ∀ t : Slot, let q := logwss massage e.tsp r.mem INI_GBOF (s.n + nrd + nrd - INI_GBOF)
      (logunr massage t r.mem (s.n + nrd) nrd e).1.mem = q.1 ∧
        logged (r.sent.map Out.sent ++ (logunr massage t r.mem (s.n + nrd) nrd e).2) =
          q.2.2 ++ [record e.late (ascii "restart")] := by
    intro t q
    refine ⟨rfl, ?_⟩
    rw [logged_append, logged_sent, List.nil_append]
    unfold logunr unroll loghim
    dsimp only
    rw [logged_append, logged_map]
    rfl
  obtain ⟨hr, h | h | h⟩ := hf
  all_goals
    simp only [h, if_pos hr]
    exact hlogs _

theorem failure_logged_iff (inflates : Bool) (talk : coin_st_t → List (List Byte)) (s : Slot) (e : Input)
    (ws : ws_s) (nrd : Nat) (hs : Connected s ws) (hf : Fails s e) (hten : e.tsp.Ten)
    (hret : (recvd s e ws).ret = some (nrd : Int)) :
    FailureLogged s e ws nrd (io_cb massage inflates talk s e) ↔ nrd = 0 := by
  obtain ⟨hmem, hout⟩ := io_cb_fails inflates talk s e ws nrd hs.conn hf hret
  have hini := hs.ini
  unfold FailureLogged
  rw [hmem, hout]
  constructor
  · rintro ⟨-, hstray⟩
    by_contra hne
    refine hstray ?_
    have h := logwss_strays e.tsp (recvd s e ws).mem INI_GBOF (s.n + nrd + nrd - INI_GBOF) (by omega)
    obtain ⟨m1, a, n, hold, hlate, hn, hfar⟩ := h
    exact ⟨m1, a, n, hold, hlate, hn, by omega⟩
  · rintro rfl
    obtain ⟨hrecs, -, -⟩ := logwss_spec e.tsp (recvd s e ws).mem INI_GBOF (s.n + 0 + 0 - INI_GBOF) hten
    have hview := held_view s e ws 0 hs hret
    have hwithin : Mem.Within _ _ _ (logwss massage e.tsp (recvd s e ws).mem INI_GBOF (s.n + 0 + 0 - INI_GBOF)).1 :=
      (logwss_within weak e.tsp (recvd s e ws).mem INI_GBOF (s.n + 0 + 0 - INI_GBOF) (logwss_weak ..)).1
    simp only [Nat.add_zero] at hrecs hview hwithin ⊢
    rw [hview] at hrecs
    rw [text_ten e.tsp hten] at hwithin
    refine ⟨by rw [hrecs], fun hstray => hstray.not_within (hwithin.mono (le_refl _) ?_)⟩
    push_cast
    omega

/-- **A failure logs what came**, when nothing came with it. -/
theorem failure_logged (s : Slot) (e : Input) (ws : ws_s) (nrd : Nat) (hs : Connected s ws) (hf : Fails s e)
    (hten : e.tsp.Ten) (hret : (recvd s e ws).ret = some (nrd : Int)) :
    (FailureLogged s e ws nrd (ws_cb massage s e) ↔ nrd = 0) ∧
      (FailureLogged s e ws nrd (sio3_cb massage s e) ↔ nrd = 0) :=
  ⟨failure_logged_iff s.inflate _ s e ws nrd hs hf hten hret, failure_logged_iff false _ s e ws nrd hs hf hten hret⟩

/-- The socket of a coin that has yet to say that it is connected. -/
def connecting : Slot := { connected with st := COIN_ST_CONN }

/-- A read that the coin takes for `r`. -/
def taken (r : Int) (rd : List Byte) : Input := ⟨rd, noon, noon, r, none⟩

/-- Three bytes of a line are there. -/
def halfway : Slot :=
  { connecting with mem := (⟨fun _ => 0, 4096, []⟩ : Mem Byte).store INI_GBOF (ascii "abc"), n := 24 }

theorem failure_logged_ping :
    held halfway (taken (-1) [0x89, 0]) = ascii "abc" ∧
      FailureLogged halfway (taken (-1) [0x89, 0]) (ws_s.init .WS_PROTO_RAW) 0
        (ws_cb massage halfway (taken (-1) [0x89, 0])) :=
  ⟨by decide +kernel, (failure_logged halfway (taken (-1) [0x89, 0]) (ws_s.init .WS_PROTO_RAW) 0
    ⟨rfl, good_init _, Or.inr ⟨le_refl _, by decide⟩, by decide⟩ ⟨by decide, Or.inl rfl⟩ noon_ten
    (by decide +kernel)).1.mpr rfl⟩

/-- A line of 49 bytes, and a shorter one with which the coin fails. -/
def longLine : List Byte := [0x81, 50] ++ List.replicate 49 97 ++ [10]

def shortLine : List Byte := [0x81, 25] ++ List.replicate 24 98 ++ [10]

/-- What is left of the longer line is logged once more. -/
theorem stale_line_logged :
    let s := (ws_cb massage connecting (taken 0 longLine)).1
    let e := taken (-1) shortLine
    logged (ws_cb massage s e).2 ≠ (lines nl (held s e)).map (record e.tsp) ++ [record e.late (ascii "restart")] := by
  decide +kernel

end Coins.Snarf
