import Coins.Ws.Segmentation

/-!
# Frames that are withheld

The bytes that `ws_recv` keeps for the next call, and when there is a whole frame among them.
-/

open Coins.Memory Coins.Transducer

namespace Coins.Ws

/-! ## Places in the stream -/

/-- Where the receiver stands, as the handle has it. -/
def ws_s.rx (ws : ws_s) : Rx := if ws.togo = 0 then .hdr [] else .body ws.frml.raw (toSize ws.togo)

/-- A frame begins behind `k` of the bytes at hand. -/
def Begins (ws : ws_s) (l : List Byte) (k : Nat) : Prop :=
  k ≤ l.length ∧ (feed rxStep ws.rx (l.take k)).1 = .hdr []

/-- There are not enough bytes from there on for its header to be looked at. -/
def TooFew (l : List Byte) (k : Nat) : Prop := l.length ≤ k + 14 ∧ ¬ (k = 0 ∧ l.length = 14)

theorem inside_frame (m : List Byte) (j : Nat) (hpos : 0 < j) (hj : j < hdrLen m + payLen m) (hm : j ≤ m.length) :
    (feed rxStep (.hdr []) (m.take j)).1 ≠ .hdr [] := by
  have h2 := two_le_hdrLen m
  by_cases hhdr : j < hdrLen m
  · rw [feed_hdr_part m j hhdr hm]
    intro h
    have := congrArg List.length (Rx.hdr.inj h)
    rw [List.length_take, List.length_nil] at this
    omega
  · have hlen : (m.take j).length = j := by
      rw [List.length_take]
      omega
    have hh : hdrLen (m.take j) = hdrLen m := hdrLen_take _ _ (by omega)
    have hp : payLen (m.take j) = payLen m := payLen_take _ _ (by omega)
    by_cases hk : known (m.take j) = true
    · have hframe := feed_frame (m.take j) (by omega) hk
      rw [List.take_of_length_le (show (m.take j).length ≤ _ by omega), if_neg (by omega)] at hframe
      rw [hframe]
      exact Rx.noConfusion
    · have hdead := feed_hdr (m.take j) (by omega)
      rw [if_pos (by simpa using hk)] at hdead
      rw [← List.take_append_drop (hdrLen (m.take j)) (m.take j), feed_append, hdead, feed_dead]
      exact Rx.noConfusion

theorem whole_of_back (l : List Byte) (j : Nat) (hpos : 0 < j) (hj : j ≤ l.length)
    (h : (feed rxStep (.hdr []) (l.take j)).1 = .hdr []) : decodeFrame l ≠ none := by
  have h2 := two_le_hdrLen l
  have hlt : ¬ j < hdrLen l + payLen l := fun hlt => inside_frame l j hpos hlt hj h
  unfold decodeFrame
  rw [if_neg (by omega)]
  exact Option.some_ne_none _

theorem body_state (h : List Byte) (left : Nat) (l : List Byte) (hpos : 0 < left) :
    (feed rxStep (.body h left) l).1 =
      if left ≤ l.length then (feed rxStep (.hdr []) (l.drop left)).1 else .body h (left - l.length) := by
  have hfeed := feed_body h left (l.take left) hpos (by rw [List.length_take]; omega)
  by_cases hall : left ≤ l.length
  · have hlen : (l.take left).length = left := by
      rw [List.length_take]
      omega
    rw [if_pos hlen] at hfeed
    conv => lhs; rw [← List.take_append_drop left l, feed_append, hfeed]
    rw [if_pos hall]
  · have htake : l.take left = l := List.take_of_length_le (by omega)
    rw [htake, if_neg (by omega)] at hfeed
    rw [if_neg hall, hfeed]

theorem feed_rx {ws : ws_s} {x : Rx} (ht : Tracks ws x) (c : List Byte) :
    (feed rxStep ws.rx c).1 = .hdr [] ↔ (feed rxStep x c).1 = .hdr [] := by
  unfold ws_s.rx
  by_cases h0 : ws.togo = 0
  · rw [if_pos h0, ht.hdr h0]
  · obtain ⟨h, left, rfl⟩ := ht.body h0
    obtain ⟨hpos, hleft, -, -⟩ := ht
    rw [if_neg h0, hleft, body_state _ _ _ hpos, body_state _ _ _ hpos]
    split
    · rfl
    · simp

/-! ## The end of a call -/

/-- The call comes back. -/
def Returns (ws : ws_s) (c : Call) : Prop := (ws_recv ws c.mem c.buf c.bsz c.rd).ret ≠ none

/-- No frame that is all there begins where there are too few bytes for its header to be looked at. -/
def Whole (ws : ws_s) (c : Call) : Prop :=
  ∀ k, Begins ws (ws.stashed ++ c.rd) k → TooFew (ws.stashed ++ c.rd) k →
    decodeFrame ((ws.stashed ++ c.rd).drop k) = none

theorem last_begins {x : Rx} {l t : List Byte} (hpos : ∀ h left, x = .body h left → 0 < left)
    (hlast : Last x l t) {k : Nat} (hk : k < t.length) (ht : t <+: l)
    (hback : (feed rxStep x (l.take k)).1 = .hdr []) : ¬ TooFew l k := by
  have htl := ht.length_le
  cases hlast with
  | short hx hc hl =>
    rw [hc, List.length_nil] at hk
    omega
  | body hx hc =>
    rename_i h left
    have hlen := congrArg List.length hc
    rw [List.length_take] at hlen
    rw [hx, body_state _ _ _ (hpos _ _ hx), if_neg (by rw [List.length_take]; omega)] at hback
    cases hback
  | frame a ha hl hc =>
    have hlen := congrArg List.length hc
    rw [List.length_append, List.length_take, List.length_drop] at hlen
    rintro ⟨hfew, hfront⟩
    rw [List.length_drop] at hl
    rcases Nat.lt_or_ge a.length k with hka | hka
    · -- inside the last frame
      have hal : a <+: l := by
        rw [hc] at ht
        exact (List.prefix_append ..).trans ht
      obtain ⟨m, rfl⟩ := hal
      rw [List.drop_left] at hlen hc
      rw [List.take_append, List.take_of_length_le (Nat.le_of_lt hka), feed_append, ha] at hback
      rw [List.length_append] at hlen htl
      exact inside_frame m (k - a.length) (by omega) (by omega) (by omega) hback
    · rcases hl with hl | ⟨hnil, hl⟩
      · omega
      · rw [hnil, List.length_nil] at hka
        exact hfront ⟨by omega, hl⟩

theorem last_front {x : Rx} {l t : List Byte} (hpos : ∀ h left, x = .body h left → 0 < left)
    (hlast : Last x l t) : ¬ (t.length = 0 ∧ l.length = 14) := by
  rintro ⟨hnil, hl⟩
  cases hlast with
  | short hx hc hlt => omega
  | body hx hc =>
    have := hpos _ _ hx
    rw [hc, List.length_take] at hnil
    omega
  | frame a ha hle hc =>
    have h2 := two_le_hdrLen (l.drop a.length)
    rw [hc, List.length_append, List.length_take, List.length_drop] at hnil
    rw [List.length_drop] at hle
    rcases hle with hle | ⟨ha', -⟩
    · omega
    · rw [ha', List.length_nil] at hnil h2
      omega

theorem call_whole (ws : ws_s) (c : Call) (x : Rx) (kept : List Byte) (hready : Ready ws x kept)
    (hrd : c.rd ≠ []) (hfit : c.rd.length + ws.done ≤ c.bsz) (ha : Returns ws c) :
    decodeFrame (call ws c).1.stashed = none ↔ Whole ws c := by
  obtain ⟨t, kept', hsplit, hlast, htook, hcall⟩ := call_took ws c x kept hready hrd hfit (Or.inr ha)
  have hstash : ws.stashed = kept := hready.raw
  have hstash' : (call ws c).1.stashed = kept' := by
    rw [hcall]
    exact htook.ready.raw
  have hdone := htook.ready.done_le
  rw [htook.ready.done] at hdone
  have hpos : ∀ h left, x = .body h left → 0 < left := by
    rintro h left rfl
    exact hready.tracks.1
  unfold Whole Begins
  simp only [feed_rx hready.tracks]
  rw [hsplit] at hlast
  rw [hstash, hstash', hsplit]
  have hlen : (t ++ kept').length = t.length + kept'.length := List.length_append
  by_cases h0 : (ws_recv ws c.mem c.buf c.bsz c.rd).ws.togo = 0
  · have hstate := htook.ready.tracks.hdr h0
    constructor
    · rintro hclean k ⟨hk, hback⟩ hfew
      rcases Nat.lt_trichotomy k t.length with hlt | rfl | hgt
      · exact absurd hfew (last_begins hpos hlast hlt (List.prefix_append ..) hback)
      · rw [List.drop_left]
        exact hclean
      · -- the bytes that are kept would begin with a whole frame
        rw [List.take_append, List.take_of_length_le (Nat.le_of_lt hgt), feed_append, hstate] at hback
        exact absurd hclean (whole_of_back kept' (k - t.length) (by omega) (by omega) hback)
    · intro hwhole
      have hat := hwhole t.length ⟨by omega, by rw [List.take_left]; exact hstate⟩
        ⟨by omega, last_front hpos hlast⟩
      rwa [List.drop_left] at hat
  · have hnil := htook.ready.full h0
    subst hnil
    constructor
    · rintro - k ⟨hk, hback⟩ hfew
      rcases Nat.lt_or_ge k t.length with hlt | hge
      · exact absurd hfew (last_begins hpos hlast hlt (List.prefix_append ..) hback)
      · rw [List.drop_eq_nil_of_le (by rw [hlen, List.length_nil]; omega)]
        rfl
    · exact fun _ => rfl

theorem session_each {P : ws_s → Call → Prop} (calls : List Call) (ws : ws_s) (x : Rx) (kept : List Byte)
    (hready : Ready ws x kept) (hfit : Each call Reads ws calls) (ha : Each call Returns ws calls)
    (hP : ∀ ws x kept c, Ready ws x kept → Reads ws c → Returns ws c → P ws c) : Each call P ws calls := by
  induction calls generalizing ws x kept with
  | nil => trivial
  | cons c cs ih =>
    obtain ⟨hreads, hfit'⟩ := hfit
    obtain ⟨hret, ha'⟩ := ha
    obtain ⟨t, kept', hsplit, -, htook, hcall⟩ := call_took ws c x kept hready hreads.1 hreads.2 (Or.inr hret)
    refine ⟨hP ws x kept c hready hreads hret, ?_⟩
    rw [hcall] at hfit' ha' ⊢
    exact ih _ _ _ htook.ready hfit' ha'

/-- **Nothing whole is withheld** by a call exactly if no whole frame begins too near to its end. -/
theorem ws_recv_withheld (p : ws_proto_t) (calls : List Call) (hfit : Each call Reads (ws_s.init p) calls)
    (ha : Each call Returns (ws_s.init p) calls) :
    Each call (fun ws c => decodeFrame (call ws c).1.stashed = none ↔ Whole ws c) (ws_s.init p) calls :=
  session_each calls _ _ [] (ready_init p) hfit ha fun ws x kept c hready hreads hret =>
    call_whole ws c x kept hready hreads.1 hreads.2 hret

theorem ws_recv_withheld_once :
    let calls : List Call := [⟨⟨fun _ => 0, 4000, []⟩, 0, 4000, [0x81, 16] ++ List.replicate 16 101⟩]
    Each call (fun ws c => decodeFrame (call ws c).1.stashed = none ↔ Whole ws c)
      (ws_s.init .WS_PROTO_RAW) calls :=
  ws_recv_withheld .WS_PROTO_RAW _ ⟨⟨by decide, by decide⟩, trivial⟩ ⟨by unfold Returns; decide +kernel, trivial⟩

/-- A ping of two bytes, all of it there, is kept for the next call. -/
theorem ping_withheld :
    let r := ws_recv (ws_s.init .WS_PROTO_RAW) ⟨fun _ => 0, 4000, []⟩ 0 4000 [0x89, 0]
    r.ret = some 0 ∧ r.sent = [] ∧ r.ws.stashed = [0x89, 0] ∧
      decodeFrame r.ws.stashed = some ⟨true, 9, false, 0, [], [], []⟩ := by
  decide +kernel

end Coins.Ws
