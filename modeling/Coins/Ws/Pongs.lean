import Coins.Ws.Breaks
import Coins.Ws.Withheld
import Mathlib.Data.List.Forall2

/-!
# Pongs

How often `ws_recv` answers a ping.
-/

open Coins.Memory Coins.Transducer

namespace Coins.Ws

/-! ## The pings of a stream -/

/-- The payloads of the pings that end within the first `n` bytes. -/
def pings : List Frame → Nat → List (List Byte)
  | [], _ => []
  | f :: fs, n =>
    if n < f.bytes.length then []
    else (if opcode f.head = 9 then [f.payload] else []) ++ pings fs (n - f.bytes.length)

theorem mem_pings {fs : List Frame} {n : Nat} {payload : List Byte} (h : payload ∈ pings fs n) :
    ∃ f ∈ fs, opcode f.head = 9 ∧ f.payload = payload := by
  induction fs generalizing n with
  | nil => cases h
  | cons f fs ih =>
    rw [pings] at h
    split at h
    · cases h
    · rcases List.mem_append.mp h with h | h
      · split at h
        · rename_i h9
          exact ⟨f, List.mem_cons_self, h9, (List.mem_singleton.mp h).symm⟩
        · cases h
      · obtain ⟨g, hg, hrest⟩ := ih h
        exact ⟨g, List.mem_cons_of_mem _ hg, hrest⟩

theorem Frame.pg_take (f : Frame) (hk : known f.head = true) (k : Nat) :
    feed pgStep (.hdr [], []) (f.head ++ f.payload.take k) =
      if payLen f.head ≤ k then ((.hdr [], []), if opcode f.head = 9 then [f.payload] else [])
      else ((.body f.head (payLen f.head - k), if opcode f.head = 9 then f.payload.take k else []), []) := by
  have h2 := two_le_hdrLen f.head
  have hhl := f.head_len
  have hpl := f.pay_len
  have hhdr := pg_hdr f.head (le_of_eq hhl.symm) hk
  rw [List.take_of_length_le (le_of_eq hhl)] at hhdr
  rw [feed_append, hhdr]
  by_cases h0 : payLen f.head = 0
  · have hnil : f.payload = [] := List.eq_nil_of_length_eq_zero (by omega)
    rw [if_pos h0, if_pos (show payLen f.head ≤ k by omega), hnil]
    simp only [List.take_nil, feed_nil, List.append_nil]
  · rw [if_neg h0]
    simp only [List.nil_append]
    rw [pg_body _ _ _ _ (by omega) (by rw [List.length_take]; omega) (fun _ => rfl), List.nil_append]
    by_cases hle : payLen f.head ≤ k
    · rw [if_pos (by rw [List.length_take]; omega), if_pos hle, List.take_of_length_le (by omega)]
    · rw [if_neg (by rw [List.length_take]; omega), if_neg hle, List.length_take, Nat.min_eq_left (by omega)]

theorem pg_encode (fs : List Frame) (hk : ∀ f ∈ fs, known f.head = true) (n : Nat) :
    (feed pgStep (.hdr [], []) ((encode fs).take n)).2 = pings fs n := by
  induction fs generalizing n with
  | nil =>
    rw [encode, List.flatMap_nil, List.take_nil]
    rfl
  | cons f fs ih =>
    have ih' := ih fun g hg => hk g (List.mem_cons_of_mem _ hg)
    have hframe := f.pg_take (hk f List.mem_cons_self)
    have hlen := f.length_bytes
    have hhl := f.head_len
    have henc : encode (f :: fs) = f.bytes ++ encode fs := rfl
    rw [henc, List.take_append, pings]
    by_cases hn : n < f.bytes.length
    · have hzero : n - f.bytes.length = 0 := by omega
      rw [if_pos hn, hzero, List.take_zero, List.append_nil]
      by_cases hh : n < f.head.length
      · -- inside the header
        rw [Frame.bytes, List.take_append_of_le_length (by omega), pg_hdr_part _ _ (by omega) (by omega)]
      · -- inside the payload
        rw [Frame.bytes, List.take_append, List.take_of_length_le (by omega), hframe, if_neg (by omega)]
    · have hall : f.bytes.take n = f.head ++ f.payload.take (payLen f.head) := by
        rw [List.take_of_length_le (by omega), List.take_of_length_le (le_of_eq f.pay_len)]
        rfl
      rw [if_neg hn, hall, feed_append, hframe, if_pos (le_refl _)]
      simp only [ih']

/-! ## Stopping in a ping -/

/-- The receiver has a part of a ping. -/
def inPing : Rx → Bool
  | .body h _ => opcode h = 9
  | _ => false

theorem pg_rest (s : Rx × List Byte) (hs : inPing s.1 = false → s.2 = []) (c : List Byte)
    (h : inPing (feed pgStep s c).1.1 = false) : (feed pgStep s c).1.2 = [] := by
  induction c generalizing s with
  | nil => exact hs h
  | cons b c ih =>
    rw [feed_cons] at h ⊢
    refine ih _ ?_ h
    obtain ⟨x, acc⟩ := s
    cases x with
    | hdr got => exact fun _ => rfl
    | body hd left =>
      simp only [pgStep]
      split
      · exact fun _ => rfl
      · split
        · exact fun _ => rfl
        · rename_i h9 hleft
          rw [rxStep, if_neg hleft]
          intro hout
          simp [inPing] at hout
          exact absurd hout h9
    | dead => exact fun _ => rfl

theorem pg_length (x : Rx) (acc acc' c : List Byte) :
    (feed pgStep (x, acc) c).2.length = (feed pgStep (x, acc') c).2.length := by
  induction c generalizing x acc acc' with
  | nil => rfl
  | cons b c ih =>
    rw [feed_cons, feed_cons, List.length_append, List.length_append]
    cases x with
    | hdr got => rfl
    | body h left =>
      simp only [pgStep]
      split
      · rfl
      · split
        · rfl
        · rw [ih _ (acc ++ [b]) (acc' ++ [b])]
    | dead => rfl

/-- The payloads that a decoder answers which is stopped at the end of each piece. -/
def answered : Rx → List (List Byte) → List (List Byte)
  | _, [] => []
  | x, c :: cs => answers x c ++ answered (feed rxStep x c).1 cs

/-- How many pieces end in a ping. -/
def splits : Rx → List (List Byte) → Nat
  | _, [] => 0
  | x, c :: cs => (if inPing (feed rxStep x c).1 = true then 1 else 0) + splits (feed rxStep x c).1 cs

theorem length_unanswered (s : Rx × List Byte) :
    (unanswered s).length = if inPing s.1 = true then 1 else 0 := by
  obtain ⟨x, acc⟩ := s
  cases x with
  | hdr got => rfl
  | body h left =>
    by_cases h9 : opcode h = 9 <;> simp [unanswered, inPing, h9]
  | dead => rfl

theorem length_answered (x : Rx) (acc : List Byte) (cs : List (List Byte)) :
    (answered x cs).length = (feed pgStep (x, acc) cs.flatten).2.length + splits x cs := by
  induction cs generalizing x acc with
  | nil => rfl
  | cons c cs ih =>
    have hst : (feed pgStep (x, acc) c).1.1 = (feed rxStep x c).1 := pg_fst _ _
    have hst' : (feed pgStep (x, []) c).1.1 = (feed rxStep x c).1 := pg_fst _ _
    have hacc := pg_length x acc [] c
    have hlast := length_unanswered (feed pgStep (x, []) c).1
    rw [hst'] at hlast
    have ih' := ih (feed pgStep (x, acc) c).1.1 (feed pgStep (x, acc) c).1.2
    rw [Prod.mk.eta, hst] at ih'
    rw [answered, answers, splits, List.flatten_cons, feed_append, List.length_append, List.length_append,
      List.length_append, hlast, hacc, ih']
    omega

theorem answered_eq (x : Rx) (cs : List (List Byte)) (h : splits x cs = 0) :
    answered x cs = (feed pgStep (x, []) cs.flatten).2 := by
  induction cs generalizing x with
  | nil => rfl
  | cons c cs ih =>
    rw [splits, Nat.add_eq_zero_iff] at h
    have hout : inPing (feed rxStep x c).1 = false := by
      by_contra hin
      rw [if_pos (by simpa using hin)] at h
      exact absurd h.1 (by decide)
    have hacc : (feed pgStep (x, []) c).1.2 = [] :=
      pg_rest _ (fun _ => rfl) c (by rw [pg_fst]; exact hout)
    have hst : (feed pgStep (x, []) c).1 = ((feed rxStep x c).1, []) :=
      Prod.ext (pg_fst _ _) hacc
    have hlast := length_unanswered (feed pgStep (x, []) c).1
    rw [pg_fst, hout, if_neg (by decide)] at hlast
    rw [answered, answers, List.eq_nil_of_length_eq_zero hlast, List.append_nil, List.flatten_cons,
      feed_append, hst, ih _ h.2]

/-! ## Calls -/

/-- A ping whose payload is under way ends among the bytes at hand, and so does one whose header a
call gets to look at. -/
def PingsEnd (ws : ws_s) (c : Call) : Prop :=
  (ws.togo ≠ 0 → ws.frml.code = 9 → toSize ws.togo ≤ (ws.stashed ++ c.rd).length) ∧
    ∀ k, Begins ws (ws.stashed ++ c.rd) k → opcode ((ws.stashed ++ c.rd).drop k) = 9 →
      ¬ TooFew (ws.stashed ++ c.rd) k → decodeFrame ((ws.stashed ++ c.rd).drop k) ≠ none

theorem last_open {x : Rx} {l h' : List Byte} {left' : Nat} (hpos : ∀ h left, x = .body h left → 0 < left)
    (hlast : Last x l l) (hend : (feed rxStep x l).1 = .body h' left') :
    (∃ left, x = .body h' left ∧ l.length < left) ∨
      ∃ a m, l = a ++ m ∧ (feed rxStep x a).1 = .hdr [] ∧ ¬ TooFew l a.length ∧
        opcode m = opcode h' ∧ m.length < hdrLen m + payLen m := by
  cases hlast with
  | short hx hc hl =>
    rw [hx, hc] at hend
    cases hend
  | body hx hc =>
    rename_i h left
    left
    rw [hx, body_state _ _ _ (hpos _ _ hx)] at hend
    split at hend
    · rename_i hle
      have hlen := congrArg List.length hc
      rw [List.length_take] at hlen
      rw [List.drop_eq_nil_of_le (by omega)] at hend
      cases hend
    · rename_i hlt
      obtain ⟨rfl, -⟩ := Rx.body.inj hend
      exact ⟨left, hx, by omega⟩
  | frame a ha hl hc =>
    right
    have hal : a <+: l := by
      conv => rhs; rw [hc]
      exact List.prefix_append ..
    obtain ⟨m, rfl⟩ := hal
    rw [List.drop_left] at hl hc
    have hm : m.take (hdrLen m + payLen m) = m := (List.append_cancel_left hc).symm
    have h14 : 14 ≤ m.length := by
      rcases hl with hl | ⟨rfl, hl⟩
      · omega
      · exact le_of_eq hl.symm
    have hle := hdrLen_le m
    rw [feed_append, ha] at hend
    have hk := known_of_alive m h14 (by rw [hend]; exact Rx.noConfusion)
    have hframe := feed_frame m (by omega) hk
    rw [hm] at hframe
    rw [hframe] at hend
    split at hend
    · cases hend
    · obtain ⟨rfl, -⟩ := Rx.body.inj hend
      refine ⟨a, m, rfl, ha, ?_, (opcode_take _ _ (two_le_hdrLen m)).symm, by omega⟩
      rintro ⟨hfew, hfront⟩
      rw [List.length_append] at hfew hfront
      rcases hl with hl | ⟨rfl, hl⟩
      · omega
      · exact hfront ⟨rfl, by rw [List.length_nil]; omega⟩

theorem decodeFrame_short {m : List Byte} (h : m.length < hdrLen m + payLen m) : decodeFrame m = none := by
  unfold decodeFrame
  rw [if_pos (Or.inr h)]

theorem begins_whole {x : Rx} {l : List Byte} {k n : Nat} (hkn : k < n) (hn : n ≤ l.length)
    (hk : (feed rxStep x (l.take k)).1 = .hdr []) (hend : (feed rxStep x (l.take n)).1 = .hdr []) :
    decodeFrame (l.drop k) ≠ none := by
  have hsplit : l.take n = l.take k ++ (l.drop k).take (n - k) := by
    rw [← List.take_add, Nat.add_sub_cancel' hkn.le]
  rw [hsplit, feed_append, hk] at hend
  exact whole_of_back (l.drop k) (n - k) (by omega) (by rw [List.length_drop]; omega) hend

theorem call_ping (ws : ws_s) (c : Call) (x : Rx) (kept t kept' : List Byte) (hready : Ready ws x kept)
    (hsplit : kept ++ c.rd = t ++ kept') (hlast : Last x (kept ++ c.rd) t) {r : Received}
    (htook : Took ws c.buf x t kept' r) : inPing (feed rxStep x t).1 = false ↔ PingsEnd ws c := by
  have hstash : ws.stashed = kept := hready.raw
  have hdone := htook.ready.done_le
  rw [htook.ready.done] at hdone
  have hpos : ∀ h left, x = .body h left → 0 < left := by
    rintro h left rfl
    exact hready.tracks.1
  have hopen : ∀ h left, x = .body h left → toSize ws.togo = left ∧ ws.frml.code = opcode h := by
    rintro h left rfl
    exact ⟨hready.tracks.2.1, hready.tracks.2.2.1.1⟩
  unfold PingsEnd Begins
  simp only [feed_rx hready.tracks]
  rw [hsplit] at hlast
  rw [hstash, hsplit]
  have hlen : (t ++ kept').length = t.length + kept'.length := List.length_append
  by_cases h0 : r.ws.togo = 0
  · -- the call ended between two frames
    have hstate := htook.ready.tracks.hdr h0
    rw [hstate]
    refine ⟨fun _ => ⟨fun htogo _ => ?_, ?_⟩, fun _ => rfl⟩
    · obtain ⟨h, left, hx⟩ := hready.tracks.body htogo
      rw [(hopen h left hx).1]
      rw [hx, body_state _ _ _ (hpos _ _ hx)] at hstate
      split at hstate
      · omega
      · cases hstate
    · rintro k ⟨hk, hback⟩ - hfew
      rcases Nat.lt_or_ge k t.length with hlt | hge
      · exact begins_whole hlt (by omega) hback (by rw [List.take_left]; exact hstate)
      · refine absurd ⟨by omega, fun hfront => last_front hpos hlast ⟨by omega, hfront.2⟩⟩ hfew
  · -- it ended in a payload, so it took all bytes
    obtain ⟨h', left', hend⟩ := htook.ready.tracks.body h0
    obtain rfl := htook.ready.full h0
    rw [List.append_nil] at hlast hlen ⊢
    rw [hend]
    have hin : inPing (.body h' left') = false ↔ opcode h' ≠ 9 := by simp [inPing]
    rw [hin]
    rcases last_open hpos hlast hend with ⟨left, hx, hshort⟩ | ⟨a, m, rfl, ha, hfew, hop, hpart⟩
    · obtain ⟨hleft, hcode⟩ := hopen h' left hx
      have htogo : ws.togo ≠ 0 := fun hz => by
        have := hready.tracks.hdr hz
        rw [hx] at this
        cases this
      constructor
      · refine fun h9 => ⟨fun _ hc => absurd (hcode.symm.trans hc) h9, ?_⟩
        rintro k ⟨hk, hback⟩
        rw [hx, body_state _ _ _ (hpos _ _ hx), if_neg (by rw [List.length_take]; omega)] at hback
        cases hback
      · rintro ⟨hunder, -⟩ h9
        have := hunder htogo (hcode.trans h9)
        omega
    · have hal : a.length ≤ (a ++ m).length := by rw [List.length_append]; omega
      constructor
      · refine fun h9 => ⟨fun htogo _ => ?_, ?_⟩
        · obtain ⟨h, left, hx⟩ := hready.tracks.body htogo
          rw [(hopen h left hx).1]
          rw [hx, body_state _ _ _ (hpos _ _ hx)] at ha
          split at ha
          · omega
          · cases ha
        · rintro k ⟨hk, hback⟩ hk9 -
          rcases Nat.lt_trichotomy k a.length with hlt | rfl | hgt
          · exact begins_whole hlt hal hback (by rw [List.take_left]; exact ha)
          · rw [List.drop_left, hop] at hk9
            exact absurd hk9 h9
          · rw [List.take_append, List.take_of_length_le hgt.le, feed_append, ha] at hback
            rw [List.length_append] at hk
            exact absurd hback (inside_frame m (k - a.length) (by omega) (by omega) (by omega))
      · rintro ⟨-, hwhole⟩ h9
        refine hwhole a.length ⟨hal, by rw [List.take_left]; exact ha⟩ ?_ hfew ?_
        · rw [List.drop_left, hop, h9]
        · rw [List.drop_left]
          exact decodeFrame_short hpart

/-! ## Sessions -/

/-- The pongs of a run. -/
def pongs : ws_s → List Call → List (List Byte)
  | _, [] => []
  | ws, c :: cs => (ws_recv ws c.mem c.buf c.bsz c.rd).sent ++ pongs (call ws c).1 cs

theorem session_pongs (calls : List Call) (ws : ws_s) (x : Rx) (kept : List Byte) (hready : Ready ws x kept)
    (hfit : Each call Reads ws calls) (ha : (feed rxStep x (kept ++ received calls)).1 ≠ .dead) :
    pongs ws calls = (answered x (taken (feed call ws calls).2)).map ws_pong ∧
      (splits x (taken (feed call ws calls).2) = 0 ↔ Each call PingsEnd ws calls) := by
  induction calls generalizing ws x kept with
  | nil => exact ⟨rfl, fun _ => trivial, fun _ => rfl⟩
  | cons c cs ih =>
    obtain ⟨⟨hrd, hlen⟩, hfit'⟩ := hfit
    rw [received_cons, ← List.append_assoc] at ha
    obtain ⟨t, kept', hsplit, hlast, htook, hcall⟩ := call_took ws c x kept hready hrd hlen
      (Or.inl (alive_of_append _ _ _ ha))
    have hping := call_ping ws c x kept t kept' hready hsplit hlast htook
    rw [hsplit, List.append_assoc, feed_append] at ha
    obtain ⟨hpongs, hends⟩ := ih _ _ _ htook.ready (by rwa [hcall] at hfit') ha
    rw [pongs, feed_cons, htook.sent, Each, hcall]
    simp only [List.cons_append, List.nil_append, taken_cons, answered, List.map_append, splits]
    refine ⟨by rw [hpongs], ?_⟩
    rw [Nat.add_eq_zero_iff, hends, ← hping]
    simp

/-- **One pong for each ping**, exactly if no call ends in the payload of one. -/
theorem ws_recv_pongs (p : ws_proto_t) (fs : List Frame) (hk : ∀ f ∈ fs, known f.head = true)
    (hp : ∀ f ∈ fs, opcode f.head = 9 → f.payload.length ≤ 125) (calls : List Call)
    (hfit : Each call Reads (ws_s.init p) calls) (hpre : received calls <+: encode fs) :
    let n := (received calls).length - (feed call (ws_s.init p) calls).1.done
    List.Forall₂ (SingleFrame 0xA) (pings fs n) (pongs (ws_s.init p) calls) ↔
      Each call PingsEnd (ws_s.init p) calls := by
  have halive : (feed rxStep (.hdr []) ([] ++ received calls)).1 ≠ .dead := by
    rw [List.nil_append, List.prefix_iff_eq_take.mp hpre, feed_encode fs hk]
    exact stateAt_ne_dead _ _
  obtain ⟨-, -, -, htaken, -⟩ := session_frames p fs hk calls hfit hpre
  obtain ⟨hpongs, hends⟩ := session_pongs calls _ _ [] (ready_init p) hfit halive
  intro n
  have hcount := length_answered (.hdr []) [] (taken (feed call (ws_s.init p) calls).2)
  rw [htaken, pg_encode fs hk] at hcount
  rw [hpongs, ← hends]
  constructor
  · intro hall
    have hlen := hall.length_eq
    rw [List.length_map, hcount] at hlen
    exact Nat.left_eq_add.mp hlen
  · intro h0
    rw [answered_eq _ _ h0, htaken, pg_encode fs hk, List.forall₂_map_right_iff, List.forall₂_same]
    intro payload hmem
    obtain ⟨f, hf, h9, rfl⟩ := mem_pings hmem
    have hpong := ws_pong_spec f.payload
    rwa [List.take_of_length_le (hp f hf h9)] at hpong

/-- A ping that says `x`, with a message behind it. -/
theorem ws_recv_pongs_once :
    let fs : List Frame := [⟨[0x89, 1], [120], rfl, rfl⟩, sixteen]
    let calls : List Call := [⟨⟨fun _ => 0, 4000, []⟩, 0, 4000, encode fs⟩]
    let n := (received calls).length - (feed call (ws_s.init .WS_PROTO_RAW) calls).1.done
    List.Forall₂ (SingleFrame 0xA) (pings fs n) (pongs (ws_s.init .WS_PROTO_RAW) calls) ↔
      Each call PingsEnd (ws_s.init .WS_PROTO_RAW) calls := by
  intro fs calls
  exact ws_recv_pongs .WS_PROTO_RAW fs (by decide) (by decide) calls
    ⟨⟨by decide, by decide⟩, trivial⟩ (by decide)

/-- A ping of twenty bytes that comes in two reads is answered twice. -/
theorem split_ping_answered_twice :
    let fs : List Frame := [⟨[0x89, 20], List.replicate 20 120, rfl, rfl⟩]
    let calls : List Call := [⟨⟨fun _ => 0, 4000, []⟩, 0, 4000, (encode fs).take 14⟩,
      ⟨⟨fun _ => 0, 4000, []⟩, 0, 4000, (encode fs).drop 14⟩]
    received calls = encode fs ∧ (feed call (ws_s.init .WS_PROTO_RAW) calls).1.done = 0 ∧
      pings fs (received calls).length = [List.replicate 20 120] ∧
      pongs (ws_s.init .WS_PROTO_RAW) calls =
        [ws_pong (List.replicate 12 120), ws_pong (List.replicate 8 120)] ∧
      ¬ List.Forall₂ (SingleFrame 0xA) (pings fs (received calls).length)
        (pongs (ws_s.init .WS_PROTO_RAW) calls) := by
  refine ⟨by decide +kernel, by decide +kernel, by decide +kernel, by decide +kernel, fun h => ?_⟩
  exact absurd h.length_eq (by decide +kernel)

end Coins.Ws
