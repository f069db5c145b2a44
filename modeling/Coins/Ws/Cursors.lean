import Coins.Ws.Bounds
import Mathlib.Logic.Relation

/-!
# The cursors of `ws_recv`

The labels of `ws_recv` and what is done from one to the next. What has been received and not been looked at
lies behind the payload cursor, and all writing is done before it.
-/

open Coins.Endian Coins.Memory Coins.Transducer

namespace Coins.Ws

/-! ## From label to label -/

inductive Label
  | again | unpkd | stash
deriving DecidableEq

structure Point where
  label : Label
  loc : Loc

/-- The next label, unless the code returns or calls `abort` before it. -/
def Point.next (buf : Int) (nrd : Nat) : Point → Option Point
  | ⟨.again, s⟩ => some ⟨.unpkd, unpack buf s⟩
  | ⟨.unpkd, s⟩ =>
    let s' := deliver buf nrd s
    if s'.dead then none
    else if s'.pp + 14 < nrd then some ⟨.again, s'⟩
    else some ⟨.stash, s'⟩
  | ⟨.stash, _⟩ => none

/-- The first label when the bytes `rd` have come. -/
def Point.start (ws : ws_s) (m : Mem Byte) (buf : Int) (rd : List Byte) : Point :=
  let m := (m.store buf (ws.frml.raw.take ws.done)).store (buf + ws.done) rd
  let s : Loc := ⟨ws, m, 0, 0, [], false⟩
  if rd.length + ws.done < 14 ∧ ws.togo = 0 then ⟨.stash, s⟩
  else if ws.togo ≠ 0 then ⟨.unpkd, s⟩
  else ⟨.again, s⟩

/-- `q'` comes after `q`, or is `q`. -/
def Leads (buf : Int) (nrd : Nat) : Point → Point → Prop :=
  Relation.ReflTransGen fun q q' => q.next buf nrd = some q'

/-! ## What is so at a label -/

section
variable (buf : Int) (all : List Byte)

/-- Of the bytes `all` those behind the cursor are as they came, and where a header is taken all of it has
come. -/
structure Sound (q : Point) : Prop where
  pp_le : q.loc.pp ≤ all.length
  rp_le : q.loc.rp ≤ q.loc.pp
  unread : q.loc.mem.view (buf + q.loc.pp) (all.length - q.loc.pp) = all.drop q.loc.pp
  header : q.label = .again → q.loc.pp + 14 ≤ all.length

/-- The bytes that are left, and the frames that are left in them. -/
structure Keeps (q : Point) : Prop where
  at_ : At buf all.length q.loc (all.drop q.loc.pp)
  again : q.label = .again → q.loc.pp + 14 ≤ all.length ∧
    (feed rxStep (.hdr []) (all.drop q.loc.pp)).1 ≠ .dead
  unpkd : q.label = .unpkd → known q.loc.ws.frml.raw = true ∧
    (feed rxStep (.hdr []) (all.drop (q.loc.pp + toSize q.loc.ws.togo))).1 ≠ .dead
  stash : q.label = .stash → all.length ≤ q.loc.pp + 14 ∧ (q.loc.ws.togo ≠ 0 → q.loc.pp = all.length)

variable {buf all} {q q' : Point}

theorem Keeps.sound (h : Keeps buf all q) : Sound buf all q :=
  ⟨h.at_.pp_le, h.at_.rp_le, h.at_.view, fun ha => (h.again ha).1⟩

theorem alive_behind (l : List Byte) (h14 : 14 ≤ l.length) (h : (feed rxStep (.hdr []) l).1 ≠ .dead) :
    (feed rxStep (.hdr []) (l.drop (hdrLen l + payLen l))).1 ≠ .dead := by
  have hle := hdrLen_le l
  have hk := known_of_alive l h14 h
  by_cases hall : hdrLen l + payLen l ≤ l.length
  · rw [← List.take_append_drop (hdrLen l + payLen l) l, feed_append,
      feed_frame l (by omega) hk, if_pos hall] at h
    exact h
  · rw [List.drop_eq_nil_of_le (by omega)]
    exact Rx.noConfusion

theorem unpack_keeps (s : Loc) (h : Keeps buf all ⟨.again, s⟩) : Keeps buf all ⟨.unpkd, unpack buf s⟩ := by
  obtain ⟨hlong, halive⟩ := h.again rfl
  have h14 : 14 ≤ (all.drop s.pp).length := by
    rw [List.length_drop]
    simp only at hlong
    omega
  have hu := unpack_spec buf all.length s _ h.at_ h14
  have hpp := hu.pp
  have hk := known_of_alive _ h14 halive
  have hbehind := alive_behind _ h14 halive
  have hsize : toSize (unpack buf s).ws.togo = payLen (all.drop s.pp) := by
    rw [hu.togo, toSize_toSsize, toSize_ofNat _ (payLen_lt _)]
  refine ⟨?_, fun ha => Label.noConfusion ha, fun _ => ⟨?_, ?_⟩, fun ha => Label.noConfusion ha⟩
  · have hat := hu.at_
    rw [List.drop_drop, ← hpp] at hat
    exact hat
  · have hholds := holds_raw (unpack buf s).ws.frml
    rw [known, ← hholds.1, hu.holds.1]
    exact hk
  · simp only
    rw [List.drop_drop] at hbehind
    rw [hsize, hpp, Nat.add_assoc]
    exact hbehind

theorem deliver_alive (s : Loc) (h : Keeps buf all ⟨.unpkd, s⟩) : (deliver buf all.length s).dead = false :=
  (deliver_spec buf all.length s _ _ h.at_ (holds_raw _) (h.unpkd rfl).1).at_.alive

theorem deliver_keeps (s : Loc) (h : Keeps buf all ⟨.unpkd, s⟩) (lab : Label) (hlab : lab ≠ .unpkd)
    (hmore : lab = .again ↔ (deliver buf all.length s).pp + 14 < all.length) :
    Keeps buf all ⟨lab, deliver buf all.length s⟩ := by
  obtain ⟨hk, halive⟩ := h.unpkd rfl
  have hd := deliver_spec buf all.length s _ _ h.at_ (holds_raw _) hk
  obtain ⟨l, hat, hfull⟩ := (deliver_looped buf all.length s _ h.at_).at_ hd.at_.alive
  have hpp := hd.pp
  have hlen : (all.drop s.pp).length = all.length - s.pp := List.length_drop
  have hle := h.at_.pp_le
  simp only at hle halive hd hpp
  refine ⟨?_, fun ha => ?_, fun ha => absurd ha hlab, fun ha => ⟨?_, fun hne => ?_⟩⟩
  · have := hd.at_
    rw [List.drop_drop, ← hpp] at this
    exact this
  · -- there is more than this payload
    have hlt := hmore.mp ha
    refine ⟨hlt.le, ?_⟩
    simp only
    rw [hpp, Nat.min_eq_left (by omega)]
    exact halive
  · have hno : ¬ (deliver buf all.length s).pp + 14 < all.length := by
      rw [← hmore]
      intro hagain
      rw [hagain] at ha
      exact Label.noConfusion ha
    exact Nat.le_of_not_lt hno
  · have hnil := (hfull hne).1
    have hat_len := hat.length
    rw [hnil] at hat_len
    have := hat.pp_le
    simp only [List.length_nil] at hat_len
    simp only
    omega

theorem next_keeps (h : Keeps buf all q) (hq : q.next buf all.length = some q') : Keeps buf all q' := by
  obtain ⟨label, s⟩ := q
  cases label with
  | again =>
    cases hq
    exact unpack_keeps s h
  | unpkd =>
    unfold Point.next at hq
    simp only [deliver_alive s h, Bool.false_eq_true, if_false] at hq
    split at hq
    · rename_i hmore
      cases hq
      exact deliver_keeps s h .again Label.noConfusion (iff_of_true rfl hmore)
    · rename_i hmore
      cases hq
      exact deliver_keeps s h .stash Label.noConfusion (iff_of_false Label.noConfusion hmore)
  | stash => cases hq

theorem leads_keeps (h : Keeps buf all q) (hq : Leads buf all.length q q') : Keeps buf all q' := by
  induction hq with
  | refl => exact h
  | tail _ hstep ih => exact next_keeps ih hstep

theorem deliver_writes (s : Loc) (nrd : Nat) (i : Int) (hrp : s.rp ≤ s.pp)
    (hi : (deliver buf nrd s).mem.Wrote i) :
    s.mem.Wrote i ∨ buf ≤ i ∧ i < buf + (deliver buf nrd s).pp := by
  unfold deliver at hi ⊢
  simp only at hi ⊢
  split at hi
  · rename_i hcode
    rw [if_pos hcode]
    rw [Mem.wrote_move] at hi
    rcases hi with hi | hi
    · right
      push_cast
      omega
    · exact Or.inl hi
  · rename_i hcode
    rw [if_neg hcode]
    split at hi
    · rename_i hping
      rw [if_pos hping]
      rw [Mem.wrote_move, Mem.wrote_read] at hi
      rcases hi with hi | hi
      · right
        push_cast
        omega
      · exact Or.inl hi
    · left
      split at hi
      · exact hi
      · exact hi

theorem next_writes (h : Keeps buf all q) (hq : q.next buf all.length = some q') (i : Int)
    (hi : q'.loc.mem.Wrote i) : q.loc.mem.Wrote i ∨ buf ≤ i ∧ i < buf + q'.loc.pp := by
  obtain ⟨label, s⟩ := q
  have hrp := h.at_.rp_le
  cases label with
  | again =>
    cases hq
    obtain ⟨hlong, halive⟩ := h.again rfl
    have hu := unpack_spec buf all.length s _ h.at_ (by rw [List.length_drop]; simp only at hlong ⊢; omega)
    have hpp := hu.pp
    have h2 := two_le_hdrLen (all.drop s.pp)
    have hmem : (unpack buf s).mem = (s.mem.read (buf + s.pp) 14).store (buf + s.rp) [nl] := rfl
    simp only at hi hrp hpp ⊢
    rw [hmem, Mem.wrote_store, Mem.wrote_read, List.length_singleton] at hi
    rcases hi with hi | hi
    · right
      omega
    · exact Or.inl hi
  | unpkd =>
    unfold Point.next at hq
    simp only [deliver_alive s h, Bool.false_eq_true, if_false] at hq
    have hq' : q'.loc = deliver buf all.length s := by
      split at hq
      · cases hq
        rfl
      · cases hq
        rfl
    rw [hq'] at hi ⊢
    exact deliver_writes s all.length i hrp hi
  | stash => cases hq

/-! ## The end of the loop -/

theorem turn_pp (s : Loc) (h : Keeps buf all ⟨.again, s⟩) :
    s.pp < (deliver buf all.length (unpack buf s)).pp := by
  have hk := unpack_keeps s h
  have hle := (deliver_looped buf all.length _ _ hk.at_).pp_le (deliver_alive _ hk)
  obtain ⟨hlong, -⟩ := h.again rfl
  have hpp := (unpack_spec buf all.length s _ h.at_ (by rw [List.length_drop]; simp only at hlong ⊢; omega)).pp
  have h2 := two_le_hdrLen (all.drop s.pp)
  simp only at hpp hle
  omega

theorem leads_stash (n : Nat) (s : Loc) (h : Keeps buf all ⟨.unpkd, s⟩)
    (hn : all.length ≤ (deliver buf all.length s).pp + 14 + n) :
    Leads buf all.length ⟨.unpkd, s⟩ ⟨.stash, more buf all.length n (deliver buf all.length s)⟩ := by
  induction n generalizing s with
  | zero =>
    refine Relation.ReflTransGen.single ?_
    unfold Point.next
    simp only [deliver_alive s h, Bool.false_eq_true, if_false]
    exact if_neg (by omega)
  | succ n ih =>
    have ha := deliver_alive s h
    by_cases hmore : (deliver buf all.length s).pp + 14 < all.length
    · have hagain : Point.next buf all.length ⟨.unpkd, s⟩ = some ⟨.again, deliver buf all.length s⟩ := by
        unfold Point.next
        simp only [ha, Bool.false_eq_true, if_false, if_pos hmore]
      have hkeeps := next_keeps h hagain
      have hpp := turn_pp _ hkeeps
      have hgo : more buf all.length (n + 1) (deliver buf all.length s) =
          more buf all.length n (deliver buf all.length (unpack buf (deliver buf all.length s))) := by
        rw [more, if_neg (by rw [ha]; simpa using hmore)]
      rw [hgo]
      exact .head hagain (.head rfl (ih _ (unpack_keeps _ hkeeps) (by omega)))
    · rw [more_stop _ _ _ _ (Or.inr (by omega))]
      refine Relation.ReflTransGen.single ?_
      unfold Point.next
      simp only [ha, Bool.false_eq_true, if_false, if_neg hmore]

end

/-! ## A call -/

section
variable (ws : ws_s) (c : Call)

/-- The bytes a call has at hand. -/
def atHand : List Byte := ws.stashed ++ c.rd

/-- `q` is a label that the call comes to, if bytes have come. -/
def Reached (q : Point) : Prop :=
  c.rd ≠ [] ∧ Leads c.buf (atHand ws c).length (Point.start ws c.mem c.buf c.rd) q

/-- What is received fits behind what was kept. -/
def Room : Prop := c.rd.length + ws.done ≤ c.bsz

/-- The bookkeeping of a call, at every label and at its end. -/
structure Bookkept : Prop where
  sound : ∀ q, Reached ws c q → Sound c.buf (atHand ws c) q
  writes : ∀ q q', Reached ws c q → q.next c.buf (atHand ws c).length = some q' →
    ∀ i, q'.loc.mem.Wrote i → q.loc.mem.Wrote i ∨ c.buf ≤ i ∧ i < c.buf + q'.loc.pp
  ends : c.rd ≠ [] → ∃ s, Reached ws c ⟨.stash, s⟩ ∧
    ws_recv ws c.mem c.buf c.bsz c.rd = stash c.buf (atHand ws c).length s
  returns : ∀ t ∈ (call ws c).2, t.ret ≠ none
  done_le : (call ws c).1.done ≤ 14
  full : (call ws c).1.togo ≠ 0 → (call ws c).1.done = 0
  kept : (call ws c).1.stashed = (atHand ws c).drop ((atHand ws c).length - (call ws c).1.done)

end

variable {ws : ws_s} {c : Call}

theorem atHand_length {x : Rx} {kept : List Byte} (h : Ready ws x kept) :
    (atHand ws c).length = c.rd.length + ws.done := by
  have hk : ws.stashed = kept := h.raw
  unfold atHand
  rw [List.length_append, hk, ← h.done, Nat.add_comm]

theorem alive_payload (h l : List Byte) (left : Nat) (hpos : 0 < left)
    (ha : (feed rxStep (.body h left) l).1 ≠ .dead) : (feed rxStep (.hdr []) (l.drop left)).1 ≠ .dead := by
  by_cases hall : left ≤ l.length
  · have hlen : (l.take left).length = left := by
      rw [List.length_take]
      omega
    rw [← List.take_append_drop left l, feed_append, feed_body h left _ hpos hlen.le, if_pos hlen] at ha
    exact ha
  · rw [List.drop_eq_nil_of_le (by omega)]
    exact Rx.noConfusion

theorem start_keeps {x : Rx} (h : Ready ws x ws.stashed) (ha : (feed rxStep x (atHand ws c)).1 ≠ .dead) :
    Keeps c.buf (atHand ws c) (Point.start ws c.mem c.buf c.rd) := by
  have hlen := atHand_length (c := c) h
  have hat := at_start ws c.mem c.buf c.rd ws.stashed h.raw h.done h.state_le
  rw [← hlen] at hat
  unfold Point.start
  simp only
  rw [← hlen]
  by_cases htogo : ws.togo = 0
  · have hx := h.tracks.hdr htogo
    by_cases hshort : (atHand ws c).length < 14
    · rw [if_pos ⟨hshort, htogo⟩]
      exact ⟨hat, Label.noConfusion, Label.noConfusion, fun _ => ⟨by simp only; omega, fun hne => absurd htogo hne⟩⟩
    · rw [if_neg (not_and.mpr fun hs => absurd hs hshort), if_neg (not_not.mpr htogo)]
      rw [hx] at ha
      exact ⟨hat, fun _ => ⟨by simp only; omega, ha⟩, Label.noConfusion, Label.noConfusion⟩
  · obtain ⟨hd, left, hx⟩ := h.tracks.body htogo
    have ht := h.tracks
    rw [hx] at ht ha
    obtain ⟨hpos, hleft, hholds, hknown⟩ := ht
    rw [if_neg (not_and.mpr fun _ => htogo), if_pos htogo]
    refine ⟨hat, Label.noConfusion, fun _ => ⟨?_, ?_⟩, Label.noConfusion⟩
    · rw [known, ← (holds_raw ws.frml).1, hholds.1]
      exact hknown
    · simp only
      rw [hleft, Nat.zero_add]
      exact alive_payload hd _ left hpos ha

theorem call_ends (hrd : c.rd ≠ []) (hroom : Room ws c) (hlen : (atHand ws c).length = c.rd.length + ws.done)
    (h : Keeps c.buf (atHand ws c) (Point.start ws c.mem c.buf c.rd)) :
    ∃ s, Reached ws c ⟨.stash, s⟩ ∧ ws_recv ws c.mem c.buf c.bsz c.rd = stash c.buf (atHand ws c).length s := by
  have hgot : c.rd.take (c.bsz - ws.done) = c.rd := List.take_of_length_le (by unfold Room at hroom; omega)
  unfold Reached
  unfold Point.start at h ⊢
  unfold ws_recv
  simp only at h ⊢
  rw [hgot, if_neg hrd, ← hlen]
  rw [← hlen] at h
  by_cases hshort : (atHand ws c).length < 14 ∧ ws.togo = 0
  · rw [if_pos hshort, if_pos hshort]
    exact ⟨_, ⟨hrd, .refl⟩, rfl⟩
  · rw [if_neg hshort] at h ⊢
    rw [if_neg hshort]
    by_cases htogo : ws.togo ≠ 0
    · rw [if_pos htogo] at h ⊢
      rw [if_pos htogo]
      exact ⟨_, ⟨hrd, leads_stash _ _ h (by omega)⟩, rfl⟩
    · rw [if_neg htogo] at h ⊢
      rw [if_neg htogo]
      exact ⟨_, ⟨hrd, .head rfl (leads_stash _ _ (unpack_keeps _ h) (by omega))⟩, rfl⟩

theorem call_leaves {x : Rx} (hroom : Room ws c) (h : Ready ws x ws.stashed)
    (ha : (feed rxStep x (atHand ws c)).1 ≠ .dead) :
    ∃ t, atHand ws c = t ++ (call ws c).1.stashed ∧
      Ready (call ws c).1 (feed rxStep x t).1 (call ws c).1.stashed ∧ ∀ u ∈ (call ws c).2, u.ret ≠ none := by
  by_cases hrd : c.rd = []
  · have hrecv : (ws_recv ws c.mem c.buf c.bsz c.rd).ws = ws ∧
        (ws_recv ws c.mem c.buf c.bsz c.rd).ret = some (-1) := by
      rw [hrd]
      unfold ws_recv
      rw [List.take_nil]
      exact ⟨rfl, rfl⟩
    have hws : (call ws c).1 = ws := hrecv.1
    rw [hws]
    refine ⟨[], ?_, h, fun u hu => ?_⟩
    · unfold atHand
      rw [hrd, List.append_nil]
      rfl
    · rw [List.mem_singleton.mp hu]
      exact fun hnone => Option.some_ne_none _ (hrecv.2.symm.trans hnone)
  · obtain ⟨t, kept', hsplit, -, htook, hcall⟩ := call_took ws c x _ h hrd hroom (Or.inl ha)
    have hkept : (ws_recv ws c.mem c.buf c.bsz c.rd).ws.stashed = kept' := htook.ready.raw
    obtain ⟨k, hret⟩ := htook.ret
    rw [hcall]
    simp only
    rw [hkept]
    refine ⟨t, hsplit, htook.ready, fun u hu => ?_⟩
    rw [List.mem_singleton.mp hu]
    simp only
    rw [hret]
    exact Option.some_ne_none _

theorem call_bookkept {x : Rx} (hroom : Room ws c) (h : Ready ws x ws.stashed)
    (ha : (feed rxStep x (atHand ws c)).1 ≠ .dead) : Bookkept ws c := by
  have hstart := start_keeps h ha
  obtain ⟨t, hsplit, hready, hret⟩ := call_leaves hroom h ha
  refine ⟨fun q hq => (leads_keeps hstart hq.2).sound, fun q q' hq => next_writes (leads_keeps hstart hq.2),
    fun hrd => call_ends hrd hroom (atHand_length h) hstart, hret, hready.done_le, fun hne => ?_, ?_⟩
  · rw [hready.done, hready.full hne]
    rfl
  · rw [hready.done, hsplit, List.length_append, Nat.add_sub_cancel, List.drop_left]

/-! ## Any number of calls -/

theorem session_bookkept (calls : List Call) (ws : ws_s) (x : Rx) (h : Ready ws x ws.stashed)
    (hroom : Each call Room ws calls) (ha : (feed rxStep x (ws.stashed ++ received calls)).1 ≠ .dead) :
    Each call Bookkept ws calls := by
  induction calls generalizing ws x with
  | nil => trivial
  | cons c cs ih =>
    rw [received_cons, ← List.append_assoc] at ha
    have ha' : (feed rxStep x (atHand ws c)).1 ≠ .dead := alive_of_append _ _ _ ha
    obtain ⟨t, hsplit, hready, -⟩ := call_leaves hroom.1 h ha'
    refine ⟨call_bookkept hroom.1 h ha', ih _ _ hready hroom.2 ?_⟩
    change (feed rxStep x (atHand ws c ++ received cs)).1 ≠ .dead at ha
    rwa [hsplit, List.append_assoc, feed_append] at ha

/-- **The bookkeeping**, for any bytes without a reserved opcode in any pieces. -/
theorem ws_recv_bookkept (p : ws_proto_t) (calls : List Call) (hroom : Each call Room (ws_s.init p) calls)
    (hknown : (feed rxStep (.hdr []) (received calls)).1 ≠ .dead) : Each call Bookkept (ws_s.init p) calls :=
  session_bookkept calls (ws_s.init p) (.hdr []) (ready_init p) hroom hknown

/-- A length of 2^63 and a mask, then a call that fails, then the first bytes of the payload. -/
theorem ws_recv_bookkept_masked :
    Each call Bookkept (ws_s.init .WS_PROTO_RAW)
      [⟨⟨fun _ => 0, 4000, []⟩, 0, 4000, [0x81, 0xff, 0x80, 0, 0, 0]⟩, ⟨⟨fun _ => 0, 4000, []⟩, 0, 4000, []⟩,
        ⟨⟨fun _ => 0, 4000, []⟩, 0, 4000, [0, 0, 0, 0, 1, 2, 3, 4, 97, 98]⟩] :=
  ws_recv_bookkept .WS_PROTO_RAW _ ⟨by unfold Room; decide, by unfold Room; decide, by unfold Room; decide, trivial⟩
    (by decide)

end Coins.Ws
