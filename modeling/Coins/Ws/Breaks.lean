import Coins.Ws.Segmentation

/-!
# Line breaks

How many line breaks `ws_recv` returns for the messages of a stream.
-/

open Coins.Memory Coins.Transducer Coins.Lines

namespace Coins.Ws

/-! ## Messages -/

/-- The final frames that end within the first `n` bytes. -/
def messages : List Frame → Nat → Nat
  | [], _ => 0
  | f :: fs, n =>
    if n < f.bytes.length then 0
    else (if finBit f.head then 1 else 0) + messages fs (n - f.bytes.length)

theorem count_refDecode (fs : List Frame) (hnl : ∀ f ∈ fs, nl ∉ f.payload) (n : Nat) :
    (refDecode fs n).count nl = messages fs n := by
  induction fs generalizing n with
  | nil => rfl
  | cons f fs ih =>
    have hf := hnl f List.mem_cons_self
    have hfs := ih (fun g hg => hnl g (List.mem_cons_of_mem _ hg))
    rw [refDecode, messages]
    split
    · exact List.count_eq_zero.mpr fun h => hf (List.mem_of_mem_take h)
    · rw [List.count_append, List.count_append, hfs, List.count_eq_zero.mpr hf, Nat.zero_add]
      cases finBit f.head <;> rfl

/-! ## Calls -/

/-- The line break of the last call is not left to this one. -/
def Fresh (ws : ws_s) (_ : Call) : Prop := ws.togo = 0 → ws.state = 0

/-- The line breaks that are written a second time. -/
def stale : ws_s → List Call → Nat
  | _, [] => 0
  | ws, c :: cs => (pending ws).length + stale (call ws c).1 cs

theorem pending_nil {ws : ws_s} (c : Call) : (pending ws).length = 0 ↔ Fresh ws c := by
  unfold pending Fresh
  split
  · rename_i h0
    rw [List.length_replicate]
    exact ⟨fun h _ => h, fun h => h h0⟩
  · rename_i h0
    exact ⟨fun _ h => absurd h h0, fun _ => rfl⟩

theorem stale_eq_zero (calls : List Call) (ws : ws_s) : stale ws calls = 0 ↔ Each call Fresh ws calls := by
  induction calls generalizing ws with
  | nil => exact ⟨fun _ => trivial, fun _ => rfl⟩
  | cons c cs ih =>
    rw [stale, Nat.add_eq_zero_iff, pending_nil c, ih]
    exact Iff.rfl

theorem count_pending (ws : ws_s) : (pending ws).count nl = (pending ws).length := by
  unfold pending
  split
  · rw [List.count_replicate_self, List.length_replicate]
  · rfl

theorem count_returned (calls : List Call) (ws : ws_s) (x : Rx) (kept : List Byte) (hready : Ready ws x kept)
    (hfit : Each call Reads ws calls) (ha : (feed rxStep x (kept ++ received calls)).1 ≠ .dead) :
    (returned (feed call ws calls).2).count nl =
      (pieces x (taken (feed call ws calls).2)).count nl + stale ws calls := by
  induction calls generalizing ws x kept with
  | nil => rfl
  | cons c cs ih =>
    obtain ⟨⟨hrd, hlen⟩, hfit'⟩ := hfit
    rw [received_cons, ← List.append_assoc] at ha
    obtain ⟨t, kept', hsplit, -, htook, hcall⟩ := call_took ws c x kept hready hrd hlen
      (Or.inl (alive_of_append _ _ _ ha))
    rw [hsplit, List.append_assoc, feed_append] at ha
    have hnext := ih _ _ _ htook.ready (by rwa [hcall] at hfit') ha
    rw [stale, feed_cons, hcall]
    simp only [List.cons_append, List.nil_append, returned_cons, taken_cons, pieces, htook.text,
      List.count_append, count_pending, hnext]
    omega

/-- **One line break for each message**, as long as no call begins with one that is left over. -/
theorem ws_recv_breaks (p : ws_proto_t) (fs : List Frame) (hd : ∀ f ∈ fs, opcode f.head ≤ 2)
    (hnl : ∀ f ∈ fs, nl ∉ f.payload) (calls : List Call) (hfit : Each call Reads (ws_s.init p) calls)
    (hpre : received calls <+: encode fs) :
    let r := feed call (ws_s.init p) calls
    (returned r.2).count nl = messages fs ((received calls).length - r.1.done) ↔
      Each call Fresh (ws_s.init p) calls := by
  have hk : ∀ f ∈ fs, known f.head = true := fun f hf => by simp [known, hd f hf]
  have hc : ∀ f ∈ fs, cuts f.head = false := fun f hf => by
    have := hd f hf
    simp only [cuts, decide_eq_false_iff_not]
    omega
  have halive : (feed rxStep (.hdr []) ([] ++ received calls)).1 ≠ .dead := by
    rw [List.nil_append, List.prefix_iff_eq_take.mp hpre, feed_encode fs hk]
    exact stateAt_ne_dead _ _
  have htext := session_pieces p fs hk hc calls hfit hpre
  have hcount := count_returned calls _ _ [] (ready_init p) hfit halive
  rw [htext, textAt_data fs hd, count_refDecode fs hnl] at hcount
  intro r
  rw [← stale_eq_zero, hcount]
  exact Nat.add_eq_left

/-- A message in two reads, the first of which ends in the header. -/
def sixteen : Frame := ⟨[0x81, 16], List.replicate 16 101, rfl, rfl⟩

theorem ws_recv_breaks_once :
    let calls : List Call := [⟨⟨fun _ => 0, 4000, []⟩, 0, 4000, [0x81]⟩,
      ⟨⟨fun _ => 0, 4000, []⟩, 0, 4000, 16 :: List.replicate 16 101⟩]
    let r := feed call (ws_s.init .WS_PROTO_RAW) calls
    (returned r.2).count nl = messages [sixteen] ((received calls).length - r.1.done) ↔
      Each call Fresh (ws_s.init .WS_PROTO_RAW) calls := by
  intro calls r
  exact ws_recv_breaks .WS_PROTO_RAW [sixteen] (by decide) (by decide) calls
    ⟨⟨by decide, by decide⟩, ⟨by decide, by decide +kernel⟩, trivial⟩ (by decide)

/-- Two messages in two reads come with three line breaks. -/
theorem second_read_breaks :
    let calls : List Call := [⟨⟨fun _ => 0, 4000, []⟩, 0, 4000, sixteen.bytes⟩,
      ⟨⟨fun _ => 0, 4000, []⟩, 0, 4000, sixteen.bytes⟩]
    let r := feed call (ws_s.init .WS_PROTO_RAW) calls
    r.1.done = 0 ∧ (returned r.2).count nl = 3 ∧
      messages [sixteen, sixteen] ((received calls).length - r.1.done) = 2 := by
  decide +kernel

end Coins.Ws
