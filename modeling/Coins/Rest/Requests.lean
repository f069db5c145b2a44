import Coins.Rest.Length

/-!
# Requests between reads

`rest_send` resets what `rest_recv` knows of the response it reads. A request that goes out when it
knows nothing makes no difference.
-/

open Coins.Memory Coins.Numeral Coins.Transducer Coins.Ws

namespace Coins.Rest

/-! ## Runs of a handle -/

/-- A request goes out, or bytes come in. -/
inductive Event where
  | send (url : List Byte)
  | recv (c : Call)

def turn (ws : ws_s) : Event → ws_s × List Byte
  | .send url => ((rest_send ws url).1, [])
  | .recv c => recv ws c

def Event.reads : Event → List Call
  | .send _ => []
  | .recv c => [c]

/-- Nothing is known of a response when a request goes out. -/
def Idle (ws : ws_s) : Event → Prop
  | .send _ => ws.state = 0
  | .recv _ => True

/-! ## What stays -/

/-- The protocol and the host. -/
def Keeps (ws ws' : ws_s) : Prop := ws'.p = ws.p ∧ ws'.host = ws.host

theorem Keeps.refl (ws : ws_s) : Keeps ws ws := ⟨rfl, rfl⟩

theorem Keeps.trans {a b c : ws_s} (h : Keeps a b) (h' : Keeps b c) : Keeps a c :=
  ⟨h'.1.trans h.1, h'.2.trans h.2⟩

theorem Keeps.update (ws : ws_s) (togo : Int) (state : Nat) :
    Keeps ws { ws with togo := togo, state := state } := ⟨rfl, rfl⟩

theorem announce_keeps (ws : ws_s) (m : Mem Byte) (buf : Int) (nrd : Nat) :
    Keeps ws (announce ws m buf nrd).1 := by
  unfold announce
  simp only
  split
  · split
    · exact Keeps.update ws _ _
    · split
      · exact Keeps.update ws _ _
      · exact Keeps.refl ws
  · exact Keeps.refl ws

theorem strip_keeps (ws : ws_s) (m : Mem Byte) (buf : Int) (nrd : Nat) :
    ∀ q ∈ strip ws m buf nrd, Keeps ws q.1 := by
  intro q hq
  unfold strip at hq
  split at hq
  · split at hq
    · cases hq
    · simp only at hq
      split at hq
      · cases hq
        exact Keeps.refl ws
      · cases hq
        exact Keeps.update ws _ _
  · cases hq
    exact Keeps.refl ws

theorem body_keeps (ws : ws_s) (m : Mem Byte) (buf nrd : Int) : Keeps ws (body ws m buf nrd).ws := by
  have hchunk : ∀ v, Keeps ws v → ∀ m nrd, Keeps ws (chunk v m nrd).ws := by
    intro v hv m nrd
    unfold chunk
    split <;> exact hv.trans (Keeps.update v _ _)
  unfold body
  split
  · unfold plain
    split <;> exact Keeps.update ws _ _
  · split
    · unfold chunked
      simp only
      split
      · split
        · exact Keeps.update ws _ _
        · split
          · exact Keeps.update ws _ _
          · exact hchunk _ (Keeps.update ws _ _) _ _
      · exact hchunk ws (Keeps.refl ws) _ _
    · exact Keeps.refl ws

theorem turn_keeps (ws : ws_s) (e : Event) : Keeps ws (turn ws e).1 := by
  cases e with
  | send url =>
    simp only [turn, rest_send]
    split
    · exact Keeps.refl ws
    · exact Keeps.update ws _ _
  | recv c =>
    simp only [turn, recv, rest_recv]
    split
    · exact Keeps.refl ws
    · have hann := announce_keeps ws (c.mem.store c.buf (c.rd.take c.bsz)) c.buf (c.rd.take c.bsz).length
      have hstrip := strip_keeps (announce ws (c.mem.store c.buf (c.rd.take c.bsz)) c.buf (c.rd.take c.bsz).length).1
        (announce ws (c.mem.store c.buf (c.rd.take c.bsz)) c.buf (c.rd.take c.bsz).length).2 c.buf
        (c.rd.take c.bsz).length
      split
      · exact hann
      · rename_i q hq
        exact (hann.trans (hstrip _ hq)).trans (body_keeps _ _ _ _)

theorem turns_keeps (ws : ws_s) (evs : List Event) : Keeps ws (feed turn ws evs).1 := by
  induction evs generalizing ws with
  | nil => exact Keeps.refl ws
  | cons e evs ih => exact (turn_keeps ws e).trans (ih _)

/-! ## Handles that differ in nothing that counts -/

/-- The bytes to go count only once the length or the encoding has been seen. -/
def Alike (ws ws' : ws_s) : Prop :=
  ws' = ws ∨ ∃ t, ws.state &&& LEN_SEEN = 0 ∧ ws.state &&& ENC_SEEN = 0 ∧ ws' = { ws with togo := t }

theorem announce_past (ws : ws_s) (h0 : ws.state ≠ 0) (m : Mem Byte) (buf : Int) (nrd : Nat) :
    announce ws m buf nrd = (ws, m) := by
  unfold announce
  rw [if_neg h0]

theorem announce_alike {ws ws' : ws_s} (h : Alike ws ws') (m : Mem Byte) (buf : Int) (nrd : Nat) :
    Alike (announce ws m buf nrd).1 (announce ws' m buf nrd).1 ∧
      (announce ws' m buf nrd).2 = (announce ws m buf nrd).2 := by
  rcases h with rfl | ⟨t, hlen, henc, rfl⟩
  · exact ⟨Or.inl rfl, rfl⟩
  · by_cases h0 : ws.state = 0
    · unfold announce
      simp only [h0, if_true]
      split
      · exact ⟨Or.inl rfl, rfl⟩
      · split
        · exact ⟨Or.inl rfl, rfl⟩
        · exact ⟨Or.inr ⟨t, hlen, henc, by rw [h0]⟩, rfl⟩
    · rw [announce_past ws h0, announce_past { ws with togo := t } h0]
      exact ⟨Or.inr ⟨t, hlen, henc, rfl⟩, rfl⟩

theorem body_alike {ws ws' : ws_s} (h : Alike ws ws') (m : Mem Byte) (buf nrd : Int) :
    Alike (body ws m buf nrd).ws (body ws' m buf nrd).ws ∧
      (body ws' m buf nrd).text buf = (body ws m buf nrd).text buf := by
  rcases h with rfl | ⟨t, hlen, henc, rfl⟩
  · exact ⟨Or.inl rfl, rfl⟩
  · unfold body
    simp only [hlen, henc, ne_eq, not_true_eq_false, if_false]
    exact ⟨Or.inr ⟨t, hlen, henc, rfl⟩, rfl⟩

theorem strip_alike {ws ws' : ws_s} (h : Alike ws ws') (m : Mem Byte) (buf : Int) (nrd : Nat) :
    (strip ws m buf nrd = none ∧ strip ws' m buf nrd = none) ∨
      ∃ v v' m' n, strip ws m buf nrd = some (v, m', n) ∧ strip ws' m buf nrd = some (v', m', n) ∧ Alike v v' := by
  rcases h with rfl | ⟨t, hlen, henc, rfl⟩
  · cases hs : strip ws' m buf nrd with
    | none => exact Or.inl ⟨rfl, rfl⟩
    | some q => exact Or.inr ⟨q.1, q.1, q.2.1, q.2.2, rfl, rfl, Or.inl rfl⟩
  · unfold strip
    simp only
    split
    · split
      · exact Or.inl ⟨rfl, rfl⟩
      · right
        split
        · exact ⟨_, _, _, _, rfl, rfl, Or.inr ⟨t, hlen, henc, rfl⟩⟩
        · refine ⟨_, _, _, _, rfl, rfl, Or.inr ⟨t, ?_, ?_, rfl⟩⟩
          · rw [Nat.and_or_distrib_right, hlen]
            rfl
          · rw [Nat.and_or_distrib_right, henc]
            rfl
    · exact Or.inr ⟨_, _, _, _, rfl, rfl, Or.inr ⟨t, hlen, henc, rfl⟩⟩

theorem recv_alike {ws ws' : ws_s} (h : Alike ws ws') (c : Call) :
    Alike (recv ws c).1 (recv ws' c).1 ∧ (recv ws' c).2 = (recv ws c).2 := by
  obtain ⟨hann, hmem⟩ := announce_alike h (c.mem.store c.buf (c.rd.take c.bsz)) c.buf (c.rd.take c.bsz).length
  unfold recv rest_recv
  simp only
  by_cases hnil : c.rd.take c.bsz = []
  · rw [if_pos hnil, if_pos hnil]
    exact ⟨h, rfl⟩
  · rw [if_neg hnil, if_neg hnil, hmem]
    rcases strip_alike hann _ c.buf (c.rd.take c.bsz).length with ⟨hs, hs'⟩ | ⟨v, v', m', n, hs, hs', hv⟩
    · rw [hs, hs']
      exact ⟨hann, rfl⟩
    · rw [hs, hs']
      exact body_alike hv m' c.buf n

theorem send_alike {ws ws' : ws_s} (h : Alike ws ws') (url : List Byte) (h0 : ws.state = 0) :
    Alike (rest_send ws url).1 ws' := by
  have hfresh : ∃ t, ws' = { ws with togo := t } := by
    rcases h with rfl | ⟨t, -, -, rfl⟩
    · exact ⟨ws'.togo, rfl⟩
    · exact ⟨t, rfl⟩
  obtain ⟨t, rfl⟩ := hfresh
  unfold rest_send
  split
  · refine Or.inr ⟨t, ?_, ?_, rfl⟩
    · rw [h0, Nat.zero_and]
    · rw [h0, Nat.zero_and]
  · exact Or.inr ⟨t, Nat.zero_and _, Nat.zero_and _, by rw [h0]⟩

/-! ## Responses in flight -/

theorem turns_reads (evs : List Event) (ws : ws_s) (hidle : Each turn Idle ws evs) :
    (feed turn ws evs).2 = (feed recv ws (evs.flatMap Event.reads)).2 := by
  refine (feed_simulates turn recv Event.reads Alike ?_ (Or.inl rfl) hidle).2
  rintro v v' (url | c) hv hq
  · exact ⟨send_alike hv url hq, rfl⟩
  · obtain ⟨halike, hout⟩ := recv_alike hv c
    exact ⟨halike, by simp only [Event.reads, feed, List.append_nil]; exact hout.symm⟩

/-- A response, and the calls that read it. -/
structure Answer where
  response : Response
  calls : List Call

theorem answers_run (xs : List Answer) (ws : ws_s) (hf : ∀ x ∈ xs, ∀ c ∈ x.calls, Fits c)
    (hcut : ∀ x ∈ xs, WellCut x.response x.calls) (h0 : ws.state = 0) :
    (feed recv ws (xs.flatMap Answer.calls)).2 = xs.flatMap fun x => x.response.body ++ [nl] := by
  induction xs generalizing ws with
  | nil => rfl
  | cons x xs ih =>
    obtain ⟨hout, -, hend⟩ := response_run x.response x.calls ws (hf x List.mem_cons_self)
      (hcut x List.mem_cons_self) h0
    rw [List.flatMap_cons, feed_append, hout, ih _ (fun y hy => hf y (List.mem_cons_of_mem _ hy))
      (fun y hy => hcut y (List.mem_cons_of_mem _ hy)) hend]
    rfl

/-- **Requests do not disturb the responses in flight** that are cut well, as long as they go out when
nothing is known of a response. -/
theorem rest_send_undisturbed (host : List Byte) (evs : List Event) (xs : List Answer)
    (hreads : evs.flatMap Event.reads = xs.flatMap Answer.calls)
    (hf : ∀ x ∈ xs, ∀ c ∈ x.calls, Fits c) (hcut : ∀ x ∈ xs, WellCut x.response x.calls)
    (hidle : Each turn Idle { ws_s.init .WS_PROTO_REST with host := host } evs) :
    (feed turn { ws_s.init .WS_PROTO_REST with host := host } evs).2 =
      xs.flatMap fun x => x.response.body ++ [nl] := by
  rw [turns_reads evs _ hidle, hreads]
  exact answers_run xs _ hf hcut rfl

/-- The next request goes out before the response to the first one comes in. -/
theorem rest_send_undisturbed_ahead :
    (feed turn { ws_s.init .WS_PROTO_REST with host := ascii "example" }
      [.send (ascii "/a"), .send (ascii "/b"), .recv (page "Content-Length: 2\r\nA: b\r\n\r\nh"),
        .recv (page "i"), .recv (page "Content-Length: 2\r\nA: b\r\n\r\nhi")]).2 = ascii "hi\nhi\n" := by
  refine (rest_send_undisturbed (ascii "example") _
    [⟨hello, [page "Content-Length: 2\r\nA: b\r\n\r\nh", page "i"]⟩,
      ⟨hello, [page "Content-Length: 2\r\nA: b\r\n\r\nhi"]⟩] rfl ?_ ?_ ?_).trans (by decide)
  · simp only [List.mem_cons, List.not_mem_nil, or_false, forall_eq_or_imp, forall_eq]
    decide
  · simp only [List.mem_cons, List.not_mem_nil, or_false, forall_eq_or_imp, forall_eq]
    refine ⟨⟨[], page "Content-Length: 2\r\nA: b\r\n\r\nh", [page "i"],
      ascii "Content-Length: 2\r\nA: b\r\n\r\n", ascii "h", rfl, by decide, by decide, by decide, by decide,
      by decide, ?_⟩, ⟨[], page "Content-Length: 2\r\nA: b\r\n\r\nhi", [],
      ascii "Content-Length: 2\r\nA: b\r\n\r\n", ascii "hi", rfl, by decide, by decide, by decide, by decide,
      by decide, ?_⟩⟩
    · exact ⟨[], _, [], rfl, by simp, 0, [32], [50], 13, ascii "\nA: b\r\n\r\nh", by decide, by decide,
        by decide, by decide, by decide, by decide, by decide⟩
    · exact ⟨[], _, [], rfl, by simp, 0, [32], [50], 13, ascii "\nA: b\r\n\r\nhi", by decide, by decide,
        by decide, by decide, by decide, by decide, by decide⟩
  · exact ⟨rfl, rfl, trivial, trivial, trivial, trivial⟩

/-- A request between the two reads of a response: the rest of the body is lost. So is a second
response that comes in the read that ends the first. -/
theorem request_loses_body :
    (feed turn (ws_s.init .WS_PROTO_REST)
      [.send (ascii "/a"), .recv (page "Content-Length: 2\r\nA: b\r\n\r\nh"), .send (ascii "/b"),
        .recv (page "i"), .recv (page "Content-Length: 2\r\nA: b\r\n\r\nhi")]).2 = ascii "hhi\n" ∧
    (feed turn (ws_s.init .WS_PROTO_REST)
      [.send (ascii "/a"), .send (ascii "/b"),
        .recv (page "Content-Length: 2\r\nA: b\r\n\r\nhiContent-Length: 2\r\nA: b\r\n\r\nhi")]).2 =
      ascii "hi\n" := by
  decide +kernel

end Coins.Rest
