import Coins.Rest.Header

/-!
# Bodies of known length

Where `rest_recv` finds the length and the end of the header, the body comes through however it is
cut. It forgets a header that ends with its read.
-/

open Coins.Memory Coins.Numeral Coins.Search Coins.Transducer Coins.Ws

namespace Coins.Rest

/-! ## Responses and cuts -/

/-- The first `Content-Length:` anywhere in `l`, the number `n`, and a byte that is no digit. -/
def Names (n : Nat) (l : List Byte) : Prop :=
  ∃ i w ds t r, find clen1 l = some i ∧ l.drop (i + 15) = w ++ ds ++ t :: r ∧
    (∀ b ∈ w, isSpace b = true) ∧ (∀ b ∈ ds, isDigit 10 b = true) ∧ ds ≠ [] ∧
    isDigit 10 t = false ∧ digitsVal 10 ds = n

/-- A header up to its empty line, and a body. What the header says of the length is left open. -/
structure Response where
  head : List Byte
  body : List Byte
  ended : find eoh head = some (head.length - 4)
  small : body.length < 2 ^ 63

/-- The end of the header lies in one read together with a byte of the body, if there is any, and a
read up to then names the length. -/
def WellCut (x : Response) (calls : List Call) : Prop :=
  ∃ before c after h b, calls = before ++ c :: after ∧ c.rd = h ++ b ∧
    received before ++ h = x.head ∧ 4 ≤ h.length ∧ b ++ received after = x.body ∧
    (b ≠ [] ∨ x.body = []) ∧ First (Names x.body.length) (before ++ [c])

theorem announced_names (ws : ws_s) (c : Call) (n : Nat) (hf : Fits c) (h0 : ws.state = 0)
    (hn : n < 2 ^ 63) (h : Names n c.rd) :
    announced ws c.mem c.buf c.rd = { ws with togo := n, state := LEN_SEEN } := by
  obtain ⟨-, hlen, hfit, -⟩ := hf
  obtain ⟨i, w, ds, t, r, hi, hdrop, hw, hds, hne, ht, hval⟩ := h
  have hle := find_le _ _ _ hi
  rw [clen1_length] at hle
  -- what `strtoul` sees begins with what was read
  have hbuf : (buffered c.mem c.buf c.rd).drop (i + 15) =
      w ++ ds ++ t :: (r ++ (buffered c.mem c.buf c.rd).drop c.rd.length) := by
    conv_lhs => rw [← List.take_append_drop c.rd.length (buffered c.mem c.buf c.rd)]
    rw [take_buffered _ _ _ (by omega), List.drop_append_of_le_length hle, hdrop]
    simp
  have hscan := strtoul_number 10 (by omega) w ds t
    (r ++ (buffered c.mem c.buf c.rd).drop c.rd.length) hw hds hne ht (by omega)
  have hsmall : ¬ ulongMax < n := by
    unfold ulongMax
    omega
  rw [hval, if_neg hsmall] at hscan
  simp only [announced, h0, hi, if_true, hbuf, hscan]
  rw [toSsize_of_lt n hn]

theorem tells_names (n : Nat) (hn : n < 2 ^ 63) : Tells (Names n) LEN_SEEN n :=
  ⟨by decide, by decide, fun ws c hf h0 h => announced_names ws c n hf h0 hn h⟩

/-! ## The body -/

theorem body_read (ws : ws_s) (c : Call) (t : Nat) (hf : Fits c)
    (hst : ws.state = HDR_SEEN ||| LEN_SEEN) (htogo : ws.togo = t) :
    recv ws c = if c.rd.length < t then ({ ws with togo := (t - c.rd.length : Nat) }, c.rd)
      else ({ ws with togo := 0, state := 0 }, c.rd.take t ++ [nl]) := by
  obtain ⟨m', -, hrecv, hview, -⟩ := recv_past ws c hf (by rw [hst]; decide)
  have hlen : ws.state &&& LEN_SEEN ≠ 0 := by rw [hst]; decide
  rw [hrecv, body, if_pos hlen, plain_spec ws m' c.buf c.rd t htogo hview]

theorem body_run (calls : List Call) (ws : ws_s) (hf : ∀ c ∈ calls, Fits c) (hne : calls ≠ [])
    (hst : ws.state = HDR_SEEN ||| LEN_SEEN) (htogo : ws.togo = (received calls).length) :
    (feed recv ws calls).2 = received calls ++ [nl] ∧ (feed recv ws calls).1.p = ws.p ∧
      (feed recv ws calls).1.state = 0 := by
  induction calls generalizing ws with
  | nil => exact absurd rfl hne
  | cons c cs ih =>
    have hfc := hf c List.mem_cons_self
    have hread := body_read ws c _ hfc hst htogo
    rw [received_cons, List.length_append] at hread
    cases cs with
    | nil =>
      rw [if_neg (by simp [received])] at hread
      simp [feed, hread, received]
    | cons d ds =>
      have hfd := (hf d (by simp)).1
      have hpos : 0 < (received (d :: ds)).length := by
        rw [received_cons, List.length_append]
        have := List.length_pos_of_ne_nil hfd
        omega
      rw [if_pos (by omega), Nat.add_sub_cancel_left] at hread
      obtain ⟨hout, hp⟩ := ih { ws with togo := ((received (d :: ds)).length : Nat) }
        (fun e he => hf e (List.mem_cons_of_mem _ he)) (by simp) hst rfl
      rw [feed_cons, hread]
      refine ⟨?_, hp⟩
      simp only
      rw [hout, received_cons c, List.append_assoc]

/-! ## Responses one after the other -/

/-- A request, the response to it, and the calls that read the response. -/
structure Exchange where
  url : List Byte
  response : Response
  calls : List Call

def exchange (ws : ws_s) (x : Exchange) : ws_s × List Byte :=
  feed recv (rest_send ws x.url).1 x.calls

theorem response_run (x : Response) (calls : List Call) (ws : ws_s) (hf : ∀ c ∈ calls, Fits c)
    (hcut : WellCut x calls) (h0 : ws.state = 0) :
    (feed recv ws calls).2 = x.body ++ [nl] ∧ (feed recv ws calls).1.p = ws.p ∧
      (feed recv ws calls).1.state = 0 := by
  obtain ⟨before, c, after, h, b, rfl, hrd, hhead, h4, hbody, hne, hnamed⟩ := hcut
  rw [List.append_cons] at hf ⊢
  obtain ⟨ws', m', -, hread, hst, htogo, hp, hview, -⟩ := header_read (tells_names _ x.small) before c
    ws x.head h b (fun d hd => hf d (List.mem_append_left _ hd)) hrd x.ended hhead h4 h0 hnamed
  have hlen : ws'.state &&& LEN_SEEN ≠ 0 := by
    rw [hst]
    split <;> decide
  rw [body, if_pos hlen, plain_spec ws' m' c.buf b _ htogo hview] at hread
  rw [feed_append, hread]
  have hsum : b.length + (received after).length = x.body.length := by
    rw [← hbody, List.length_append]
  by_cases hlt : b.length < x.body.length
  · -- more reads bring the rest
    rw [if_pos hlt]
    have hb : b ≠ [] := hne.resolve_right fun h => by simp [h] at hlt
    have hafter : after ≠ [] := by
      rintro rfl
      simp [received] at hsum
      omega
    rw [if_neg hb] at hst
    have hto : x.body.length - b.length = (received after).length := by omega
    obtain ⟨hout, hpo, hend⟩ := body_run after { ws' with togo := (x.body.length - b.length : Nat) }
      (fun d hd => hf d (List.mem_append_right _ hd)) hafter (by rw [hst]; rfl) (by rw [hto])
    refine ⟨?_, hpo.trans hp, hend⟩
    simp only
    rw [hout, ← hbody, List.append_assoc]
  · -- this read brings all of it
    rw [if_neg hlt]
    have hafter : after = [] := by
      cases after with
      | nil => rfl
      | cons d ds =>
        have hd := (hf d (by simp)).1
        rw [received_cons, List.length_append] at hsum
        have := List.length_pos_of_ne_nil hd
        omega
    subst hafter
    have hb : b = x.body := by simpa [received] using hbody
    refine ⟨?_, hp, rfl⟩
    simp [hb]

theorem exchanges_run (xs : List Exchange) (ws : ws_s) (hp : ws.p = .WS_PROTO_REST)
    (hf : ∀ x ∈ xs, ∀ c ∈ x.calls, Fits c) (hcut : ∀ x ∈ xs, WellCut x.response x.calls) :
    (feed exchange ws xs).2 = xs.flatMap fun x => x.response.body ++ [nl] := by
  induction xs generalizing ws with
  | nil => rfl
  | cons x xs ih =>
    have hsend : (rest_send ws x.url).1 = { ws with state := 0, togo := 0 } := by
      rw [rest_send, if_neg (by simp [hp])]
    obtain ⟨hout, hp', -⟩ := response_run x.response x.calls _ (hf x List.mem_cons_self)
      (hcut x List.mem_cons_self) (congrArg ws_s.state hsend)
    have hih := ih (exchange ws x).1 (by rw [exchange, hp', hsend]; exact hp)
      (fun y hy => hf y (List.mem_cons_of_mem _ hy)) fun y hy => hcut y (List.mem_cons_of_mem _ hy)
    rw [feed_cons, hih, exchange, hout]
    rfl

/-- Every body comes through, as long as its response is cut well. -/
theorem rest_recv_length (host : List Byte) (xs : List Exchange)
    (hf : ∀ x ∈ xs, ∀ c ∈ x.calls, Fits c) (hcut : ∀ x ∈ xs, WellCut x.response x.calls) :
    (feed exchange { ws_s.init .WS_PROTO_REST with host := host } xs).2 =
      xs.flatMap fun x => x.response.body ++ [nl] :=
  exchanges_run xs _ rfl hf hcut

def hello : Response where
  head := ascii "Content-Length: 2\r\nA: b\r\n\r\n"
  body := ascii "hi"
  ended := by decide
  small := by decide

def page (rd : String) : Call := ⟨⟨fun _ => 0, 4000, []⟩, 0, 4000, ascii rd⟩

theorem rest_recv_length_hello :
    (feed exchange (ws_s.init .WS_PROTO_REST) [⟨ascii "/", hello,
      [page "Content-Length: 2\r\nA:", page " b\r\n\r\nh", page "i"]⟩]).2 = ascii "hi\n" := by
  refine (rest_recv_length [] [⟨ascii "/", hello, _⟩] ?_ ?_).trans (by decide)
  · simp only [List.mem_singleton, forall_eq]
    decide
  · simp only [List.mem_singleton, forall_eq]
    refine ⟨[page "Content-Length: 2\r\nA:"], page " b\r\n\r\nh", [page "i"], ascii " b\r\n\r\n",
      ascii "h", rfl, by decide, by decide, by decide, by decide, by decide, ?_⟩
    exact ⟨[], page "Content-Length: 2\r\nA:", _, rfl, by simp, 0, [32], [50], 13,
      ascii "\nA:", by decide, by decide, by decide, by decide, by decide, by decide, by decide⟩

/-- The header in a read of its own, then the body: nothing comes out. -/
theorem header_alone_loses_body :
    let calls := [page "Content-Length: 2\r\nA: b\r\n\r\n", page "hi"]
    received calls = hello.head ++ hello.body ∧
      (feed exchange (ws_s.init .WS_PROTO_REST) [⟨ascii "/", hello, calls⟩]).2 = [] := by
  decide +kernel

end Coins.Rest
