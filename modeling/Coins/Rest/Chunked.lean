import Coins.Rest.Length

/-!
# Bodies in chunks

`rest_recv` takes one chunk size a read, from the front of it, and drops what comes behind the data
of a chunk. White space in front of the size is all right, so the line break behind a chunk may come
with the chunk before or with the one after.
-/

open Coins.Memory Coins.Numeral Coins.Search Coins.Transducer Coins.Ws

namespace Coins.Rest

/-! ## Responses and cuts -/

/-- Hexadecimal digits that are worth `n`. -/
def HexOf (n : Nat) (l : List Byte) : Prop :=
  l ≠ [] ∧ (∀ b ∈ l, isDigit 16 b = true) ∧ digitsVal 16 l = n

instance (n : Nat) (l : List Byte) : Decidable (HexOf n l) := by
  unfold HexOf
  infer_instance

structure Chunk where
  size : List Byte
  data : List Byte
  hex : HexOf data.length size
  ne : data ≠ []
  small : data.length < 2 ^ 63

def Chunk.bytes (c : Chunk) : List Byte := c.size ++ crlf ++ c.data ++ crlf

/-- A header up to its empty line, chunks, and the digits of the last chunk, which has no data. -/
structure Chunks where
  head : List Byte
  chunks : List Chunk
  last : List Byte
  ended : find eoh head = some (head.length - 4)
  coded : find clen2 head ≠ none
  zero : HexOf 0 last

def Chunks.data (x : Chunks) : List Byte := x.chunks.flatMap Chunk.data

/-- Puts `e` behind the last one of the pieces. -/
def glue : List (List Byte) → List Byte → List (List Byte)
  | [], e => [e]
  | [d], e => [d ++ e]
  | d :: f :: ds, e => d :: glue (f :: ds) e

/-- The reads of a body. A chunk starts a read, with what the chunk before left of its line break in
front; its size line is all in that read; the read with its last byte has no more of what follows
than a front of the line break. The digits of the last chunk are in one read with the next byte. -/
inductive Cut (last : List Byte) : List Byte → List Chunk → List (List Byte) → Prop
  | last (before t : List Byte) (rs : List (List Byte)) (hb : ∀ b ∈ before, isSpace b = true)
      (ht : t ≠ []) (hrs : t ++ rs.flatten = crlf ++ crlf) :
      Cut last before [] ((before ++ last ++ t) :: rs)
  | chunk (before : List Byte) (c : Chunk) (cs : List Chunk) (d : List Byte)
      (ds : List (List Byte)) (after before' : List Byte) (rs : List (List Byte))
      (hb : ∀ b ∈ before, isSpace b = true) (hdata : d ++ ds.flatten = c.data)
      (hds : ∀ e ∈ ds, e ≠ []) (hcrlf : after ++ before' = crlf) (hrs : Cut last before' cs rs) :
      Cut last before (c :: cs) (glue ((before ++ c.size ++ crlf ++ d) :: ds) after ++ rs)

/-- A read that announces chunks, and no length. -/
def Codes (l : List Byte) : Prop := find clen1 l = none ∧ find clen2 l ≠ none

def ChunksCut (x : Chunks) (calls : List Call) : Prop :=
  ∃ before c after h b, calls = before ++ c :: after ∧ c.rd = h ++ b ∧
    received before ++ h = x.head ∧ 4 ≤ h.length ∧ First Codes (before ++ [c]) ∧
    Cut x.last [] x.chunks (b :: after.map Call.rd)

theorem glue_flatten (ds : List (List Byte)) (e : List Byte) :
    (glue ds e).flatten = ds.flatten ++ e := by
  induction ds with
  | nil => simp [glue]
  | cons d ds ih =>
    cases ds with
    | nil => simp [glue]
    | cons f ds =>
      rw [glue, List.flatten_cons, ih]
      simp

theorem glue_ne_nil (ds : List (List Byte)) (e : List Byte) : glue ds e ≠ [] := by
  match ds with
  | [] => simp [glue]
  | [_] => simp [glue]
  | _ :: _ :: _ => simp [glue]

theorem Cut.ne_nil {last before : List Byte} {cs : List Chunk} {rs : List (List Byte)}
    (h : Cut last before cs rs) : rs ≠ [] := by
  induction h with
  | last => simp
  | chunk => simp [glue_ne_nil]

theorem Cut.head_ne {last r : List Byte} {cs : List Chunk} {rs : List (List Byte)}
    (h : Cut last [] cs (r :: rs)) : r ≠ [] := by
  cases cs with
  | nil =>
    cases h with
    | last _ t _ _ ht => simp [ht]
  | cons c cs =>
    generalize hl : r :: rs = l at h
    cases h with
    | chunk _ _ _ d ds after before' rs' =>
      cases ds with
      | nil =>
        simp only [glue, List.nil_append, List.cons_append, List.cons.injEq] at hl
        rw [hl.1]
        simp [c.hex.1]
      | cons e ds =>
        simp only [glue, List.nil_append, List.cons_append, List.cons.injEq] at hl
        rw [hl.1]
        simp [c.hex.1]

theorem Cut.flatten {last before : List Byte} {cs : List Chunk} {rs : List (List Byte)}
    (h : Cut last before cs rs) :
    rs.flatten = before ++ cs.flatMap Chunk.bytes ++ last ++ crlf ++ crlf := by
  induction h with
  | last before t rs _ _ hrs =>
    rw [List.flatten_cons, List.append_assoc, hrs]
    simp
  | chunk before c cs d ds after before' rs _ hdata _ hcrlf _ ih =>
    rw [List.flatten_append, glue_flatten, ih, List.flatten_cons, List.flatMap_cons, Chunk.bytes,
      ← hdata, ← hcrlf]
    simp

/-! ## One read -/

theorem tells_codes : Tells Codes ENC_SEEN 0 := by
  refine ⟨by decide, by decide, fun ws c _ h0 h => ?_⟩
  simp [announced, h0, h.1, h.2]

theorem chunked_line (ws : ws_s) (m : Mem Byte) (buf : Int) (before size e stale : List Byte)
    (n : Nat) (h0 : ws.togo = 0) (hb : ∀ b ∈ before, isSpace b = true) (hhex : HexOf n size)
    (hn : n ≠ 0) (hsmall : n < 2 ^ 63)
    (hview : m.view buf (before ++ size ++ crlf ++ e).length = before ++ size ++ crlf ++ e)
    (htext : text m buf = before ++ size ++ crlf ++ e ++ stale)
    (hlen : (before ++ size ++ crlf ++ e).length < 2 ^ 63) :
    ∃ m', chunked ws m buf (before ++ size ++ crlf ++ e).length =
        chunk { ws with togo := n } m' e.length ∧ m'.view buf e.length = e := by
  obtain ⟨hne, hds, hval⟩ := hhex
  have hline : text m buf = before ++ size ++ 13 :: (10 :: (e ++ stale)) := by
    rw [htext]
    simp [crlf]
  have hscan := strtoul_number 16 (by omega) before size 13 (10 :: (e ++ stale)) hb hds hne
    (by decide) (by decide)
  have hmax : ¬ ulongMax < n := by
    unfold ulongMax
    omega
  rw [hval, if_neg hmax, ← hline] at hscan
  have h13 : (text m buf)[before.length + size.length]? = some 13 := by
    rw [hline, List.getElem?_append_right (by simp)]
    simp
  have h10 : (text m buf)[before.length + size.length + 1]? = some 10 := by
    have hone : before.length + size.length + 1 - (before ++ size).length = 1 := by
      rw [List.length_append]
      omega
    rw [hline, List.getElem?_append_right (by rw [List.length_append]; omega), hone]
    rfl
  have htogo : toSsize n = n := toSsize_of_lt n hsmall
  have hsize : (before ++ size ++ crlf ++ e).length = before.length + size.length + 2 + e.length := by
    simp [crlf]
    omega
  have hrest : ((before ++ size ++ crlf ++ e).length : Int) -
      ((before.length + size.length : Nat) + 2) = e.length := by
    rw [hsize]
    push_cast
    ring
  have hmoved : toSize e.length = e.length := toSize_ofNat _ (by omega)
  -- where the data begins
  have hfrom : m.view (buf + (before.length + size.length + 2 : Nat)) e.length = e := by
    have h := congrArg (List.drop (before.length + size.length + 2)) hview
    rw [Mem.view_drop, hsize, Nat.add_sub_cancel_left] at h
    rw [h, show before.length + size.length + 2 = (before ++ size ++ crlf).length by
      simp [crlf, Nat.add_assoc], List.drop_left]
  rw [chunked, if_pos h0]
  simp only [hscan, htogo]
  rw [if_neg (by rw [h13]; simpa using hn), if_neg (by rw [h10]; simp), hrest, hmoved]
  refine ⟨_, rfl, ?_⟩
  have haddr : buf + ((before.length + size.length : Nat) : Int) + 2 =
      buf + (before.length + size.length + 2 : Nat) := by
    push_cast
    ring
  rw [haddr, Mem.view_move, Mem.view_read, Mem.view_read, hfrom]

theorem chunked_last (ws : ws_s) (m : Mem Byte) (buf : Int) (nrd : Nat)
    (before last stale : List Byte) (h0 : ws.togo = 0) (hb : ∀ b ∈ before, isSpace b = true)
    (hhex : HexOf 0 last) (htext : text m buf = before ++ last ++ 13 :: stale) :
    (chunked ws m buf nrd).ws.state = 0 ∧ (chunked ws m buf nrd).text buf = [nl] := by
  obtain ⟨hne, hds, hval⟩ := hhex
  have hscan := strtoul_number 16 (by omega) before last 13 stale hb hds hne (by decide) (by decide)
  rw [hval, if_neg (by omega), ← htext] at hscan
  have hz : toSsize ((0 : Nat) : Int) = 0 := toSsize_of_lt 0 (by omega)
  rw [chunked, if_pos h0]
  simp only [hscan]
  rw [if_pos (Or.inl hz)]
  exact ⟨rfl, Mem.view_store _ buf [nl]⟩

theorem body_chunked (ws : ws_s) (m : Mem Byte) (buf nrd : Int)
    (h : ws.state = HDR_SEEN ||| ENC_SEEN) : body ws m buf nrd = chunked ws m buf nrd := by
  rw [body, h, if_neg (by decide), if_pos (by decide)]

theorem data_read (ws : ws_s) (c : Call) (t : Nat) (hf : Fits c)
    (hst : ws.state = HDR_SEEN ||| ENC_SEEN) (htogo : ws.togo = t) (ht : t ≠ 0) :
    recv ws c = if c.rd.length < t then ({ ws with togo := (t - c.rd.length : Nat) }, c.rd)
      else ({ ws with togo := 0 }, c.rd.take t) := by
  obtain ⟨m', -, hrecv, hview, -⟩ := recv_past ws c hf (by rw [hst]; decide)
  have hne : ws.togo ≠ 0 := by
    rw [htogo]
    exact_mod_cast ht
  rw [hrecv, body_chunked ws m' c.buf _ hst, chunked, if_neg hne,
    chunk_spec ws m' c.buf c.rd t htogo hview]

/-! ## Runs -/

theorem data_run (ds : List (List Byte)) (after : List Byte) (calls : List Call) (ws : ws_s)
    (hf : ∀ c ∈ calls, Fits c) (hds : ∀ e ∈ ds, e ≠ []) (hne : ds ≠ [])
    (hcalls : calls.map Call.rd = glue ds after) (hst : ws.state = HDR_SEEN ||| ENC_SEEN)
    (htogo : ws.togo = ds.flatten.length) :
    feed recv ws calls = ({ ws with togo := 0 }, ds.flatten) := by
  induction ds generalizing calls ws with
  | nil => exact absurd rfl hne
  | cons e ds ih =>
    have he := List.length_pos_of_ne_nil (hds e List.mem_cons_self)
    rw [List.flatten_cons, List.length_append] at htogo
    cases ds with
    | nil =>
      obtain ⟨c, rfl, hc⟩ : ∃ c, calls = [c] ∧ c.rd = e ++ after := by
        simpa [glue, List.map_eq_cons_iff] using hcalls
      have hread := data_read ws c _ (hf c List.mem_cons_self) hst htogo (by omega)
      rw [if_neg (by simp [hc]), hc] at hread
      rw [feed_cons, hread]
      simp
    | cons f ds =>
      obtain ⟨c, cs, rfl, hc, hcs⟩ : ∃ c cs, calls = c :: cs ∧ c.rd = e ∧
          cs.map Call.rd = glue (f :: ds) after := by
        simpa [glue, List.map_eq_cons_iff] using hcalls
      have hfl := List.length_pos_of_ne_nil (hds f (by simp))
      have hrest : 0 < (f :: ds).flatten.length := by
        rw [List.flatten_cons, List.length_append]
        omega
      have hread := data_read ws c _ (hf c List.mem_cons_self) hst htogo (by omega)
      rw [hc, if_pos (by omega), Nat.add_sub_cancel_left] at hread
      have hih := ih cs { ws with togo := ((f :: ds).flatten.length : Nat) }
        (fun d hd => hf d (List.mem_cons_of_mem _ hd)) (fun d hd => hds d (List.mem_cons_of_mem _ hd))
        (by simp) hcs hst rfl
      rw [feed_cons, hread, hih]
      simp

theorem tail_run (calls : List Call) (ws : ws_s) (hf : ∀ c ∈ calls, Fits c) (h0 : ws.state = 0)
    (hlen : (received calls).length < 4) : feed recv ws calls = (ws, []) := by
  induction calls with
  | nil => rfl
  | cons c cs ih =>
    rw [received_cons, List.length_append] at hlen
    have hshort : ∀ ndl : List Byte, 4 ≤ ndl.length → find ndl c.rd = none := by
      intro ndl h4
      cases h : find ndl c.rd with
      | none => rfl
      | some i =>
        have := find_le _ _ _ h
        omega
    have hsilent : Silent c.rd := ⟨hshort _ (by decide), hshort _ (by decide)⟩
    have hnone : headerLen ws c.rd = none := by
      rw [headerLen, h0, if_pos (by decide), hshort _ (by decide)]
      rfl
    have hih := ih (fun d hd => hf d (List.mem_cons_of_mem _ hd)) (by omega)
    rw [feed_cons, recv_header ws c (hf c List.mem_cons_self) hnone, announced_silent ws c hsilent,
      hih]
    rfl

theorem cut_run {last before : List Byte} {cs : List Chunk} {rs : List (List Byte)}
    (hzero : HexOf 0 last) (h : Cut last before cs rs) (r : List Byte) (calls : List Call)
    (ws : ws_s) (m : Mem Byte) (buf : Int) (stale : List Byte)
    (hrs : rs = r :: calls.map Call.rd) (hf : ∀ c ∈ calls, Fits c)
    (hst : ws.state = HDR_SEEN ||| ENC_SEEN) (htogo : ws.togo = 0) (hlen : r.length < 2 ^ 63)
    (hview : m.view buf r.length = r) (htext : text m buf = r ++ stale) :
    (body ws m buf r.length).text buf ++ (feed recv (body ws m buf r.length).ws calls).2 =
      cs.flatMap Chunk.data ++ [nl] := by
  induction h generalizing r calls ws m buf stale with
  | last before t rs hb ht hend =>
    simp only [List.cons.injEq] at hrs
    obtain ⟨rfl, rfl⟩ := hrs
    have hlen4 := congrArg List.length hend
    rw [List.length_append] at hlen4
    have hpos := List.length_pos_of_ne_nil ht
    obtain ⟨t', rfl⟩ : ∃ t', t = 13 :: t' := by
      cases t with
      | nil => exact absurd rfl ht
      | cons b t' =>
        simp only [crlf, List.cons_append, List.cons.injEq] at hend
        exact ⟨t', by rw [hend.1]⟩
    obtain ⟨hst', htxt⟩ := chunked_last ws m buf (before ++ last ++ 13 :: t').length before last
      (t' ++ stale) htogo hb hzero (by rw [htext]; simp)
    rw [body_chunked ws m buf _ hst, htxt, tail_run calls _ hf hst']
    · rfl
    · have hrec : received calls = (calls.map Call.rd).flatten := rfl
      rw [hrec]
      simp only [crlf, List.length_append, List.length_cons, List.length_nil] at hlen4
      simp only [List.length_cons] at hpos
      omega
  | chunk before c cs d ds after before' rs hb hdata hds hcrlf hcut ih =>
    have hnz : c.data.length ≠ 0 := by simpa using c.ne
    have hsum := congrArg List.length hdata
    rw [List.length_append] at hsum
    -- what comes after this chunk, once its data is through
    have hnext : ∀ (calls : List Call) (ws : ws_s), calls.map Call.rd = rs → (∀ c ∈ calls, Fits c) →
        ws.state = HDR_SEEN ||| ENC_SEEN → ws.togo = 0 →
        (feed recv ws calls).2 = cs.flatMap Chunk.data ++ [nl] := by
      intro calls ws hmap hf hst htogo
      cases calls with
      | nil => exact absurd hmap.symm hcut.ne_nil
      | cons e calls =>
        obtain ⟨m', stale', hrecv, hview', htext'⟩ := recv_past ws e (hf e List.mem_cons_self)
          (by rw [hst]; decide)
        have hfe := hf e List.mem_cons_self
        rw [feed_cons, hrecv]
        exact ih e.rd calls ws m' e.buf stale' hmap.symm
          (fun c hc => hf c (List.mem_cons_of_mem _ hc)) hst htogo (by have := hfe.2; omega) hview'
          htext'
    rw [body_chunked ws m buf _ hst]
    cases ds with
    | nil =>
      -- all of the data in one read
      simp only [glue, List.cons_append, List.nil_append, List.cons.injEq] at hrs
      obtain ⟨rfl, hmap⟩ := hrs
      have hassoc : before ++ c.size ++ crlf ++ d ++ after =
        before ++ c.size ++ crlf ++ (d ++ after) := List.append_assoc _ _ _
      rw [hassoc] at hview htext hlen ⊢
      obtain ⟨m', hline, hview'⟩ := chunked_line ws m buf before c.size (d ++ after) stale _ htogo hb
        c.hex hnz c.small hview htext hlen
      have hspec := chunk_spec { ws with togo := (c.data.length : Nat) } m' buf (d ++ after) _ rfl
        hview'
      simp only [List.flatten_nil, List.append_nil] at hdata
      rw [if_neg (by rw [hdata]; simp), hdata, List.take_left' rfl, Prod.mk.injEq] at hspec
      have hrest := hnext calls { ws with togo := 0 } hmap.symm hf hst rfl
      rw [hline, hdata, hspec.1, hspec.2, List.flatMap_cons, List.append_assoc]
      exact congrArg (c.data ++ ·) hrest
    | cons e ds =>
      simp only [glue, List.cons_append, List.cons.injEq] at hrs
      obtain ⟨rfl, hmap⟩ := hrs
      obtain ⟨here, there, rfl, hhere, hthere⟩ := List.map_eq_append_iff.mp hmap.symm
      obtain ⟨m', hline, hview'⟩ := chunked_line ws m buf before c.size d stale _ htogo hb c.hex hnz
        c.small hview htext hlen
      have hspec := chunk_spec { ws with togo := (c.data.length : Nat) } m' buf d _ rfl hview'
      have he := List.length_pos_of_ne_nil (hds e List.mem_cons_self)
      have hfl : 0 < (e :: ds).flatten.length := by
        rw [List.flatten_cons, List.length_append]
        omega
      rw [if_pos (by omega), Prod.mk.injEq] at hspec
      have hleft : c.data.length - d.length = (e :: ds).flatten.length := by omega
      have hrun := data_run (e :: ds) after here { ws with togo := (c.data.length - d.length : Nat) }
        (fun x hx => hf x (List.mem_append_left _ hx)) hds (by simp) hhere hst (by rw [hleft])
      have hrest := hnext there { ws with togo := 0 } hthere
        (fun x hx => hf x (List.mem_append_right _ hx)) hst rfl
      rw [hline, hspec.1, hspec.2, feed_append, hrun, List.flatMap_cons, List.append_assoc, ← hdata,
        List.append_assoc]
      exact congrArg (fun l => d ++ ((e :: ds).flatten ++ l)) hrest

/-- All the data comes through, as long as the response is cut well. -/
theorem rest_recv_chunked (x : Chunks) (calls : List Call) (ws : ws_s) (url : List Byte)
    (hp : ws.p = .WS_PROTO_REST) (hf : ∀ c ∈ calls, Fits c) (hcut : ChunksCut x calls) :
    (feed recv (rest_send ws url).1 calls).2 = x.data ++ [nl] := by
  obtain ⟨before, c, after, h, b, rfl, hrd, hhead, h4, hfirst, hcut⟩ := hcut
  have hsend : (rest_send ws url).1 = { ws with state := 0, togo := 0 } := by
    rw [rest_send, if_neg (by simp [hp])]
  rw [List.append_cons] at hf ⊢
  obtain ⟨ws', m', stale, hread, hst, htogo, -, hview, htext⟩ := header_read tells_codes before c
    (rest_send ws url).1 x.head h b (fun d hd => hf d (List.mem_append_left _ hd)) hrd x.ended hhead
    h4 (by rw [hsend]) hfirst
  have hb : b ≠ [] := hcut.head_ne
  rw [if_neg hb] at hst
  have hlen : b.length < 2 ^ 63 := by
    have hfc := hf c (by simp)
    have hsum := congrArg List.length hrd
    rw [List.length_append] at hsum
    have hfit := hfc.2
    omega
  rw [feed_append, hread]
  exact cut_run x.zero hcut b after ws' m' c.buf stale rfl
    (fun d hd => hf d (List.mem_append_right _ hd)) (by rw [hst]; rfl) htogo hlen hview htext

def twoChunks : Chunks where
  head := ascii "Transfer-Encoding: chunked\r\n\r\n"
  chunks := [⟨ascii "1", ascii "a", by decide, by decide, by decide⟩,
    ⟨ascii "1", ascii "b", by decide, by decide, by decide⟩]
  last := ascii "0"
  ended := by decide
  coded := by decide
  zero := by decide

theorem rest_recv_chunked_two :
    (feed recv (rest_send (ws_s.init .WS_PROTO_REST) (ascii "/")).1
      [page "Transfer-Encoding: chunked\r\n\r\n1\r\na", page "\r\n1\r\nb\r\n",
        page "0\r\n\r\n"]).2 = ascii "ab\n" := by
  refine (rest_recv_chunked twoChunks _ _ _ rfl (by decide) ?_).trans (by decide)
  refine ⟨[], _, _, twoChunks.head, ascii "1\r\na", rfl, by decide, by decide, by decide,
    ⟨[], _, [], rfl, by simp, by decide, by decide⟩, ?_⟩
  refine .chunk [] _ _ (ascii "a") [] [] crlf _ (by simp) rfl (by simp) rfl ?_
  refine .chunk crlf _ _ (ascii "b") [] crlf [] _ (by decide) rfl (by simp) rfl ?_
  exact .last [] (ascii "\r\n\r\n") [] (by simp) (by decide) rfl

/-- Two chunks in one read: only the first one comes out, and no line end. -/
theorem second_chunk_lost :
    let calls := [page "Transfer-Encoding: chunked\r\n\r\n1\r\na\r\n1\r\nb\r\n0\r\n\r\n"]
    received calls = twoChunks.head ++ twoChunks.chunks.flatMap Chunk.bytes ++ twoChunks.last ++
        crlf ++ crlf ∧
      (feed recv (rest_send (ws_s.init .WS_PROTO_REST) (ascii "/")).1 calls).2 = ascii "a" := by
  decide +kernel

end Coins.Rest
