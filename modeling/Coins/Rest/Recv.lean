import Coins.Ws.Handle
import Coins.Xmemmem
import Coins.Lib.Numeral

/-!
# `rest_recv` and `rest_send`

The HTTP side of a handle: the header of a response is dropped, the body comes through, plain or in
chunks.
-/

open Coins.Memory Coins.Numeral Coins.Search Coins.Xmemmem Coins.Ws

namespace Coins.Rest

/-! ## The code -/

def HDR_SEEN : Nat := 1
def LEN_SEEN : Nat := 2
def ENC_SEEN : Nat := 4

def clen1 : List Byte := ascii "Content-Length:"
def clen2 : List Byte := ascii "Transfer-Encoding:"
def eoh : List Byte := [13, 10, 13, 10]

/-- What a string function that starts at `p` can get to see: the bytes up to the end of the
object. -/
def text (m : Mem Byte) (p : Int) : List Byte := m.view p (m.size - p).toNat

/-- The handle and the buffer after a call, and what it returned. -/
structure Received where
  ws : ws_s
  mem : Mem Byte
  ret : Int

/-- See if we need to snarf headers first. -/
def announce (ws : ws_s) (m : Mem Byte) (buf : Int) (nrd : Nat) : ws_s × Mem Byte :=
  if ws.state = 0 then
    let hay := m.view buf nrd
    let m := m.read buf nrd
    match xmemmem hay clen1 with
    | some i =>
      let p := buf + (i + clen1.length : Nat)
      let scan := strtoul 10 (text m p)
      ({ ws with togo := toSsize scan.val, state := ws.state ||| LEN_SEEN }, m.read p scan.seen)
    | none =>
      match xmemmem hay clen2 with
      | some _ => ({ ws with togo := 0, state := ws.state ||| ENC_SEEN }, m)
      | none => (ws, m)
  else (ws, m)

/-- Skips the header; `none` as long as there is no end of it. -/
def strip (ws : ws_s) (m : Mem Byte) (buf : Int) (nrd : Nat) : Option (ws_s × Mem Byte × Nat) :=
  if ws.state &&& HDR_SEEN = 0 then
    match xmemmem (m.view buf nrd) eoh with
    | none => none
    | some i =>
      let p := i + eoh.length
      let m := m.read buf nrd
      if nrd - p = 0 then some (ws, m, 0)
      else some ({ ws with state := ws.state ||| HDR_SEEN }, m.move buf (buf + p) (nrd - p), nrd - p)
  else some (ws, m, nrd)

def plain (ws : ws_s) (m : Mem Byte) (buf : Int) (nrd : Int) : Received :=
  if nrd < ws.togo then ⟨{ ws with togo := ws.togo - nrd }, m, nrd⟩
  else
    -- otherwise we've seen it all
    ⟨{ ws with togo := 0, state := 0 }, m.store (buf + ws.togo) [nl], ws.togo + 1⟩

/-- As much of a chunk as is there. -/
def chunk (ws : ws_s) (m : Mem Byte) (nrd : Int) : Received :=
  if nrd < ws.togo then ⟨{ ws with togo := ws.togo - nrd }, m, nrd⟩
  else ⟨{ ws with togo := 0 }, m, ws.togo⟩

/-- God knows. -/
def give_up (ws : ws_s) (m : Mem Byte) (buf : Int) : Received :=
  ⟨{ ws with state := 0 }, m.store buf [nl], 1⟩

/-- A body in chunks. -/
def chunked (ws : ws_s) (m : Mem Byte) (buf : Int) (nrd : Int) : Received :=
  if ws.togo = 0 then
    let size := text m buf
    let scan := strtoul 16 size
    let ws := { ws with togo := toSsize scan.val }
    let on := buf + scan.stop
    let m := m.read buf scan.seen
    if ws.togo = 0 ∨ size[scan.stop]? ≠ some 13 then give_up ws m buf
    else
      let m := m.read (on + 1) 1
      if size[scan.stop + 1]? ≠ some 10 then give_up ws m buf
      else
        let nrd := nrd - (scan.stop + 2)
        chunk ws (m.move buf (on + 2) (toSize nrd)) nrd
  else chunk ws m nrd

def body (ws : ws_s) (m : Mem Byte) (buf : Int) (nrd : Int) : Received :=
  if ws.state &&& LEN_SEEN ≠ 0 then plain ws m buf nrd
  else if ws.state &&& ENC_SEEN ≠ 0 then chunked ws m buf nrd
  else ⟨ws, m, nrd⟩

def rest_recv (ws : ws_s) (m : Mem Byte) (buf : Int) (bsz : Nat) (rd : List Byte) : Received :=
  let got := rd.take bsz
  let m := m.store buf got
  if got = [] then ⟨ws, m, -1⟩
  else
    let (ws, m) := announce ws m buf got.length
    match strip ws m buf got.length with
    | none => ⟨ws, m, 0⟩ -- just forget about it all
    | some (ws, m, nrd) => body ws m buf nrd

/-- The handle afterwards, and the request; `none` on a handle of another protocol. -/
def rest_send (ws : ws_s) (url : List Byte) : ws_s × Option (List Byte) :=
  if ws.p ≠ .WS_PROTO_REST then (ws, none)
  else
    ({ ws with state := 0, togo := 0 },
      some (ascii "GET " ++ url ++ ascii " " ++ ascii "HTTP/1.1\r\nHost: " ++ ws.host ++
        ascii "\r\n" ++ ascii "User-Agent: Mozilla/4.0\r\n\r\n"))

/-- The bytes that the caller gets to see. -/
def Received.text (r : Received) (buf : Int) : List Byte := r.mem.view buf r.ret.toNat

/-! ## The header -/

def buffered (m : Mem Byte) (buf : Int) (got : List Byte) : List Byte := text (m.store buf got) buf

/-- How many of the new bytes belong to the header, once its end is in sight. -/
def headerLen (ws : ws_s) (got : List Byte) : Option Nat :=
  if ws.state &&& HDR_SEEN = 0 then (find eoh got).map (· + 4) else some 0

/-- What a header announces, from the read that holds it. -/
def announced (ws : ws_s) (m : Mem Byte) (buf : Int) (got : List Byte) : ws_s :=
  if ws.state = 0 then
    match find clen1 got with
    | some i =>
      { ws with
        togo := toSsize (strtoul 10 ((buffered m buf got).drop (i + 15))).val
        state := LEN_SEEN }
    | none => if find clen2 got = none then ws else { ws with togo := 0, state := ENC_SEEN }
  else ws

/-- The buffer once the first `k` of the new bytes are gone. -/
def shifted (m : Mem Byte) (buf : Int) (got : List Byte) (k : Nat) : List Byte :=
  got.drop k ++ (buffered m buf got).drop (got.length - k)

theorem clen1_length : clen1.length = 15 := by decide

theorem text_drop (m : Mem Byte) (buf : Int) (k : Nat) :
    text m (buf + k) = (text m buf).drop k := by
  rw [text, text, Mem.view_drop]
  congr 1
  omega

@[simp] theorem text_read (m : Mem Byte) (a buf : Int) (n : Nat) :
    text (m.read a n) buf = text m buf := by simp [text]

theorem announce_ws (ws : ws_s) (m : Mem Byte) (buf : Int) (got : List Byte) :
    (announce ws (m.store buf got) buf got.length).1 = announced ws m buf got := by
  unfold announce announced
  by_cases h0 : ws.state = 0
  · simp only [h0, Mem.view_store, xmemmem_spec]
    cases find clen1 got with
    | some i =>
      simp only [text_drop, text_read, clen1_length]
      rfl
    | none =>
      cases find clen2 got with
      | some j => simp [ENC_SEEN]
      | none => simp
  · rw [if_neg h0, if_neg h0]

theorem announce_mem (ws : ws_s) (m : Mem Byte) (buf : Int) (nrd : Nat) :
    (announce ws m buf nrd).2.cell = m.cell ∧ (announce ws m buf nrd).2.size = m.size ∧
      ∀ i, (announce ws m buf nrd).2.Wrote i ↔ m.Wrote i := by
  unfold announce
  by_cases h0 : ws.state = 0
  · cases h1 : xmemmem (m.view buf nrd) clen1 with
    | some i => simp [h0, h1]
    | none => cases h2 : xmemmem (m.view buf nrd) clen2 <;> simp [h0, h1, h2]
  · simp [h0]

theorem text_congr (m m' : Mem Byte) (buf : Int) (hc : m'.cell = m.cell) (hs : m'.size = m.size) :
    text m' buf = text m buf := by
  rw [text, text, hs]
  exact Mem.view_congr _ _ _ _ fun i _ _ => by rw [hc]

theorem take_buffered (m : Mem Byte) (buf : Int) (got : List Byte)
    (hfit : buf + got.length ≤ m.size) : (buffered m buf got).take got.length = got := by
  rw [buffered, text, Mem.view_take, Nat.min_eq_left (by simp; omega), Mem.view_store]

/-- The header goes, and what is behind it moves to the front of the buffer. -/
structure Stripped (ws : ws_s) (m m1 : Mem Byte) (buf : Int) (got : List Byte) (k : Nat) (ws' : ws_s)
    (m' : Mem Byte) (nrd : Nat) : Prop where
  len : nrd + k = got.length
  ws : ws' = if ws.state &&& HDR_SEEN = 0 ∧ nrd ≠ 0 then
    { ws with state := ws.state ||| HDR_SEEN } else ws
  text : text m' buf = shifted m buf got k
  size : m'.size = m.size
  mem : Mem.Within buf (buf + got.length) m1 m'

section
variable (ws : ws_s) (m m1 : Mem Byte) (buf : Int) (got : List Byte)
  (hc : m1.cell = (m.store buf got).cell) (hs : m1.size = m.size)
  (hfit : buf + got.length ≤ m.size)

include hc in
theorem view_new : m1.view buf got.length = got := by
  rw [Mem.view_congr (m.store buf got) m1 _ _ (fun i _ _ => by rw [hc]), Mem.view_store]

include hc in
theorem strip_none (h : headerLen ws got = none) : strip ws m1 buf got.length = none := by
  have hview := view_new m m1 buf got hc
  unfold headerLen at h
  split at h
  · rename_i h0
    rw [Option.map_eq_none_iff] at h
    simp [strip, h0, hview, xmemmem_spec, h]
  · simp at h

include hc hs hfit in
theorem strip_some (k : Nat) (h : headerLen ws got = some k) :
    ∃ ws' m' nrd, strip ws m1 buf got.length = some (ws', m', nrd) ∧
      Stripped ws m m1 buf got k ws' m' nrd := by
  have hview := view_new m m1 buf got hc
  have htext : Rest.text m1 buf = buffered m buf got := text_congr _ _ _ hc hs
  unfold headerLen at h
  split at h
  · rename_i h0
    rw [Option.map_eq_some_iff] at h
    obtain ⟨i, hi, rfl⟩ := h
    have hle := find_le _ _ _ hi
    have h4 : eoh.length = 4 := rfl
    rw [h4] at hle
    by_cases hn : got.length - (i + 4) = 0
    · -- the read ends with the header
      refine ⟨ws, m1.read buf got.length, 0, ?_, ⟨by omega, ?_, ?_, hs, ?_⟩⟩
      · simp [strip, h0, hview, xmemmem_spec, hi, h4, hn]
      · rw [if_neg (by simp)]
      · rw [text_read, htext, shifted, hn, List.drop_eq_nil_of_le (by omega)]
        rfl
      · exact Mem.Within.read _ _ (Or.inr ⟨le_refl _, le_refl _⟩)
    · refine ⟨{ ws with state := ws.state ||| HDR_SEEN },
        (m1.read buf got.length).move buf (buf + (i + 4 : Nat)) (got.length - (i + 4)),
        got.length - (i + 4), ?_, ⟨by omega, ?_, ?_, hs, ?_⟩⟩
      · simp [strip, h0, hview, xmemmem_spec, hi, h4, hn]
      · rw [if_pos ⟨h0, hn⟩]
      · have hmoved : (m1.read buf got.length).view (buf + (i + 4 : Nat)) (got.length - (i + 4)) =
            got.drop (i + 4) := by
          rw [Mem.view_read, ← Mem.view_drop, hview]
        have hsize : ((m1.read buf got.length).move buf (buf + (i + 4 : Nat))
          (got.length - (i + 4))).size = m1.size := rfl
        rw [Rest.text, hsize, Mem.view_move_prefix _ _ _ _ _ (by omega), hmoved, Mem.view_read,
          shifted, ← htext]
        rfl
      · exact (Mem.Within.read _ _ (Or.inr ⟨le_refl _, le_refl _⟩)).trans
          (Mem.Within.move _ _ _ (Or.inr (by omega)) (Or.inr (by omega)))
  · rename_i h0
    simp only [Option.some.injEq] at h
    subst h
    refine ⟨ws, m1, got.length, by simp [strip, h0], ⟨rfl, ?_, ?_, hs, Mem.Within.refl _⟩⟩
    · rw [if_neg (by tauto)]
    · rw [htext, shifted, Nat.sub_zero, List.drop_zero]
      conv_lhs => rw [← List.take_append_drop got.length (buffered m buf got)]
      rw [take_buffered m buf got hfit]

end

/-! ## One call -/

theorem past_header (ws : ws_s) (m : Mem Byte) (buf : Int) (got : List Byte)
    (h : ws.state &&& HDR_SEEN ≠ 0) :
    headerLen ws got = some 0 ∧ announced ws m buf got = ws := by
  have h0 : ws.state ≠ 0 := by
    intro h0
    rw [h0] at h
    exact h rfl
  simp [headerLen, announced, h, h0]

theorem headerLen_announced (ws : ws_s) (m : Mem Byte) (buf : Int) (got : List Byte) :
    headerLen (announced ws m buf got) got = headerLen ws got := by
  by_cases h0 : ws.state = 0
  · cases h1 : find clen1 got with
    | some i => simp [headerLen, announced, h0, h1, HDR_SEEN, LEN_SEEN]
    | none =>
      by_cases h2 : find clen2 got = none
      · simp [announced, h0, h1, h2]
      · simp [headerLen, announced, h0, h1, h2, HDR_SEEN, ENC_SEEN]
  · simp [announced, h0]

theorem rest_recv_header (ws : ws_s) (m : Mem Byte) (buf : Int) (bsz : Nat) (rd : List Byte)
    (hne : rd.take bsz ≠ []) (h : headerLen ws (rd.take bsz) = none) :
    let r := rest_recv ws m buf bsz rd
    r.ws = announced ws m buf (rd.take bsz) ∧ r.ret = 0 ∧
      ∀ i, r.mem.Wrote i → m.Wrote i ∨ (buf ≤ i ∧ i < buf + (rd.take bsz).length) := by
  obtain ⟨hc, -, hw⟩ := announce_mem ws (m.store buf (rd.take bsz)) buf (rd.take bsz).length
  have hws := announce_ws ws m buf (rd.take bsz)
  have hn := strip_none (announced ws m buf (rd.take bsz)) m _ buf (rd.take bsz) hc
    (by rw [headerLen_announced, h])
  simp only [rest_recv]
  rw [if_neg hne, hws, hn]
  refine ⟨rfl, rfl, fun i hi => ?_⟩
  have := (hw i).mp hi
  rw [Mem.wrote_store] at this
  exact this.symm

theorem rest_recv_body (ws : ws_s) (m : Mem Byte) (buf : Int) (bsz : Nat) (rd : List Byte) (k : Nat)
    (hne : rd.take bsz ≠ []) (hfit : buf + bsz ≤ m.size) (h : headerLen ws (rd.take bsz) = some k) :
    ∃ ws' m1 m' nrd, rest_recv ws m buf bsz rd = body ws' m' buf (nrd : Nat) ∧
      Stripped (announced ws m buf (rd.take bsz)) m m1 buf (rd.take bsz) k ws' m' nrd ∧
      ∀ i, m1.Wrote i → m.Wrote i ∨ (buf ≤ i ∧ i < buf + (rd.take bsz).length) := by
  obtain ⟨hc, hs, hw⟩ := announce_mem ws (m.store buf (rd.take bsz)) buf (rd.take bsz).length
  have hws := announce_ws ws m buf (rd.take bsz)
  have hle : (rd.take bsz).length ≤ bsz := by simp
  obtain ⟨ws', m', nrd, hstrip, hspec⟩ := strip_some (announced ws m buf (rd.take bsz)) m _ buf
    (rd.take bsz) hc hs (by omega) k (by rw [headerLen_announced, h])
  refine ⟨ws', _, m', nrd, ?_, hspec, fun i hi => ?_⟩
  · simp only [rest_recv]
    rw [if_neg hne, hws, hstrip]
  · have := (hw i).mp hi
    rw [Mem.wrote_store] at this
    exact this.symm

/-! ## The protocol of a handle stays -/

theorem announce_p (ws : ws_s) (m : Mem Byte) (buf : Int) (nrd : Nat) :
    (announce ws m buf nrd).1.p = ws.p := by
  unfold announce
  by_cases h0 : ws.state = 0
  · cases h1 : xmemmem (m.view buf nrd) clen1 with
    | some i => simp [h0, h1]
    | none => cases h2 : xmemmem (m.view buf nrd) clen2 <;> simp [h0, h1, h2]
  · simp [h0]

theorem chunk_p (ws : ws_s) (m : Mem Byte) (n : Int) : (chunk ws m n).ws.p = ws.p := by
  unfold chunk
  split <;> rfl

theorem give_up_p (ws : ws_s) (m : Mem Byte) (buf : Int) : (give_up ws m buf).ws.p = ws.p := rfl

theorem chunked_p (ws : ws_s) (m : Mem Byte) (buf nrd : Int) : (chunked ws m buf nrd).ws.p = ws.p := by
  unfold chunked
  split
  · simp only
    generalize strtoul 16 (text m buf) = scan
    split
    · rw [give_up_p]
    · split
      · rw [give_up_p]
      · rw [chunk_p]
  · exact chunk_p ws m nrd

theorem plain_p (ws : ws_s) (m : Mem Byte) (buf nrd : Int) : (plain ws m buf nrd).ws.p = ws.p := by
  unfold plain
  split <;> rfl

theorem body_p (ws : ws_s) (m : Mem Byte) (buf nrd : Int) : (body ws m buf nrd).ws.p = ws.p := by
  unfold body
  split
  · exact plain_p ws m buf nrd
  · split
    · exact chunked_p ws m buf nrd
    · rfl

theorem rest_recv_p (ws : ws_s) (m : Mem Byte) (buf : Int) (bsz : Nat) (rd : List Byte) :
    (rest_recv ws m buf bsz rd).ws.p = ws.p := by
  have hann := announce_p ws (m.store buf (rd.take bsz)) buf (rd.take bsz).length
  unfold rest_recv
  simp only
  split
  · rfl
  · generalize announce ws (m.store buf (rd.take bsz)) buf (rd.take bsz).length = q at hann
    unfold strip
    split
    · rename_i h
      exact hann
    · rename_i ws' m' nrd h
      rw [body_p]
      split at h
      · split at h
        · cases h
        · simp only at h
          split at h
          · simp only [Option.some.injEq, Prod.mk.injEq] at h
            rw [← h.1, hann]
          · simp only [Option.some.injEq, Prod.mk.injEq] at h
            rw [← h.1]
            exact hann
      · simp only [Option.some.injEq, Prod.mk.injEq] at h
        rw [← h.1, hann]
/-! ## Runs -/

/-- A read that fits into its buffer, and the buffer into its object. -/
def Fits (c : Call) : Prop :=
  c.rd ≠ [] ∧ c.rd.length ≤ c.bsz ∧ c.buf + c.bsz ≤ c.mem.size ∧ c.bsz < 2 ^ 63

instance (c : Call) : Decidable (Fits c) := by
  unfold Fits
  infer_instance

def recv (ws : ws_s) (c : Call) : ws_s × List Byte :=
  let r := rest_recv ws c.mem c.buf c.bsz c.rd
  (r.ws, r.text c.buf)

theorem Stripped.view {ws : ws_s} {m m1 : Mem Byte} {buf : Int} {got : List Byte} {k nrd : Nat}
    {ws' : ws_s} {m' : Mem Byte} (h : Stripped ws m m1 buf got k ws' m' nrd)
    (hfit : buf + got.length ≤ m.size) : m'.view buf nrd = got.drop k := by
  have hlen := h.len
  have htext := congrArg (List.take nrd) h.text
  rw [Rest.text, h.size, Mem.view_take, Nat.min_eq_left (by omega)] at htext
  rw [htext, shifted, List.take_left' (by simp; omega)]

theorem recv_header (ws : ws_s) (c : Call) (hf : Fits c) (h : headerLen ws c.rd = none) :
    recv ws c = (announced ws c.mem c.buf c.rd, []) := by
  obtain ⟨hne, hlen, -, -⟩ := hf
  have htake : c.rd.take c.bsz = c.rd := List.take_of_length_le hlen
  have hr := rest_recv_header ws c.mem c.buf c.bsz c.rd
  rw [htake] at hr
  obtain ⟨hws, hret, -⟩ := hr hne h
  simp only [recv, Received.text, hws, hret]
  rfl

theorem recv_body (ws : ws_s) (c : Call) (k : Nat) (hf : Fits c)
    (h : headerLen ws c.rd = some k) :
    ∃ ws' m', recv ws c = ((body ws' m' c.buf (c.rd.length - k : Nat)).ws,
        (body ws' m' c.buf (c.rd.length - k : Nat)).text c.buf) ∧
      ws' = (if (announced ws c.mem c.buf c.rd).state &&& HDR_SEEN = 0 ∧ c.rd.length - k ≠ 0 then
        { announced ws c.mem c.buf c.rd with
          state := (announced ws c.mem c.buf c.rd).state ||| HDR_SEEN }
        else announced ws c.mem c.buf c.rd) ∧
      m'.view c.buf (c.rd.length - k) = c.rd.drop k ∧
      text m' c.buf = shifted c.mem c.buf c.rd k := by
  obtain ⟨hne, hlen, hfit, -⟩ := hf
  have htake : c.rd.take c.bsz = c.rd := List.take_of_length_le hlen
  have hr := rest_recv_body ws c.mem c.buf c.bsz c.rd k
  rw [htake] at hr
  obtain ⟨ws', m1, m', nrd, hr, hs, -⟩ := hr hne hfit h
  have hnrd : nrd = c.rd.length - k := by
    have := hs.len
    omega
  have hview := hs.view (by omega)
  subst hnrd
  exact ⟨ws', m', by rw [recv, hr], hs.ws, hview, hs.text⟩

theorem plain_spec (ws : ws_s) (m : Mem Byte) (buf : Int) (b : List Byte) (t : Nat)
    (htogo : ws.togo = t) (hb : m.view buf b.length = b) :
    ((plain ws m buf b.length).ws, (plain ws m buf b.length).text buf) =
      if b.length < t then ({ ws with togo := (t - b.length : Nat) }, b)
      else ({ ws with togo := 0, state := 0 }, b.take t ++ [nl]) := by
  unfold plain
  rw [htogo]
  by_cases hlt : b.length < t
  · rw [if_pos (by omega), if_pos hlt]
    simp only [Received.text, Int.toNat_natCast, hb]
    rw [Nat.cast_sub hlt.le]
  · rw [if_neg (by omega), if_neg hlt]
    have htake : b.take t = m.view buf t := by
      conv_lhs => rw [← hb]
      rw [Mem.view_take, Nat.min_eq_left (by omega)]
    have htext : (m.store (buf + t) [nl]).view buf (t + 1) = b.take t ++ [nl] := by
      rw [htake]
      exact Mem.view_store_append m buf t [nl]
    have hret : ((t : Int) + 1).toNat = t + 1 := by omega
    simp only [Received.text, hret, htext]

theorem chunk_spec (ws : ws_s) (m : Mem Byte) (buf : Int) (b : List Byte) (t : Nat)
    (htogo : ws.togo = t) (hb : m.view buf b.length = b) :
    ((chunk ws m b.length).ws, (chunk ws m b.length).text buf) =
      if b.length < t then ({ ws with togo := (t - b.length : Nat) }, b)
      else ({ ws with togo := 0 }, b.take t) := by
  unfold chunk
  rw [htogo]
  by_cases hlt : b.length < t
  · rw [if_pos (by omega), if_pos hlt]
    simp only [Received.text, Int.toNat_natCast, hb]
    rw [Nat.cast_sub hlt.le]
  · rw [if_neg (by omega), if_neg hlt]
    have htake : b.take t = m.view buf t := by
      conv_lhs => rw [← hb]
      rw [Mem.view_take, Nat.min_eq_left (by omega)]
    simp only [Received.text, Int.toNat_natCast, htake]

theorem recv_past (ws : ws_s) (c : Call) (hf : Fits c) (h : ws.state &&& HDR_SEEN ≠ 0) :
    ∃ m' stale, recv ws c = ((body ws m' c.buf c.rd.length).ws,
        (body ws m' c.buf c.rd.length).text c.buf) ∧
      m'.view c.buf c.rd.length = c.rd ∧ text m' c.buf = c.rd ++ stale := by
  obtain ⟨hk, han⟩ := past_header ws c.mem c.buf c.rd h
  obtain ⟨ws', m', hrecv, hws, hview, htext⟩ := recv_body ws c 0 hf hk
  rw [han, if_neg fun hc => h hc.1] at hws
  subst hws
  exact ⟨m', _, hrecv, hview, htext⟩

end Coins.Rest
