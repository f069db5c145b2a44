import Coins.Lib.Cursor
import Coins.Ws.Init
import Mathlib.Data.List.TakeWhile

/-!
# Session ids

`_sioi` asks a Socket.IO server for a session before the protocol is switched, and makes the resource
for the switch from the id that the server gives. The send buffer has the request first, then the answer
and in the end the resource.
-/

open Coins.Memory Coins.Numeral Coins.Search Coins.Xmemmem

namespace Coins.Ws

/-! ## The code -/

def slash : Byte := 0x2f
def colon : Byte := 0x3a
def quote : Byte := 0x22

def rsrc1 : List Byte := ascii "socket.io/1/ HTTP/1.1" ++ crlf ++ ascii "Host: "
def rsrc3 : List Byte := ascii "socket.io/?EIO=3&transport=polling HTTP/1.1" ++ crlf ++ ascii "Host: "
def sio_req : List Byte := header_lines ["User-Agent: Dark Ninja Secret/1.0", "Accept: */*"]

def frq1 : List Byte := ascii "socket.io/1/websocket/"
def frq3 : List Byte := ascii "socket.io/?EIO=3&transport=websocket&t=1234567890000&sid="

def ws_proto_t.rsrc : ws_proto_t → List Byte
  | .WS_PROTO_SIO1 => rsrc1
  | .WS_PROTO_SIO3 => rsrc3
  | _ => []

def ws_proto_t.frq : ws_proto_t → List Byte
  | .WS_PROTO_SIO1 => frq1
  | .WS_PROTO_SIO3 => frq3
  | _ => []

/-- `if (gbuf[nrq - 1U] != '/')` -/
def slashed (c : Cursor Byte) : Cursor Byte :=
  let last := c.base + c.len - 1
  let c := c.look last 1
  if c.mem.cell last ≠ slash then c.put [slash] else c

/-- The request, up to the line of the host. -/
def sio_host (p : ws_proto_t) (host rsrc : List Byte) (gbuf : Mem Byte) : Cursor Byte :=
  let c := (Cursor.start gbuf 0).put (ascii "GET ")
  let c := if rsrc.head? ≠ some slash then c.put [slash] else c
  let c := slashed (c.put rsrc)
  ((c.put p.rsrc).put host).put crlf

def sio_request (p : ws_proto_t) (host rsrc : List Byte) (gbuf : Mem Byte) : Cursor Byte :=
  (sio_host p host rsrc gbuf).put sio_req

/-- What the server has yet to say, and how much of it each of the next reads brings. -/
structure Stream where
  rest : List Byte
  sizes : List Nat

def recv (m : Mem Byte) (w : Stream) : Mem Byte × Nat :=
  match w.sizes with
  | [] => (m, 0)
  | n :: _ =>
    let got := w.rest.take (min n m.size)
    (m.store 0 got, got.length)

/-- Reads until there is the end of a header in one of them: where that is, and the length of the read. -/
def recv_eoh (m : Mem Byte) (rest : List Byte) : List Nat → Mem Byte × Stream × Option (Nat × Nat)
  | [] => (m, ⟨rest, []⟩, none)
  | n :: ns =>
    let got := rest.take (min n m.size)
    let m := m.store 0 got
    let rest := rest.drop got.length
    if got = [] then (m, ⟨rest, ns⟩, none)
    else
      match xmemmem (m.view 0 got.length) eoh with
      | none => recv_eoh (m.read 0 got.length) rest ns
      | some i => (m.read 0 got.length, ⟨rest, ns⟩, some (i + eoh.length, got.length))

/-- Where the text begins in which the id is looked for, and its length. -/
def recv_body (m : Mem Byte) (w : Stream) : Mem Byte × Option (Nat × Nat) :=
  match recv_eoh m w.rest w.sizes with
  | (m, _, none) => (m, none)
  | (m, w, some (eoh, nrd)) =>
    if nrd - eoh = 0 then
      -- just one more read
      match recv m w with
      | (m, 0) => (m, none)
      | (m, nrd) => (m, some (0, nrd))
    else (m, some (eoh, nrd - eoh))

/-- `sio1` simply prints the sid and other stuff separated by colons. -/
def sid1 (t : List Byte) : Option (List Byte) :=
  if colon ∈ t then
    let line := t.takeWhile (· ≠ colon)
    some (line.reverse.takeWhile (· ≠ nl)).reverse
  else none

/-- `while (sid < eob && *sid++ != c);` -/
def past_char (c : Byte) (t : List Byte) : List Byte := (t.dropWhile (· ≠ c)).tail

def sid_key : List Byte := [quote] ++ ascii "sid" ++ [quote]

/-- `sio3` gives us json. -/
def sid3 (t : List Byte) : Option (List Byte) :=
  match xmemmem t sid_key with
  | none => none
  | some i =>
    -- fast forward to the colon
    let s := (past_char quote (past_char colon (t.drop (i + sid_key.length)))).takeWhile (· ≠ quote)
    if s = [] then none else some s

def ws_proto_t.sid : ws_proto_t → List Byte → Option (List Byte)
  | .WS_PROTO_SIO1 => sid1
  | .WS_PROTO_SIO3 => sid3
  | _ => fun _ => none

/-- What `_sioi` returns, the send buffer and the request. -/
structure Sioi where
  ret : Int
  mem : Mem Byte
  sent : List Byte

/-- The resource for the switch, as it is put together in the send buffer. -/
def sio_resource (p : ws_proto_t) (rsrc sid : List Byte) (gbuf : Mem Byte) : Cursor Byte :=
  ((slashed ((Cursor.start gbuf 0).put rsrc)).put p.frq).put (sid ++ [0])

/-- As `ws_open` calls it, with the send buffer for the result. -/
def _sioi (p : ws_proto_t) (host rsrc : List Byte) (gbuf : Mem Byte) (w : Stream) : Sioi :=
  let c := sio_request p host rsrc gbuf
  match recv_body (c.mem.read 0 c.len) w with
  | (m, none) => ⟨-1, m, c.text⟩
  | (m, some (pos, nrd)) =>
    match p.sid (m.view pos nrd) with
    | none => ⟨-1, m.read pos nrd, c.text⟩
    | some sid =>
      if 64 ≤ sid.length ∨ gbuf.size ≤ sid.length then ⟨-1, m.read pos nrd, c.text⟩
      else
        let r := sio_resource p rsrc sid (m.read pos nrd)
        ⟨(r.len : Int) - 1, r.mem, c.text⟩

/-! ## Putting texts together -/

/-- A text with a slash in the end. -/
def closed (l : List Byte) : List Byte := if l.getLast? = some slash then l else l ++ [slash]

theorem slashed_text (c : Cursor Byte) (h : c.len ≠ 0) : (slashed c).text = closed c.text := by
  have hlast : c.text.getLast? = some ((c.look (c.base + c.len - 1) 1).mem.cell (c.base + c.len - 1)) := by
    have hlen : c.text.length = c.len := c.len_eq.symm
    rw [List.getLast?_eq_getElem?, hlen, List.getElem?_eq_getElem (by omega)]
    congr 1
    unfold Cursor.text
    rw [Mem.view_getElem, Cursor.cell_look]
    congr 1
    omega
  unfold slashed closed
  simp only [hlast, Option.some.injEq]
  by_cases hs : (c.look (c.base + c.len - 1) 1).mem.cell (c.base + c.len - 1) = slash
  · rw [if_neg (not_not.mpr hs), if_pos hs, Cursor.text_look]
  · rw [if_pos hs, if_neg hs, Cursor.text_put, Cursor.text_look]

@[simp] theorem slashed_base (c : Cursor Byte) : (slashed c).base = c.base := by
  unfold slashed
  simp only
  split <;> rfl

theorem slashed_from {m : Mem Byte} {c : Cursor Byte} (h : Cursor.From m c) (hlen : c.len ≠ 0) :
    Cursor.From m (slashed c) := by
  have hread := h.look (c.base + c.len - 1) 1 ⟨by omega, by omega⟩
  unfold slashed
  simp only
  split
  · exact hread.put _
  · exact hread

theorem slashed_looks (c : Cursor Byte) :
    (c.mem.read (c.base + c.len - 1) 1).log <:+ (slashed c).mem.log := by
  unfold slashed
  simp only
  split
  · exact List.suffix_cons _ _
  · exact List.suffix_refl _

/-- The request of a session. -/
def sio_text (p : ws_proto_t) (host rsrc : List Byte) : List Byte :=
  closed (ascii "GET " ++ (if rsrc.head? ≠ some slash then [slash] else []) ++ rsrc) ++
    p.rsrc ++ host ++ crlf ++ sio_req

/-- The resource for a session. -/
def resource (p : ws_proto_t) (rsrc sid : List Byte) : List Byte := closed rsrc ++ p.frq ++ sid

theorem sio_host_spec (p : ws_proto_t) (host rsrc : List Byte) (gbuf : Mem Byte) :
    let c := sio_host p host rsrc gbuf
    c.text ++ sio_req = sio_text p host rsrc ∧ c.base = 0 ∧ Cursor.From gbuf c := by
  obtain ⟨c1, hc1⟩ : ∃ c1, (if rsrc.head? ≠ some slash then ((Cursor.start gbuf 0).put (ascii "GET ")).put [slash]
      else (Cursor.start gbuf 0).put (ascii "GET ")) = c1 := ⟨_, rfl⟩
  have h1 : c1.text = ascii "GET " ++ (if rsrc.head? ≠ some slash then [slash] else []) ∧ c1.base = 0 ∧
      Cursor.From gbuf c1 := by
    have hverb := (Cursor.From.start gbuf 0).put (ascii "GET ")
    rw [← hc1]
    split
    · exact ⟨by simp, rfl, hverb.put _⟩
    · exact ⟨by simp, rfl, hverb⟩
  have hlen : (c1.put rsrc).len ≠ 0 := by
    rw [Cursor.len_eq, Cursor.text_put, h1.1]
    simp [ascii]
  have h2 := slashed_from (h1.2.2.put rsrc) hlen
  intro c
  unfold c sio_host sio_text
  simp only [hc1]
  refine ⟨?_, ?_, ((h2.put _).put _).put _⟩
  · simp only [Cursor.text_put, slashed_text _ hlen, h1.1]
  · simp only [Cursor.base_put, slashed_base, h1.2.1]

theorem sio_request_spec (p : ws_proto_t) (host rsrc : List Byte) (gbuf : Mem Byte) :
    let c := sio_request p host rsrc gbuf
    c.text = sio_text p host rsrc ∧ c.base = 0 ∧ Cursor.From gbuf c := by
  obtain ⟨htext, hbase, hfrom⟩ := sio_host_spec p host rsrc gbuf
  exact ⟨(Cursor.text_put _ _).trans htext, hbase, hfrom.put _⟩

theorem sio_request_writes (p : ws_proto_t) (host rsrc : List Byte) (gbuf m : Mem Byte) (hi : Int)
    (hlog : (sio_request p host rsrc gbuf).mem.log <:+ m.log) (hin : Mem.Within 0 hi gbuf m) :
    (sio_text p host rsrc).length ≤ hi := by
  obtain ⟨htext, hbase, hfrom⟩ := sio_host_spec p host rsrc gbuf
  have hreq : sio_req.length ≠ 0 := by decide
  have hlast := hin.access hfrom.grows ((Cursor.put_access _ sio_req).trans hlog)
  simp only [hbase, Cursor.len_eq] at hlast
  rw [← htext, List.length_append]
  omega

theorem sio_request_within (p : ws_proto_t) (host rsrc : List Byte) (gbuf : Mem Byte)
    (hfit : (sio_text p host rsrc).length ≤ gbuf.size) :
    let c := sio_request p host rsrc gbuf
    Mem.Within 0 gbuf.size gbuf (c.mem.read 0 c.len) := by
  obtain ⟨htext, hbase, hfrom⟩ := sio_request_spec p host rsrc gbuf
  have hlen := (sio_request p host rsrc gbuf).len_eq
  rw [htext] at hlen
  unfold Cursor.From at hfrom
  rw [hbase] at hfrom
  exact (hfrom.mono (le_refl _) (by omega)).trans (Mem.Within.read _ _ (Or.inr ⟨le_refl _, by omega⟩))

/-! ## The text that is searched -/

/-- What the reads bring, up to the first that brings nothing. -/
def reads (size : Nat) : List Byte → List Nat → List (List Byte)
  | _, [] => []
  | s, n :: ns =>
    let got := s.take (min n size)
    if got = [] then [] else got :: reads size (s.drop got.length) ns

/-- What is behind the end of a header in the first read that has one, or else the read behind that. -/
def searched : List (List Byte) → Option (List Byte)
  | [] => none
  | r :: rs =>
    match find eoh r with
    | none => searched rs
    | some i => if r.drop (i + eoh.length) = [] then rs.head? else some (r.drop (i + eoh.length))

theorem recv_eoh_spec (m : Mem Byte) (rest : List Byte) (sizes : List Nat) :
    Mem.Within 0 m.size m (recv_eoh m rest sizes).1 ∧
      match (recv_eoh m rest sizes).2 with
      | (_, none) => searched (reads m.size rest sizes) = none
      | (w, some (e, n)) => e ≤ n ∧ n ≤ m.size ∧ searched (reads m.size rest sizes) =
          if n - e = 0 then (reads m.size w.rest w.sizes).head?
          else some ((recv_eoh m rest sizes).1.view e (n - e)) := by
  induction sizes generalizing m rest with
  | nil => exact ⟨Mem.Within.refl m, rfl⟩
  | cons n ns ih =>
    rw [recv_eoh, reads]
    generalize hgot : rest.take (min n m.size) = got
    have hle : got.length ≤ m.size := by
      rw [← hgot, List.length_take]
      omega
    have hstore : Mem.Within 0 m.size m (m.store 0 got) := Mem.Within.store _ _ (Or.inr ⟨le_refl _, by omega⟩)
    by_cases hnil : got = []
    · rw [if_pos hnil, if_pos hnil]
      exact ⟨hstore, rfl⟩
    · have hread := hstore.trans (Mem.Within.read (m := m.store 0 got) 0 got.length (Or.inr ⟨le_refl _, by omega⟩))
      rw [if_neg hnil, if_neg hnil, searched, xmemmem_spec, Mem.view_store]
      cases hfind : find eoh got with
      | none =>
        obtain ⟨hin, hsearched⟩ := ih ((m.store 0 got).read 0 got.length) (rest.drop got.length)
        simp only
        exact ⟨hread.trans hin, hsearched⟩
      | some i =>
        have hi := find_le _ _ _ hfind
        have hview : (m.store 0 got).view (0 + (i + eoh.length : Nat)) (got.length - (i + eoh.length)) =
            got.drop (i + eoh.length) := by
          rw [← Mem.view_drop, Mem.view_store]
        rw [zero_add] at hview
        simp only [Mem.view_read, hview]
        refine ⟨hread, hi, hle, ?_⟩
        have hdrop : got.drop (i + eoh.length) = [] ↔ got.length - (i + eoh.length) = 0 := by
          rw [← List.length_eq_zero_iff, List.length_drop]
        simp only [hdrop]

theorem recv_body_spec (m : Mem Byte) (w : Stream) :
    Mem.Within 0 m.size m (recv_body m w).1 ∧
      match (recv_body m w).2 with
      | none => searched (reads m.size w.rest w.sizes) = none
      | some (pos, n) => pos + n ≤ m.size ∧
          searched (reads m.size w.rest w.sizes) = some ((recv_body m w).1.view pos n) := by
  obtain ⟨hin, hspec⟩ := recv_eoh_spec m w.rest w.sizes
  unfold recv_body
  generalize recv_eoh m w.rest w.sizes = q at hin hspec ⊢
  obtain ⟨m1, w1, _ | ⟨e, n⟩⟩ := q
  · exact ⟨hin, hspec⟩
  · obtain ⟨hen, hn, hspec⟩ := hspec
    have hsize := hin.size
    simp only at hspec hin hsize ⊢
    rw [hspec]
    by_cases h0 : n - e = 0
    · rw [if_pos h0, if_pos h0]
      unfold recv reads
      cases hs : w1.sizes with
      | nil => exact ⟨hin, rfl⟩
      | cons k ks =>
        simp only [hsize]
        generalize hgot : w1.rest.take (min k m.size) = got
        have hle : got.length ≤ m.size := by
          rw [← hgot, List.length_take]
          omega
        have hstore : Mem.Within 0 m.size m1 (m1.store 0 got) :=
          Mem.Within.store _ _ (Or.inr ⟨le_refl _, by omega⟩)
        cases got with
        | nil => exact ⟨hin.trans hstore, rfl⟩
        | cons b bs =>
          refine ⟨hin.trans hstore, by omega, ?_⟩
          rw [if_neg (List.cons_ne_nil b bs), List.head?_cons]
          exact congrArg some (Mem.view_store m1 0 (b :: bs)).symm
    · rw [if_neg h0, if_neg h0]
      exact ⟨hin, by omega, rfl⟩

/-- An answer of the server. Its header ends with the first empty line; the body may have others. -/
structure Response where
  header : List Byte
  body : List Byte
  ended : find eoh header = some (header.length - 4)

/-! ## The id -/

/-- In the answer to `p` the server gives the id `id`, behind `u`: in front of the first colon, from the
beginning of its line on; or as the first string behind the key and its colon. -/
inductive Told : ws_proto_t → List Byte → List Byte → List Byte → Prop
  | sio1 (u id v : List Byte) (hcolon : colon ∉ u ++ id) (hnl : nl ∉ id) (hu : u = [] ∨ ∃ w, u = w ++ [nl]) :
      Told .WS_PROTO_SIO1 (u ++ id ++ colon :: v) u id
  | sio3 (a b g id v body : List Byte)
      (hbody : body = a ++ sid_key ++ b ++ [colon] ++ g ++ [quote] ++ id ++ quote :: v)
      (hfind : find sid_key body = some a.length) (hb : colon ∉ b) (hg : quote ∉ g) (hid : quote ∉ id) :
      Told .WS_PROTO_SIO3 body (a ++ sid_key ++ b ++ [colon] ++ g ++ [quote]) id

/-- In the text `t`, which may be cut at either end, `id` is what stands where the id should be: in front of
the first colon, back to the beginning of the line or the text; or behind the key, a colon and a quote, up to
the next quote or the end. -/
inductive Stands : ws_proto_t → List Byte → List Byte → Prop
  | sio1 (u id v : List Byte) (hcolon : colon ∉ u ++ id) (hnl : nl ∉ id) (hu : u = [] ∨ ∃ w, u = w ++ [nl]) :
      Stands .WS_PROTO_SIO1 (u ++ id ++ colon :: v) id
  | sio3 (a b g id v t : List Byte) (ht : t = a ++ sid_key ++ b ++ [colon] ++ g ++ [quote] ++ id ++ v)
      (hfind : find sid_key t = some a.length) (hb : colon ∉ b) (hg : quote ∉ g) (hid : quote ∉ id) (hne : id ≠ [])
      (hv : v = [] ∨ ∃ w, v = quote :: w) : Stands .WS_PROTO_SIO3 t id

theorem split_at (c : Byte) (t : List Byte) (h : c ∈ t) :
    ∃ v, t = t.takeWhile (· ≠ c) ++ c :: v ∧ c ∉ t.takeWhile (· ≠ c) := by
  induction t with
  | nil => cases h
  | cons b t ih =>
    by_cases hb : b = c
    · exact ⟨t, by simp [hb], by simp [hb]⟩
    · obtain ⟨v, hv, hno⟩ := ih ((List.mem_cons.mp h).resolve_left fun he => hb he.symm)
      have htake : (b :: t).takeWhile (· ≠ c) = b :: t.takeWhile (· ≠ c) := by simp [hb]
      rw [htake]
      exact ⟨v, by rw [List.cons_append, ← hv], fun hm => (List.mem_cons.mp hm).elim (fun he => hb he.symm) hno⟩

theorem takeWhile_upto (c : Byte) (a v : List Byte) (ha : c ∉ a) (hv : v = [] ∨ ∃ w, v = c :: w) :
    (a ++ v).takeWhile (· ≠ c) = a := by
  induction a with
  | nil => rcases hv with rfl | ⟨w, rfl⟩ <;> simp
  | cons b a ih =>
    have hb : b ≠ c := fun he => ha (he ▸ List.mem_cons_self)
    have htake : (b :: a ++ v).takeWhile (· ≠ c) = b :: (a ++ v).takeWhile (· ≠ c) := by simp [hb]
    rw [htake, ih fun hm => ha (List.mem_cons_of_mem b hm)]

theorem past_char_run (c : Byte) (b v : List Byte) (hb : c ∉ b) : past_char c (b ++ c :: v) = v := by
  unfold past_char
  induction b with
  | nil => simp
  | cons d b ih =>
    have hd : d ≠ c := fun he => hb (he ▸ List.mem_cons_self)
    have hdrop : (d :: b ++ c :: v).dropWhile (· ≠ c) = (b ++ c :: v).dropWhile (· ≠ c) := by simp [hd]
    rw [hdrop, ih fun hm => hb (List.mem_cons_of_mem d hm)]

theorem past_char_cases (c : Byte) (t : List Byte) (h : past_char c t ≠ []) :
    ∃ b, t = b ++ [c] ++ past_char c t ∧ c ∉ b := by
  have hmem : c ∈ t := by
    by_contra hno
    have hdrop : t.dropWhile (· ≠ c) = [] := by
      rw [List.dropWhile_eq_nil_iff]
      exact fun b hb => decide_eq_true fun he => hno (he ▸ hb)
    exact h (by rw [past_char, hdrop]; rfl)
  obtain ⟨v, hv, hno⟩ := split_at c t hmem
  have hpast : past_char c t = v := by
    conv_lhs => rw [hv]
    exact past_char_run c _ v hno
  exact ⟨_, by rw [hpast, List.append_assoc]; exact hv, hno⟩

theorem sid1_told (t more s : List Byte) (h : sid1 t = some s) :
    ∃ u, Told .WS_PROTO_SIO1 (t ++ more) u s ∧ (u ++ s).length ≤ t.length := by
  unfold sid1 at h
  split at h
  · rename_i hmem
    obtain ⟨v, hv, hno⟩ := split_at colon t hmem
    generalize t.takeWhile (· ≠ colon) = line at h hv hno
    have hs := Option.some.inj h
    have hline : line = (line.reverse.dropWhile (· ≠ nl)).reverse ++ s := by
      rw [← hs, ← List.reverse_append, List.takeWhile_append_dropWhile, List.reverse_reverse]
    generalize hu : (line.reverse.dropWhile (· ≠ nl)).reverse = u at hline
    refine ⟨u, ?_, ?_⟩
    · rw [hv, hline, List.append_assoc _ _ more, List.cons_append]
      refine .sio1 u s _ (hline ▸ hno) ?_ ?_
      · rw [← hs, List.mem_reverse]
        intro hm
        have := List.mem_takeWhile_imp hm
        simp at this
      · rw [← hu]
        cases hd : line.reverse.dropWhile (· ≠ nl) with
        | nil => exact Or.inl rfl
        | cons b bs =>
          have hb := List.head_dropWhile_not (· ≠ nl) (l := line.reverse) (by rw [hd]; exact List.cons_ne_nil _ _)
          simp only [hd, List.head_cons] at hb
          refine Or.inr ⟨bs.reverse, ?_⟩
          rw [List.reverse_cons]
          simp at hb
          rw [hb]
    · rw [← hline, hv, List.length_append]
      omega
  · cases h

theorem sid3_some (t s : List Byte) (h : sid3 t = some s) :
    ∃ a b g r, t = a ++ sid_key ++ b ++ [colon] ++ g ++ [quote] ++ s ++ r ∧ find sid_key t = some a.length ∧
      colon ∉ b ∧ quote ∉ g ∧ (s ++ r).takeWhile (· ≠ quote) = s := by
  unfold sid3 at h
  rw [xmemmem_spec] at h
  cases hfind : find sid_key t with
  | none =>
    rw [hfind] at h
    cases h
  | some i =>
    rw [hfind] at h
    simp only at h
    generalize ht2 : t.drop (i + sid_key.length) = t2 at h
    split at h
    · cases h
    · rename_i hne
      have hs := Option.some.inj h
      rw [hs] at hne
      have hq : past_char quote (past_char colon t2) ≠ [] := by
        intro h0
        rw [h0] at hs
        exact hne hs.symm
      obtain ⟨g, hg, hgq⟩ := past_char_cases quote _ hq
      have hc : past_char colon t2 ≠ [] := by
        intro h0
        rw [h0] at hg
        simp at hg
      obtain ⟨b, hb, hbc⟩ := past_char_cases colon _ hc
      obtain ⟨hp, hi, -⟩ := (find_eq_some _ _ _).mp hfind
      obtain ⟨w, hw⟩ := hp
      have hwt : w = t2 := by rw [← ht2, ← List.drop_drop, ← hw, List.drop_left]
      have hsplit := List.takeWhile_append_dropWhile (p := (· ≠ quote)) (l := past_char quote (past_char colon t2))
      rw [hs] at hsplit
      refine ⟨t.take i, b, g, (past_char quote (past_char colon t2)).dropWhile (· ≠ quote), ?_, ?_, hbc, hgq,
        by rw [hsplit, hs]⟩
      · calc t = t.take i ++ t.drop i := (List.take_append_drop i t).symm
          _ = t.take i ++ (sid_key ++ t2) := by rw [← hw, hwt]
          _ = t.take i ++ (sid_key ++ (b ++ [colon] ++ (g ++ [quote] ++ past_char quote (past_char colon t2)))) := by
            rw [← hg, ← hb]
          _ = _ := by
            conv_lhs => rw [← hsplit]
            simp only [List.append_assoc]
      · rw [List.length_take, Nat.min_eq_left hi]

theorem sid_stands (p : ws_proto_t) (t s : List Byte) : p.sid t = some s ↔ Stands p t s := by
  constructor
  · intro h
    cases p with
    | WS_PROTO_RAW => cases h
    | WS_PROTO_WAMP => cases h
    | WS_PROTO_REST => cases h
    | WS_PROTO_SIO1 =>
      obtain ⟨u, htold, -⟩ := sid1_told t [] s h
      rw [List.append_nil] at htold
      cases htold with
      | sio1 u _ v hcolon hnl hu => exact .sio1 u s v hcolon hnl hu
    | WS_PROTO_SIO3 =>
      have hne : s ≠ [] := by
        rintro rfl
        change sid3 t = some [] at h
        unfold sid3 at h
        split at h
        · cases h
        · simp only at h
          split at h
          · cases h
          · rename_i hne
            exact hne (Option.some.inj h)
      obtain ⟨a, b, g, r, ht, hfind, hb, hg, hs⟩ := sid3_some t s h
      refine .sio3 a b g s r t ht hfind hb hg ?_ hne ?_
      · rw [← hs]
        exact fun hm => absurd (List.mem_takeWhile_imp hm) (by simp)
      · have hdrop := List.takeWhile_append_dropWhile (p := (· ≠ quote)) (l := s ++ r)
        rw [hs] at hdrop
        rw [← List.append_cancel_left hdrop]
        cases hd : (s ++ r).dropWhile (· ≠ quote) with
        | nil => exact Or.inl rfl
        | cons c w =>
          have hc := List.head_dropWhile_not (· ≠ quote) (l := s ++ r) (by rw [hd]; exact List.cons_ne_nil _ _)
          simp only [hd, List.head_cons] at hc
          have hquote : c = quote := by simpa using hc
          exact Or.inr ⟨w, by rw [hquote]⟩
  · intro h
    cases h with
    | sio1 u _ v hcolon hnl hu =>
      have hline : (u ++ s ++ colon :: v).takeWhile (· ≠ colon) = u ++ s :=
        takeWhile_upto colon (u ++ s) _ hcolon (Or.inr ⟨v, rfl⟩)
      have hback : (s.reverse ++ u.reverse).takeWhile (· ≠ nl) = s.reverse := by
        refine takeWhile_upto nl s.reverse u.reverse (by simpa using hnl) ?_
        rcases hu with rfl | ⟨w, rfl⟩
        · exact Or.inl rfl
        · exact Or.inr ⟨w.reverse, by rw [List.reverse_append]; rfl⟩
      change sid1 _ = _
      unfold sid1
      rw [if_pos (by simp)]
      simp only [hline, List.reverse_append, hback, List.reverse_reverse]
    | sio3 a b g _ v _ ht hfind hb hg hid hne hv =>
      have hrest : t.drop (a.length + sid_key.length) = b ++ colon :: (g ++ quote :: (s ++ v)) := by
        rw [ht]
        simp only [List.append_assoc, List.singleton_append]
        rw [← List.drop_drop, List.drop_left, List.drop_left]
        rfl
      change sid3 t = _
      unfold sid3
      rw [xmemmem_spec, hfind]
      simp only [hrest, past_char_run _ _ _ hb, past_char_run _ _ _ hg, takeWhile_upto quote s v hid hv, if_neg hne]

theorem first_unique {c : Byte} {a a' v v' : List Byte} (h : a ++ [c] ++ v = a' ++ [c] ++ v') (ha : c ∉ a)
    (ha' : c ∉ a') : a = a' ∧ v = v' := by
  have hpast := congrArg (past_char c) h
  have htake := congrArg (List.takeWhile (· ≠ c)) h
  rw [List.append_assoc, List.append_assoc] at hpast htake
  rw [List.singleton_append, List.singleton_append] at hpast htake
  rw [past_char_run c a v ha, past_char_run c a' v' ha'] at hpast
  rw [takeWhile_upto c a _ ha (Or.inr ⟨_, rfl⟩), takeWhile_upto c a' _ ha' (Or.inr ⟨_, rfl⟩)] at htake
  exact ⟨htake, hpast⟩

theorem sid3_reached (t more u id s : List Byte) (htold : Told .WS_PROTO_SIO3 (t ++ more) u id)
    (h : sid3 t = some s) : s = id ↔ (u ++ id).length ≤ t.length := by
  obtain ⟨a', b', g', r, ht, hfind', hb', hg', hs⟩ := sid3_some t s h
  cases htold with
  | sio3 a b g _ v _ hbody hfind hb hg hid =>
    have hlen : a'.length = a.length := by
      have := find_mono sid_key t more _ hfind'
      rw [hfind] at this
      exact (Option.some.inj this).symm
    have hall : a' ++ sid_key ++ (b' ++ [colon] ++ (g' ++ [quote] ++ (s ++ r ++ more))) =
        a ++ sid_key ++ (b ++ [colon] ++ (g ++ [quote] ++ (id ++ quote :: v))) := by
      rw [ht] at hbody
      simpa only [List.append_assoc] using hbody
    obtain ⟨ha, hcolon⟩ := List.append_inj hall (by rw [List.length_append, List.length_append, hlen])
    obtain ⟨hbb, hquote⟩ := first_unique hcolon hb' hb
    obtain ⟨hgg, hrest⟩ := first_unique hquote hg' hg
    have htlen : t.length = (a ++ sid_key ++ b ++ [colon] ++ g ++ [quote]).length + (s ++ r).length := by
      rw [ht, ha, hbb, hgg]
      simp only [List.length_append]
      omega
    rw [List.length_append, htlen]
    constructor
    · rintro rfl
      have hsr : (s ++ r).length = s.length + r.length := List.length_append
      omega
    · intro hle
      -- what was read begins with the id
      have hw : s ++ r = id ++ (s ++ r).drop id.length := by
        have htake := congrArg (List.take id.length) hrest
        rw [List.take_append_of_le_length (by omega), List.take_left] at htake
        conv_lhs => rw [← List.take_append_drop id.length (s ++ r), htake]
      have hend : (s ++ r).drop id.length = [] ∨ ∃ w, (s ++ r).drop id.length = quote :: w := by
        have hdrop := congrArg (List.drop id.length) hrest
        rw [List.drop_append_of_le_length (by omega), List.drop_left] at hdrop
        cases hd : (s ++ r).drop id.length with
        | nil => exact Or.inl rfl
        | cons c w =>
          rw [hd] at hdrop
          exact Or.inr ⟨w, by rw [(List.cons.inj hdrop).1]⟩
      rw [← hs, hw]
      exact takeWhile_upto quote id _ hid hend

theorem sid_begins (p : ws_proto_t) (t more s : List Byte) (h : p.sid t = some s) :
    (∃ u, Told p (t ++ more) u s) ↔ ∃ u id, Told p (t ++ more) u id ∧ (u ++ id).length ≤ t.length := by
  cases p with
  | WS_PROTO_RAW => cases h
  | WS_PROTO_WAMP => cases h
  | WS_PROTO_REST => cases h
  | WS_PROTO_SIO1 =>
    obtain ⟨u, htold, hlen⟩ := sid1_told t more s h
    exact iff_of_true ⟨u, htold⟩ ⟨u, s, htold, hlen⟩
  | WS_PROTO_SIO3 =>
    constructor
    · rintro ⟨u, htold⟩
      exact ⟨u, s, htold, (sid3_reached t more u s s htold h).mp rfl⟩
    · rintro ⟨u, id, htold, hlen⟩
      exact ⟨u, (sid3_reached t more u id s htold h).mpr hlen ▸ htold⟩

/-- The text `t` that is searched begins with the body, and has the id up to its end. Or it is behind an
empty line of the body, and what is found there happens to be the id. -/
def IdReached (p : ws_proto_t) (body t s : List Byte) : Prop :=
  ∃ u id, Told p body u id ∧ (t <+: body ∧ (u ++ id).length ≤ t.length ∨ ¬ t <+: body ∧ s = id)

theorem sid_reached (p : ws_proto_t) (body t s : List Byte) (h : p.sid t = some s) :
    (∃ u, Told p body u s) ↔ IdReached p body t s := by
  by_cases hpre : t <+: body
  · obtain ⟨more, rfl⟩ := hpre
    have hpre : t <+: t ++ more := List.prefix_append _ _
    refine (sid_begins p t more s h).trans ⟨?_, ?_⟩
    · rintro ⟨u, id, htold, hlen⟩
      exact ⟨u, id, htold, Or.inl ⟨hpre, hlen⟩⟩
    · rintro ⟨u, id, htold, ⟨-, hlen⟩ | ⟨hno, -⟩⟩
      · exact ⟨u, id, htold, hlen⟩
      · exact absurd hpre hno
  · constructor
    · rintro ⟨u, htold⟩
      exact ⟨u, s, htold, Or.inr ⟨hpre, rfl⟩⟩
    · rintro ⟨u, id, htold, ⟨hyes, -⟩ | ⟨-, rfl⟩⟩
      · exact absurd hyes hpre
      · exact ⟨u, htold⟩

/-! ## The resource -/

theorem sio_resource_spec (p : ws_proto_t) (rsrc sid : List Byte) (m : Mem Byte) (hrsrc : rsrc ≠ []) :
    let c := sio_resource p rsrc sid m
    c.text = resource p rsrc sid ++ [0] ∧ c.base = 0 ∧ Cursor.From m c := by
  have hlen : ((Cursor.start m 0).put rsrc).len ≠ 0 := by
    rw [Cursor.len_eq, Cursor.text_put, Cursor.text_start, List.nil_append]
    exact fun h => hrsrc (List.length_eq_zero_iff.mp h)
  have hfrom := slashed_from ((Cursor.From.start m 0).put rsrc) hlen
  unfold sio_resource resource
  refine ⟨?_, ?_, (hfrom.put _).put _⟩
  · simp only [Cursor.text_put, slashed_text _ hlen, Cursor.text_start, List.nil_append, List.append_assoc]
  · simp only [Cursor.base_put, slashed_base, Cursor.base_start]

theorem sio_resource_looks (p : ws_proto_t) (sid : List Byte) (gbuf m m' : Mem Byte) (hold : gbuf.log <:+ m.log)
    (hlog : (sio_resource p [] sid m).mem.log <:+ m'.log) (hi : Int) : ¬ Mem.Within 0 hi gbuf m' := by
  intro hin
  have hlook := slashed_looks ((Cursor.start m 0).put [])
  have hputs : (slashed ((Cursor.start m 0).put [])).mem.log <:+ (sio_resource p [] sid m).mem.log :=
    List.suffix_append [_, _] _
  have hstart : gbuf.log <:+ ((Cursor.start m 0).put []).mem.log := hold.trans (List.suffix_cons _ _)
  have hfront := hin.access hstart ((hlook.trans hputs).trans hlog)
  have hlen : (Cursor.start m 0).len = 0 := rfl
  simp [hlen] at hfront

theorem sio_resource_writes (p : ws_proto_t) (rsrc sid : List Byte) (gbuf m : Mem Byte) (hrsrc : rsrc ≠ [])
    (hi : Int) (hold : gbuf.log <:+ m.log) (hin : Mem.Within 0 hi gbuf (sio_resource p rsrc sid m).mem) :
    (resource p rsrc sid).length < hi := by
  have hlen : ((Cursor.start m 0).put rsrc).len ≠ 0 := by
    rw [Cursor.len_eq, Cursor.text_put, Cursor.text_start, List.nil_append]
    exact fun h => hrsrc (List.length_eq_zero_iff.mp h)
  have hfrom := (slashed_from ((Cursor.From.start m 0).put rsrc) hlen).put p.frq
  have hlast := hin.access (hold.trans hfrom.grows) (Cursor.put_access _ (sid ++ [0]))
  simp only [Cursor.base_put, slashed_base, Cursor.base_start, Cursor.len_eq, Cursor.text_put, slashed_text _ hlen,
    Cursor.text_start, List.nil_append, List.length_append, List.length_singleton] at hlast
  unfold resource
  rw [List.length_append, List.length_append]
  omega

theorem resource_inj (p : ws_proto_t) (rsrc s s' : List Byte) (h : resource p rsrc s = resource p rsrc s') : s = s' :=
  List.append_cancel_left h

/-- Whenever it succeeds, the resource is the given one with the id of the server, and nothing outside of
the send buffer was touched. -/
def Upgrades (p : ws_proto_t) (rsrc body : List Byte) (gbuf : Mem Byte) (r : Sioi) : Prop :=
  0 ≤ r.ret → (∃ u id, Told p body u id ∧ r.mem.view 0 r.ret.toNat = resource p rsrc id) ∧
    Mem.Within 0 gbuf.size gbuf r.mem

/-- When something of the right length stands where the id should be, the given resource is not empty, the
request and the resource for the switch with a NUL fit into the send buffer, and the id of the body has been
reached. -/
def Granted (p : ws_proto_t) (host rsrc body : List Byte) (gbsz : Nat) (t : Option (List Byte)) : Prop :=
  ∀ t' ∈ t, ∀ s, Stands p t' s → s.length < 64 → s.length < gbsz →
    rsrc ≠ [] ∧ (sio_text p host rsrc).length ≤ gbsz ∧ (resource p rsrc s).length < gbsz ∧
      IdReached p body t' s

/-- **The session is in the resource** exactly if its id has been reached, there is a given resource, and
there is room. -/
theorem sioi_upgrades (p : ws_proto_t) (host rsrc : List Byte) (gbuf : Mem Byte) (x : Response)
    (sizes : List Nat) :
    Upgrades p rsrc x.body gbuf (_sioi p host rsrc gbuf ⟨x.header ++ x.body, sizes⟩) ↔
      Granted p host rsrc x.body gbuf.size (searched (reads gbuf.size (x.header ++ x.body) sizes)) := by
  obtain ⟨htext, hbase, hfrom⟩ := sio_request_spec p host rsrc gbuf
  have hsize : (sio_request p host rsrc gbuf).mem.size = gbuf.size := Mem.Within.size hfrom
  obtain ⟨hin, hbody⟩ := recv_body_spec ((sio_request p host rsrc gbuf).mem.read 0 (sio_request p host rsrc gbuf).len)
    ⟨x.header ++ x.body, sizes⟩
  rw [Mem.size_read, hsize] at hin hbody
  have hgrows : (sio_request p host rsrc gbuf).mem.log <:+ (recv_body ((sio_request p host rsrc gbuf).mem.read 0
      (sio_request p host rsrc gbuf).len) ⟨x.header ++ x.body, sizes⟩).1.log := (Mem.log_read _ _ _).trans hin.grows
  unfold _sioi Granted
  simp only
  generalize recv_body ((sio_request p host rsrc gbuf).mem.read 0 (sio_request p host rsrc gbuf).len)
    ⟨x.header ++ x.body, sizes⟩ = q at hin hbody hgrows ⊢
  have hfails : ∀ (m : Mem Byte) (l : List Byte), Upgrades p rsrc x.body gbuf ⟨-1, m, l⟩ := fun m l hret =>
    absurd hret (show ¬ (0 : Int) ≤ -1 by decide)
  obtain ⟨m, _ | ⟨pos, n⟩⟩ := q
  · simp only at hbody
    rw [hbody]
    exact iff_of_true (hfails _ _) fun t ht => (nomatch ht)
  · simp only at hbody hin hgrows ⊢
    obtain ⟨hle, hsearched⟩ := hbody
    generalize ht : m.view pos n = t at hsearched
    rw [hsearched]
    simp only [Option.mem_some_iff, forall_eq']
    cases hs : p.sid t with
    | none => exact iff_of_true (hfails _ _) fun s hs' => (nomatch hs.symm.trans ((sid_stands p t s).mpr hs'))
    | some s =>
      have hstands : ∀ s', Stands p t s' ↔ s = s' := fun s' => by rw [← sid_stands, hs, Option.some.injEq]
      simp only [hstands, forall_eq']
      by_cases hbig : 64 ≤ s.length ∨ gbuf.size ≤ s.length
      · rw [if_pos hbig]
        exact iff_of_true (hfails _ _) fun h64 hz => by omega
      · rw [if_neg hbig]
        have hreach := sid_reached p x.body t s hs
        have hold : gbuf.log <:+ (m.read pos n).log := (hfrom.grows.trans hgrows).trans (Mem.log_read _ _ _)
        have hview : rsrc ≠ [] → (sio_resource p rsrc s (m.read pos n)).mem.view 0
            (((sio_resource p rsrc s (m.read pos n)).len : Int) - 1).toNat = resource p rsrc s := by
          intro hne
          obtain ⟨htext', hbase', -⟩ := sio_resource_spec p rsrc s (m.read pos n) hne
          have hlen := (sio_resource p rsrc s (m.read pos n)).len_eq
          rw [htext', List.length_append, List.length_singleton] at hlen
          unfold Cursor.text at htext'
          rw [hbase', hlen, Mem.view_append] at htext'
          rw [hlen, show (((resource p rsrc s).length + 1 : Nat) : Int) - 1 = (resource p rsrc s).length by omega,
            Int.toNat_natCast]
          exact (List.append_inj htext' (Mem.view_length _ _ _)).1
        have hpos : (0 : Int) ≤ ((sio_resource p rsrc s (m.read pos n)).len : Int) - 1 := by
          have : (s ++ [0]).length ≤ (sio_resource p rsrc s (m.read pos n)).len := Nat.le_add_left _ _
          rw [List.length_append, List.length_singleton] at this
          omega
        constructor
        · intro hup h64 hz
          obtain ⟨⟨u, id, htold, hres⟩, hwithin⟩ := hup hpos
          have hne : rsrc ≠ [] := by
            rintro rfl
            exact sio_resource_looks p s gbuf _ _ hold (List.suffix_refl _) _ hwithin
          have hwrites := sio_resource_writes p rsrc s gbuf _ hne _ hold hwithin
          have hfits := sio_request_writes p host rsrc gbuf _ _ (hgrows.trans ((Mem.log_read _ _ _).trans
            (sio_resource_spec p rsrc s (m.read pos n) hne).2.2.grows)) hwithin
          simp only at hres
          rw [hview hne] at hres
          obtain rfl := resource_inj p rsrc _ _ hres
          exact ⟨hne, by omega, by omega, hreach.mp ⟨u, htold⟩⟩
        · intro hready _
          obtain ⟨hne, hfits, hroom, hend⟩ := hready (by omega) (by omega)
          obtain ⟨u, htold⟩ := hreach.mpr hend
          obtain ⟨htext', hbase', hfrom'⟩ := sio_resource_spec p rsrc s (m.read pos n) hne
          have hlen := (sio_resource p rsrc s (m.read pos n)).len_eq
          rw [htext', List.length_append, List.length_singleton] at hlen
          refine ⟨⟨u, s, htold, hview hne⟩, ?_⟩
          unfold Cursor.From at hfrom'
          rw [hbase'] at hfrom'
          have hread : Mem.Within 0 gbuf.size m (m.read pos n) :=
            Mem.Within.read _ _ (Or.inr ⟨by omega, by omega⟩)
          exact (((sio_request_within p host rsrc gbuf hfits).trans hin).trans hread).trans
            (hfrom'.mono (le_refl _) (by omega))

/-! ## An id that is cut -/

def session : List Byte := [0x7b] ++ sid_key ++ [colon, quote] ++ ascii "abcdef" ++ [quote, 0x7d]

def polled : Response where
  header := ascii "HTTP/1.1 200 OK" ++ eoh
  body := session
  ended := by decide +kernel

theorem told_whole {body u id s : List Byte} (htold : Told .WS_PROTO_SIO3 body u id) (h : sid3 body = some s) :
    s = id := by
  have hreached := sid3_reached body [] u id s (by rwa [List.append_nil]) h
  refine hreached.mpr ?_
  cases htold with
  | sio3 a b g _ v _ hbody _ _ _ _ =>
    have hpre : a ++ sid_key ++ b ++ [colon] ++ g ++ [quote] ++ id <+: body := by
      rw [hbody]
      exact List.prefix_append _ _
    exact hpre.length_le

/-- When the read ends in the id, its first half is taken for the session. -/
theorem cut_id_returned :
    let gbuf : Mem Byte := ⟨fun _ => 0, 4096, []⟩
    let r := _sioi .WS_PROTO_SIO3 (ascii "host") (ascii "ws") gbuf ⟨polled.header ++ polled.body, [30, 4096]⟩
    r.mem.view 0 r.ret.toNat = resource .WS_PROTO_SIO3 (ascii "ws") (ascii "abc") ∧
      ¬ Upgrades .WS_PROTO_SIO3 (ascii "ws") polled.body gbuf r := by
  intro gbuf r
  have hview : r.mem.view 0 r.ret.toNat = resource .WS_PROTO_SIO3 (ascii "ws") (ascii "abc") := by decide +kernel
  refine ⟨hview, fun hup => ?_⟩
  obtain ⟨⟨u, id, htold, hres⟩, -⟩ := hup (by decide +kernel)
  have habc := resource_inj _ _ _ _ (hview.symm.trans hres)
  have hwhole : sid3 polled.body = some (ascii "abcdef") := by decide +kernel
  have := (told_whole htold hwhole).trans habc.symm
  exact absurd this (by decide)

/-- When the end of the header is cut, an empty line of the body is taken for it. -/
example :
    let gbuf : Mem Byte := ⟨fun _ => 0, 4096, []⟩
    let body := ascii "real:15:25" ++ eoh ++ ascii "fake:1:2"
    let r := _sioi .WS_PROTO_SIO1 (ascii "host") (ascii "ws") gbuf ⟨polled.header ++ body, [17, 4096]⟩
    r.mem.view 0 r.ret.toNat = resource .WS_PROTO_SIO1 (ascii "ws") (ascii "fake") := by
  decide +kernel

end Coins.Ws
