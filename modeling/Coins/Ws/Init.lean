import Coins.Lib.Numeral
import Coins.Ws.Handle
import Coins.Xmemmem

/-!
# The protocol switch

`_init` asks for it, peeks at the answer, and takes the header of the answer off the wire, so that the
first frame is what comes next.
-/

open Coins.Memory Coins.Numeral Coins.Search Coins.Xmemmem

namespace Coins.Ws

/-! ## The code -/

def eoh : List Byte := crlf ++ crlf

def header_lines (l : List String) : List Byte := l.flatMap (fun s => ascii s ++ crlf) ++ crlf

def ws_req : List Byte :=
  header_lines ["Sec-WebSocket-Version: 13", "Sec-WebSocket-Key: e8w+o5wQsV0rXFezPUS8XQ==",
    "Upgrade: websocket", "Connection: Upgrade"]

def wamp_req : List Byte :=
  header_lines ["Sec-WebSocket-Version: 13", "Sec-WebSocket-Key: e8w+o5wQsV0rXFezPUS8XQ==",
    "Sec-WebSocket-Protocol: wamp.2.json", "Upgrade: websocket", "Connection: Upgrade"]

def rest_req : List Byte := header_lines ["User-Agent: Mozilla/4.0"]

def ws_proto_t.req : ws_proto_t → List Byte
  | .WS_PROTO_RAW | .WS_PROTO_SIO1 | .WS_PROTO_SIO3 => ws_req
  | .WS_PROTO_WAMP => wamp_req
  | .WS_PROTO_REST => rest_req

/-- The request as it is put together in the send buffer. -/
def request (p : ws_proto_t) (host rsrc : List Byte) : List Byte :=
  let slash := if rsrc.head? ≠ some 0x2f then ascii "/" else []
  ascii "GET " ++ slash ++ rsrc ++ ascii " HTTP/1.1" ++ crlf ++ ascii "Host: " ++ host ++ crlf ++ p.req

def switching : List Byte := ascii "HTTP/1.1 101"

/-- What the server sends, and how much of it the peek and the read return. -/
structure Wire where
  stream : List Byte
  peeked : Nat
  taken : Nat

/-- What `_init` returns, the bytes it takes off the wire, and the send buffer. -/
structure Init where
  ret : Int
  consumed : Nat
  mem : Mem Byte

def _init (p : ws_proto_t) (host rsrc : List Byte) (gbuf : Mem Byte) (w : Wire) : Init :=
  let m := gbuf.store 0 (request p host rsrc)
  let peek := w.stream.take (min w.peeked gbuf.size)
  if peek = [] then ⟨-1, 0, m⟩
  else
    let m := m.store 0 peek
    -- find 101 or error
    let rc := if m.view 0 12 = switching then 0 else -1
    let m := (m.read 0 12).read 0 peek.length
    match xmemmem (m.view 0 peek.length) eoh with
    | none => ⟨rc, 0, m⟩
    | some i =>
      let nrd := w.stream.take (min w.taken (i + eoh.length))
      ⟨rc, nrd.length, m.store 0 nrd⟩

/-! ## What is compared -/

/-- The peek brings something, and it begins with the status line of a switch. When it is shorter
than that, the comparison goes on with what is left of the request. -/
def Switching (p : ws_proto_t) (host rsrc peek : List Byte) : Prop :=
  peek ≠ [] ∧ (peek ++ (request p host rsrc).drop peek.length).take 12 = switching

theorem request_length (p : ws_proto_t) (host rsrc : List Byte) :
    12 ≤ (request p host rsrc).length := by
  have h4 : (ascii "GET ").length = 4 := rfl
  have h9 : (ascii " HTTP/1.1").length = 9 := rfl
  unfold request
  simp only [List.length_append, h4, h9]
  omega

theorem view_overwritten (m : Mem Byte) (a b : List Byte) (n : Nat) (hn : n ≤ a.length) :
    ((m.store 0 a).store 0 b).view 0 n = (b ++ a.drop b.length).take n := by
  have ha : (m.store 0 a).view 0 a.length = a := Mem.view_store m 0 a
  rcases Nat.le_total n b.length with hb | hb
  · have hview := Mem.view_store (m.store 0 a) 0 b
    rw [List.take_append_of_le_length hb, ← hview, Mem.view_take, Mem.view_store]
    congr 1
    omega
  · rw [Mem.view_store_prefix _ _ _ _ hb, List.take_append]
    have hrest : (m.store 0 a).view (0 + b.length) (n - b.length) = (a.drop b.length).take (n - b.length) := by
      conv_rhs => rw [← ha]
      rw [Mem.view_drop, Mem.view_take]
      congr 1
      omega
    rw [hrest, List.take_of_length_le hb]

/-! ## What is taken off the wire -/

section
variable (header frames : List Byte) (hend : find eoh header = some (header.length - 4))
include hend

theorem find_peek (k : Nat) : find eoh ((header ++ frames).take k) =
    if header.length ≤ k then some (header.length - 4) else none := by
  split
  · rename_i hk
    rw [List.take_append, List.take_of_length_le hk]
    exact find_mono _ _ _ _ hend
  · rename_i hk
    rw [List.take_append_of_le_length (by omega)]
    cases hf : find eoh (header.take k) with
    | none => rfl
    | some j =>
      have hle := find_le _ _ _ hf
      have hmono := find_mono _ _ (header.drop k) _ hf
      rw [List.take_append_drop, hend] at hmono
      have hlen : eoh.length = 4 := rfl
      rw [List.length_take] at hle
      have := Option.some.inj hmono
      omega

theorem switching_header (stale : List Byte) (k : Nat) (hk : header.length ≤ k)
    (h : (((header ++ frames).take k) ++ stale).take 12 = switching) : switching <+: header := by
  have htake : (header ++ frames).take k = header ++ frames.take (k - header.length) := by
    rw [List.take_append, List.take_of_length_le hk]
  rw [htake, List.append_assoc] at h
  rcases Nat.lt_or_ge header.length 12 with hlt | hge
  · exfalso
    have hhere : eoh <:+: header := by
      by_contra hno
      rw [(find_eq_none _ _).mpr hno] at hend
      cases hend
    have hin : header <+: switching := by
      rw [← h, List.take_append, List.take_of_length_le (by omega)]
      exact List.prefix_append _ _
    exact absurd (hhere.trans hin.isInfix) (by decide)
  · rw [List.take_append_of_le_length hge] at h
    rw [← h]
    exact List.take_prefix _ _

theorem init_consumed (p : ws_proto_t) (host rsrc : List Byte) (gbuf : Mem Byte) (peeked taken : Nat) :
    (_init p host rsrc gbuf ⟨header ++ frames, peeked, taken⟩).consumed =
      if header.length ≤ min peeked gbuf.size then min taken header.length else 0 := by
  have hfind := find_peek header frames hend (min peeked gbuf.size)
  have hlen : eoh.length = 4 := rfl
  have h4 : header.length - 4 + eoh.length = header.length := by
    have hle := find_le _ _ _ hend
    omega
  unfold _init
  simp only
  by_cases hnil : (header ++ frames).take (min peeked gbuf.size) = []
  · rw [if_pos hnil, if_neg]
    rintro hk
    have := congrArg List.length hnil
    simp only [List.length_take, List.length_append, List.length_nil] at this
    omega
  · rw [if_neg hnil]
    simp only [Mem.view_read, xmemmem_spec, Mem.view_store, hfind]
    by_cases hk : header.length ≤ min peeked gbuf.size
    · simp only [if_pos hk, h4, List.length_take, List.length_append]
      omega
    · simp only [if_neg hk]

end

theorem init_ret (p : ws_proto_t) (host rsrc : List Byte) (gbuf : Mem Byte) (w : Wire) :
    (_init p host rsrc gbuf w).ret = 0 ↔
      Switching p host rsrc (w.stream.take (min w.peeked gbuf.size)) := by
  have hcmp := view_overwritten gbuf (request p host rsrc) (w.stream.take (min w.peeked gbuf.size)) 12
    (request_length p host rsrc)
  unfold _init Switching
  rw [← hcmp]
  simp only
  by_cases hnil : w.stream.take (min w.peeked gbuf.size) = []
  · simp [hnil]
  · rw [if_neg hnil]
    simp only [hnil, ne_eq, not_false_eq_true, true_and]
    generalize xmemmem _ eoh = found
    cases found
    all_goals
      simp only
      split
      · rename_i hsw
        exact iff_of_true rfl hsw
      · rename_i hsw
        exact iff_of_false (by decide) hsw

/-- `_init` leaves the wire at the first frame just when it fails, or the peek has the whole header in
it and the read brings all of that. -/
theorem init_leaves_frames (p : ws_proto_t) (host rsrc : List Byte) (gbuf : Mem Byte)
    (header frames : List Byte) (hend : find eoh header = some (header.length - 4))
    (peeked taken : Nat) :
    let r := _init p host rsrc gbuf ⟨header ++ frames, peeked, taken⟩
    (r.ret = 0 → switching <+: header ∧ r.consumed = header.length) ↔
    (Switching p host rsrc ((header ++ frames).take (min peeked gbuf.size)) →
      header.length ≤ min peeked gbuf.size ∧ header.length ≤ taken) := by
  have hle := find_le _ _ _ hend
  have hlen : eoh.length = 4 := rfl
  simp only [init_ret, init_consumed header frames hend]
  constructor
  · intro h hsw
    have := (h hsw).2
    split at this
    · rename_i hk
      exact ⟨hk, by omega⟩
    · omega
  · intro h hsw
    obtain ⟨hk, htaken⟩ := h hsw
    exact ⟨switching_header header frames hend _ _ hk hsw.2, by rw [if_pos hk]; omega⟩

def switched : List Byte := switching ++ eoh

/-- The header in one piece, and a frame behind it. -/
theorem init_leaves_frames_whole :
    let r := _init .WS_PROTO_RAW (ascii "host") [] ⟨fun _ => 0, 4096, []⟩ ⟨switched ++ [0x89, 0], 18, 18⟩
    (r.ret = 0 → switching <+: switched ∧ r.consumed = switched.length) ↔
    (Switching .WS_PROTO_RAW (ascii "host") [] ((switched ++ [0x89, 0]).take (min 18 4096)) →
      switched.length ≤ min 18 4096 ∧ switched.length ≤ 18) :=
  init_leaves_frames .WS_PROTO_RAW (ascii "host") [] ⟨fun _ => 0, 4096, []⟩ switched [0x89, 0]
    (by decide) 18 18

/-- When the header comes in two pieces, nothing is taken off the wire. -/
theorem header_left :
    let r := _init .WS_PROTO_RAW (ascii "host") [] ⟨fun _ => 0, 4096, []⟩ ⟨switched ++ [0x89, 0], 14, 18⟩
    r.ret = 0 ∧ r.consumed = 0 ∧ switched.length = 16 := by
  decide +kernel

end Coins.Ws
