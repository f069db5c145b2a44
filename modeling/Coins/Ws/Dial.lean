import Coins.Rest.Requests
import Coins.Ws.Open
import Coins.Ws.Sioi

/-!
# Urls

`ws_open` takes an url apart in a copy of it: a NUL takes the place of the slash behind the host and of the
colon in front of the port. The colon is put back when the protocol is switched, and not before.
-/

open Coins.Memory Coins.Numeral Coins.Rest Coins.Transducer

namespace Coins.Ws

/-! ## The code -/

/-- `!memcmp(url, name, n) && (*sslp = url[z] == 's', !memcmp(url + z + *sslp, "://", 3U))`: where the host
is, and `*sslp`. -/
def scheme (url name : List Byte) (z : Nat) : Option (Nat × Bool) :=
  if name.isPrefixOf url then
    let sslp : Bool := url.getD z 0 = 0x73
    if (ascii "://").isPrefixOf (url.drop (z + sslp.toNat)) then some (z + sslp.toNat + 3, sslp) else none
  else none

def guess_proto (url : List Byte) : ws_proto_t × Nat × Bool :=
  match scheme url (ascii "ws") 2 with
  | some (host, sslp) => (.WS_PROTO_RAW, host, sslp)
  | none =>
    match scheme url (ascii "wamp") 4 with
    | some (host, sslp) => (.WS_PROTO_WAMP, host, sslp)
    | none =>
      match scheme url (ascii "http") 4 with
      | some (host, sslp) => (.WS_PROTO_REST, host, sslp)
      | none =>
        match scheme url (ascii "sio") 4 with
        | some (host, sslp) =>
          (if url.getD 3 0 = 0x31 then .WS_PROTO_SIO1 else .WS_PROTO_SIO3, host, sslp)
        -- otherwise assume the host right away
        | none => (.WS_PROTO_RAW, 0, false)

/-- The string from `p` up to the NUL behind it. -/
def cstr (buf : List Byte) (p : Nat) : List Byte := (buf.drop p).takeWhile (· ≠ 0)

/-- `memchr` from `p` on. -/
def memchr_from (buf : List Byte) (p : Nat) (c : Byte) (n : Nat) : Option Nat :=
  (memchr c ((buf.drop p).take n)).map (p + ·)

/-- What `ws_open` meets: if `_open` succeeds for a host, a port and with or without TLS, the send buffer,
and what the server says to `_sioi` and to `_init`. -/
structure Outside where
  conn : List Byte → Nat → Bool → Bool
  gbuf : Mem Byte
  session : Stream
  wire : Wire

/-- What `_open` is called with, the requests, and the handle. -/
structure Dialled where
  opened : Option (List Byte × Nat × Bool)
  sent : List (List Byte)
  ws : Option ws_s

/-- `buf` after the search for the resource, and where that is. -/
def cut_rsrc (url : List Byte) (host : Nat) : List Byte × Nat :=
  let buf := url ++ [0]
  match memchr_from buf host slash (url.length - host) with
  | none => (buf, url.length)
  | some on => (buf.set on 0, on + 1)

/-- `buf` after the search for the port, where its colon is, and the port; 0 or too large is none. -/
def cut_port (buf : List Byte) (host rsrc : Nat) (sslp : Bool) : List Byte × Option Nat × Nat :=
  match memchr_from buf host colon (rsrc - host) with
  | none => (buf, none, if sslp then 443 else 80)
  | some on =>
    let buf := buf.set on 0
    (buf, some on, (strtoul 10 (buf.drop (on + 1))).val)

/-- From the switch of protocols on. -/
def switch (p : ws_proto_t) (buf : List Byte) (host : Nat) (on : Option Nat) (rsrc : List Byte) (gbuf : Mem Byte)
    (w : Wire) : List Byte × Option ws_s :=
  -- fiddle with the port param again
  let buf := match on with
    | none => buf
    | some on => buf.set on colon
  (request p (cstr buf host) rsrc,
    if (_init p (cstr buf host) rsrc gbuf w).ret < 0 then none else some (ws_s.init p))

/-- `ws_open`, with the url. -/
def ws_open_url (o : Outside) (url : List Byte) : Dialled :=
  let (p, host, sslp) := guess_proto url
  let (buf, rsrc) := cut_rsrc url host
  let (buf, on, x) := cut_port buf host rsrc sslp
  if x = 0 ∨ 65536 ≤ x then ⟨none, [], none⟩
  else
    let opened := some (cstr buf host, x, sslp)
    if o.conn (cstr buf host) x sslp = false then ⟨opened, [], none⟩
    else
      match p with
      -- don't call nothing yet
      | .WS_PROTO_REST => ⟨opened, [], some { ws_s.init p with host := cstr buf host }⟩
      | .WS_PROTO_SIO1 | .WS_PROTO_SIO3 =>
        let s := _sioi p (cstr buf host) (cstr buf rsrc) o.gbuf o.session
        if s.ret < 0 then ⟨opened, [s.sent], none⟩
        else
          let r := switch p buf host on (s.mem.view 0 s.ret.toNat) s.mem o.wire
          ⟨opened, [s.sent, r.1], r.2⟩
      | .WS_PROTO_RAW | .WS_PROTO_WAMP =>
        let r := switch p buf host on ((buf.drop rsrc).take (url.length - rsrc)) o.gbuf o.wire
        ⟨opened, [r.1], r.2⟩

/-! ## Urls that are meant -/

inductive Scheme
  | ws | wss | wamp | wamps | http | https | sio1 | sio1s | sio3 | sio3s
deriving DecidableEq

namespace Scheme

def text : Scheme → List Byte
  | ws => ascii "ws"
  | wss => ascii "wss"
  | wamp => ascii "wamp"
  | wamps => ascii "wamps"
  | http => ascii "http"
  | https => ascii "https"
  | sio1 => ascii "sio1"
  | sio1s => ascii "sio1s"
  | sio3 => ascii "sio3"
  | sio3s => ascii "sio3s"

def p : Scheme → ws_proto_t
  | ws | wss => .WS_PROTO_RAW
  | wamp | wamps => .WS_PROTO_WAMP
  | http | https => .WS_PROTO_REST
  | sio1 | sio1s => .WS_PROTO_SIO1
  | sio3 | sio3s => .WS_PROTO_SIO3

def tls : Scheme → Bool
  | wss | wamps | https | sio1s | sio3s => true
  | ws | wamp | http | sio1 | sio3 => false

end Scheme

/-- `scheme://host[:port][/path]` -/
structure Url where
  scheme : Scheme
  host : List Byte
  port : Option (List Byte)
  path : Option (List Byte)
  named : host ≠ []
  plain : 0 ∉ host ∧ colon ∉ host ∧ slash ∉ host
  digits : ∀ d ∈ port, d ≠ [] ∧ (∀ b ∈ d, isDigit 10 b = true) ∧ 1 ≤ digitsVal 10 d ∧ digitsVal 10 d ≤ 65535
  whole : ∀ q ∈ path, 0 ∉ q

namespace Url

variable (u : Url)

def authority : List Byte := u.host ++ u.port.elim [] (colon :: ·)

def front : List Byte := u.scheme.text ++ ascii "://"

def text : List Byte := u.front ++ u.authority ++ u.path.elim [] (slash :: ·)

def portnum : Nat := u.port.elim (if u.scheme.tls then 443 else 80) (digitsVal 10)

end Url

/-! ## The edits -/

theorem cstr_append (a b d : List Byte) (hb : 0 ∉ b) : cstr (a ++ b ++ 0 :: d) a.length = b := by
  unfold cstr
  rw [List.append_assoc, List.drop_left, List.takeWhile_append_of_pos, List.takeWhile_cons_of_neg, List.append_nil]
  · simp
  · intro x hx
    exact decide_eq_true fun h0 => hb (h0 ▸ hx)

theorem memchr_from_append (a b d : List Byte) (c : Byte) (n : Nat) (hb : c ∉ b) (hn : b.length < n) :
    memchr_from (a ++ b ++ c :: d) a.length c n = some (a ++ b).length := by
  obtain ⟨k, rfl⟩ : ∃ k, n = b.length + (k + 1) := ⟨n - b.length - 1, by omega⟩
  unfold memchr_from
  rw [List.append_assoc, List.drop_left, List.take_length_add_append, List.take_succ_cons, memchr_some c b _ hb,
    Option.map_some, List.length_append]

theorem memchr_from_none (a b : List Byte) (c : Byte) (n : Nat) (hb : c ∉ b.take n) :
    memchr_from (a ++ b) a.length c n = none := by
  unfold memchr_from
  rw [List.drop_left, memchr_none c _ hb]
  rfl

theorem set_append (a d : List Byte) (b c : Byte) : (a ++ b :: d).set a.length c = a ++ c :: d := by
  simp

theorem guess_proto_url (s : Scheme) (l : List Byte) :
    guess_proto (s.text ++ ascii "://" ++ l) = (s.p, (s.text ++ ascii "://").length, s.tls) := by
  cases s <;> rfl

namespace Url

variable (u : Url)

def rsrc : List Byte := u.path.getD []

/-- What is behind the NUL that ends the authority. -/
def tail : List Byte := u.path.elim [] (· ++ [0])

def pos : Nat := (u.front ++ u.authority).length + u.path.elim 0 fun _ => 1

theorem not_digit : isDigit 10 0 = false ∧ isDigit 10 slash = false := by decide

theorem authority_plain : 0 ∉ u.authority ∧ slash ∉ u.authority := by
  have hdigits := u.digits
  have h0 := not_digit
  unfold authority
  cases hp : u.port with
  | none => simpa using ⟨u.plain.1, u.plain.2.2⟩
  | some d =>
    obtain ⟨-, hd, -⟩ := hdigits d hp
    have hno : ∀ b, isDigit 10 b = false → b ∉ d := fun b hb hin => by rw [hd b hin] at hb; cases hb
    simp only [Option.elim_some, List.mem_append, List.mem_cons, not_or]
    exact ⟨⟨u.plain.1, by decide, hno _ h0.1⟩, u.plain.2.2, by decide, hno _ h0.2⟩

theorem cut_rsrc_url : cut_rsrc u.text u.front.length = (u.front ++ u.authority ++ 0 :: u.tail, u.pos) := by
  unfold cut_rsrc text tail pos
  cases hq : u.path with
  | none =>
    have hno : slash ∉ (u.authority ++ [0]).take ((u.front ++ u.authority).length - u.front.length) := by
      rw [List.length_append, Nat.add_sub_cancel_left, List.take_left]
      exact u.authority_plain.2
    simp only [Option.elim_none, List.append_nil]
    rw [List.append_assoc, memchr_from_none _ _ _ _ hno, ← List.append_assoc]
    rfl
  | some q =>
    have hat := memchr_from_append u.front u.authority (q ++ [0]) slash
      ((u.front ++ u.authority ++ slash :: q).length - u.front.length) u.authority_plain.2
      (by simp only [List.length_append, List.length_cons]; omega)
    simp only [Option.elim_some]
    rw [List.append_assoc, List.cons_append, hat]
    simp only [set_append]

/-- What is behind the NUL that ends the host. -/
def behind : List Byte := u.port.elim u.tail (· ++ 0 :: u.tail)

theorem cut_port_url :
    cut_port (u.front ++ u.authority ++ 0 :: u.tail) u.front.length u.pos u.scheme.tls =
      (u.front ++ u.host ++ 0 :: u.behind, u.port.map fun _ => (u.front ++ u.host).length, u.portnum) := by
  have hpos : u.pos - u.front.length = u.authority.length + u.path.elim 0 fun _ => 1 := by
    unfold pos
    rw [List.length_append]
    omega
  unfold cut_port
  rw [hpos]
  unfold authority behind portnum
  cases hd : u.port with
  | none =>
    have hno : colon ∉ (u.host ++ 0 :: u.tail).take (u.host.length + u.path.elim 0 fun _ => 1) := by
      rw [List.take_append, List.take_of_length_le (by omega), List.mem_append, not_or]
      refine ⟨u.plain.2.1, ?_⟩
      cases u.path with
      | none => simp
      | some q => simp; decide
    simp only [Option.elim_none, List.append_nil]
    rw [List.append_assoc, memchr_from_none _ _ _ _ hno, ← List.append_assoc]
    rfl
  | some d =>
    obtain ⟨hne, hdigit, -, hle⟩ := u.digits d hd
    have hat := memchr_from_append u.front u.host (d ++ 0 :: u.tail) colon
      ((u.host ++ colon :: d).length + u.path.elim 0 fun _ => 1) u.plain.2.1
      (by simp only [List.length_append, List.length_cons]; omega)
    have hbuf : u.front ++ (u.host ++ colon :: d) ++ 0 :: u.tail =
        u.front ++ u.host ++ colon :: (d ++ 0 :: u.tail) := by simp
    have hdrop : (u.front ++ u.host ++ 0 :: (d ++ 0 :: u.tail)).drop ((u.front ++ u.host).length + 1) =
        [] ++ d ++ 0 :: u.tail := by
      rw [← List.drop_drop, List.drop_left]
      rfl
    have hval := strtoul_number 10 (by decide) [] d 0 u.tail (by simp) hdigit hne not_digit.1 (by decide)
    simp only [Option.elim_some, Option.map_some]
    rw [hbuf, hat]
    simp only [set_append, hdrop, hval]
    rw [if_neg (by unfold ulongMax; omega)]

/-- The buffer after both cuts. -/
def buf : List Byte := u.front ++ u.host ++ 0 :: u.behind

theorem buf_drop : u.buf.drop u.pos = u.rsrc ++ [0] := by
  obtain ⟨a, hlen, hbuf⟩ : ∃ a, (u.front ++ u.authority).length = a.length ∧ u.buf = a ++ 0 :: u.tail := by
    unfold buf authority behind
    cases u.port with
    | none => exact ⟨u.front ++ u.host, by simp, rfl⟩
    | some d => exact ⟨u.front ++ u.host ++ 0 :: d, by simp, by simp⟩
  unfold pos tail rsrc at *
  rw [hbuf, hlen]
  cases u.path with
  | none => exact List.drop_left
  | some q =>
    rw [← List.drop_drop]
    simp

theorem rsrc_whole : 0 ∉ u.rsrc := by
  have hwhole := u.whole
  unfold rsrc
  cases hq : u.path with
  | none => simp
  | some q => exact hwhole q hq

theorem cstr_host : cstr u.buf u.front.length = u.host := cstr_append _ _ _ u.plain.1

theorem cstr_rsrc : cstr u.buf u.pos = u.rsrc := by
  have h := cstr_append [] u.rsrc [] u.rsrc_whole
  unfold cstr at h ⊢
  rw [buf_drop]
  exact h

theorem take_rsrc : (u.buf.drop u.pos).take (u.text.length - u.pos) = u.rsrc := by
  have hlen : u.text.length - u.pos = u.rsrc.length := by
    unfold text pos rsrc
    cases u.path with
    | none => simp
    | some q => simp; omega
  rw [buf_drop, hlen, List.take_left]

theorem cstr_authority : cstr (match u.port.map fun _ => (u.front ++ u.host).length with
    | none => u.buf
    | some on => u.buf.set on colon) u.front.length = u.authority := by
  have hplain := u.authority_plain.1
  unfold buf behind
  revert hplain
  unfold authority
  cases u.port with
  | none =>
    intro hplain
    simp only [Option.map_none, Option.elim_none] at hplain ⊢
    rw [List.append_nil] at hplain ⊢
    exact cstr_append _ _ _ hplain
  | some d =>
    intro hplain
    simp only [Option.map_some, Option.elim_some] at hplain ⊢
    rw [set_append, List.append_assoc, ← List.cons_append, ← List.append_assoc u.host, ← List.append_assoc]
    exact cstr_append _ _ _ hplain

theorem switch_url (p : ws_proto_t) (rsrc : List Byte) (gbuf : Mem Byte) (w : Wire) :
    switch p u.buf u.front.length (u.port.map fun _ => (u.front ++ u.host).length) rsrc gbuf w =
      (request p u.authority rsrc,
        if (_init p u.authority rsrc gbuf w).ret < 0 then none else some (ws_s.init p)) := by
  have h := u.cstr_authority
  unfold switch
  simp only
  rw [h]

theorem portnum_range : ¬ (u.portnum = 0 ∨ 65536 ≤ u.portnum) := by
  have hdigits := u.digits
  unfold portnum
  cases hd : u.port with
  | none =>
    simp only [Option.elim_none]
    split <;> decide
  | some d =>
    obtain ⟨-, -, hlo, hhi⟩ := hdigits d hd
    simp only [Option.elim_some]
    omega

end Url

/-- What `ws_open` does with an url that is well formed. -/
def dial (o : Outside) (u : Url) : Dialled :=
  let opened := some (u.host, u.portnum, u.scheme.tls)
  let ws := fun rsrc gbuf =>
    if (_init u.scheme.p u.authority rsrc gbuf o.wire).ret < 0 then none else some (ws_s.init u.scheme.p)
  if o.conn u.host u.portnum u.scheme.tls = false then ⟨opened, [], none⟩
  else
    match u.scheme.p with
    | .WS_PROTO_REST => ⟨opened, [], some { ws_s.init u.scheme.p with host := u.host }⟩
    | .WS_PROTO_SIO1 | .WS_PROTO_SIO3 =>
      let s := _sioi u.scheme.p u.host u.rsrc o.gbuf o.session
      let rsrc := s.mem.view 0 s.ret.toNat
      if s.ret < 0 then ⟨opened, [s.sent], none⟩
      else ⟨opened, [s.sent, request u.scheme.p u.authority rsrc], ws rsrc s.mem⟩
    | .WS_PROTO_RAW | .WS_PROTO_WAMP => ⟨opened, [request u.scheme.p u.authority u.rsrc], ws u.rsrc o.gbuf⟩

theorem ws_open_url_spec (o : Outside) (u : Url) : ws_open_url o u.text = dial o u := by
  have hguess : guess_proto u.text = (u.scheme.p, u.front.length, u.scheme.tls) := by
    unfold Url.text
    rw [List.append_assoc]
    exact guess_proto_url _ _
  have hport : cut_port (u.front ++ u.authority ++ 0 :: u.tail) u.front.length u.pos u.scheme.tls =
      (u.buf, u.port.map fun _ => (u.front ++ u.host).length, u.portnum) := u.cut_port_url
  unfold ws_open_url dial
  simp only [hguess, u.cut_rsrc_url, hport, if_neg u.portnum_range, u.cstr_host, u.cstr_rsrc, u.take_rsrc,
    u.switch_url]

/-! ## What is meant -/

/-- `GET` with a target, the line of the host, and the other fields. -/
def get (target host fields : List Byte) : List Byte :=
  ascii "GET " ++ target ++ ascii " HTTP/1.1" ++ crlf ++ ascii "Host: " ++ host ++ crlf ++ fields

/-- The requests that are sent once there is a connection. -/
def Meant (u : Url) (sent : List (List Byte)) : Prop :=
  match u.scheme.p with
  | .WS_PROTO_RAW | .WS_PROTO_WAMP => sent = [get (slash :: u.rsrc) u.authority u.scheme.p.req]
  | .WS_PROTO_SIO1 | .WS_PROTO_SIO3 =>
    ∃ rsrcs : List (List Byte), sent = sio_text u.scheme.p u.authority u.rsrc ::
      rsrcs.map (request u.scheme.p u.authority)
  | .WS_PROTO_REST => sent = []

/-- The connection goes where the url says, and every request names its authority, those on the handle
included. -/
structure Served (o : Outside) (u : Url) (r : Dialled) : Prop where
  opened : r.opened = some (u.host, u.portnum, u.scheme.tls)
  sent : if o.conn u.host u.portnum u.scheme.tls then Meant u r.sent else r.sent = []
  later : ∀ ws ∈ r.ws, ∀ evs url, ∀ t ∈ (rest_send (feed turn ws evs).1 url).2, t = get url u.authority rest_req

/-- A port only where it is put back, and there no second slash. -/
def Restored (u : Url) : Prop :=
  match u.scheme.p with
  | .WS_PROTO_RAW | .WS_PROTO_WAMP => u.rsrc.head? ≠ some slash
  | .WS_PROTO_SIO1 | .WS_PROTO_SIO3 | .WS_PROTO_REST => u.port = none

/-! ## What is sent -/

theorem request_plain (p : ws_proto_t) (host rsrc : List Byte) :
    request p host rsrc = get (slash :: rsrc) host p.req ↔ rsrc.head? ≠ some slash := by
  have hhead : (0x2f : Byte) = slash := rfl
  have hslash : ascii "/" = [slash] := rfl
  unfold request get
  simp only [hhead, hslash]
  by_cases h : rsrc.head? = some slash
  · rw [if_neg (not_not.mpr h)]
    refine iff_of_false (fun heq => ?_) (not_not.mpr h)
    have := congrArg List.length heq
    simp only [List.length_append, List.length_cons, List.length_nil] at this
    omega
  · rw [if_pos h]
    refine iff_of_true ?_ h
    simp only [List.append_assoc, List.cons_append, List.nil_append]

theorem authority_eq (u : Url) : u.authority = u.host ↔ u.port = none := by
  unfold Url.authority
  cases u.port with
  | none => simp
  | some d => simp

theorem sio_text_inj (p : ws_proto_t) (rsrc : List Byte) {a b : List Byte}
    (h : sio_text p a rsrc = sio_text p b rsrc) : a = b := by
  unfold sio_text at h
  exact List.append_cancel_left (List.append_cancel_right (List.append_cancel_right h))

theorem get_inj (target fields : List Byte) {a b : List Byte} (h : get target a fields = get target b fields) :
    a = b := by
  unfold get at h
  exact List.append_cancel_left (List.append_cancel_right (List.append_cancel_right h))

theorem rest_send_get (ws : ws_s) (url : List Byte) :
    (rest_send ws url).2 = if ws.p = .WS_PROTO_REST then some (get url ws.host rest_req) else none := by
  have hreq : rest_req = ascii "User-Agent: Mozilla/4.0\r\n\r\n" := by decide
  have hhost : ascii "HTTP/1.1\r\nHost: " = ascii "HTTP/1.1" ++ crlf ++ ascii "Host: " := by decide
  have hline : ascii " HTTP/1.1" = ascii " " ++ ascii "HTTP/1.1" := by decide
  have hcrlf : ascii "\r\n" = crlf := by decide
  unfold rest_send get
  by_cases hp : ws.p = .WS_PROTO_REST
  · rw [if_neg (not_not.mpr hp), if_pos hp, hreq, hhost, hline, hcrlf]
    simp only [List.append_assoc]
  · rw [if_pos hp, if_neg hp]

theorem later_spec (p : ws_proto_t) (host authority : List Byte) :
    (∀ evs url, ∀ t ∈ (rest_send (feed turn { ws_s.init p with host := host } evs).1 url).2,
      t = get url authority rest_req) ↔ (p = .WS_PROTO_REST → authority = host) := by
  simp only [rest_send_get, (turns_keeps _ _).1, (turns_keeps _ _).2]
  by_cases hp : p = .WS_PROTO_REST
  · subst hp
    constructor
    · intro h _
      exact (get_inj _ _ (h [] [] _ rfl)).symm
    · rintro h evs url t ⟨⟩
      rw [h rfl]
  · refine iff_of_true ?_ (fun h => absurd h hp)
    intro evs url t ht
    have hinit : (ws_s.init p).p = p := rfl
    simp only [hinit, if_neg hp] at ht
    cases ht

theorem sioi_sent (p : ws_proto_t) (host rsrc : List Byte) (gbuf : Mem Byte) (w : Stream) :
    (_sioi p host rsrc gbuf w).sent = sio_text p host rsrc := by
  have htext := (sio_request_spec p host rsrc gbuf).1
  unfold _sioi
  simp only [htext]
  split
  · rfl
  · split
    · rfl
    · split <;> rfl

theorem meant_session (u : Url) (rsrcs : List (List Byte)) :
    (∃ l : List (List Byte), sio_text u.scheme.p u.host u.rsrc :: rsrcs.map (request u.scheme.p u.authority) =
      sio_text u.scheme.p u.authority u.rsrc :: l.map (request u.scheme.p u.authority)) ↔ u.port = none := by
  rw [← authority_eq]
  constructor
  · rintro ⟨l, h⟩
    exact (sio_text_inj _ _ (List.cons.inj h).1).symm
  · intro h
    exact ⟨rsrcs, by rw [h]⟩

theorem meant_dial (o : Outside) (u : Url) (hconn : o.conn u.host u.portnum u.scheme.tls = true) :
    Meant u (dial o u).sent ↔ (u.scheme.p ≠ .WS_PROTO_REST → Restored u) := by
  have hsession : ∀ hp : u.scheme.p = .WS_PROTO_SIO1 ∨ u.scheme.p = .WS_PROTO_SIO3,
      ∃ rsrcs : List (List Byte), (dial o u).sent =
        sio_text u.scheme.p u.host u.rsrc :: rsrcs.map (request u.scheme.p u.authority) := by
    intro hp
    obtain ⟨rsrcs, hsent⟩ : ∃ rsrcs : List (List Byte), (dial o u).sent =
        (_sioi u.scheme.p u.host u.rsrc o.gbuf o.session).sent :: rsrcs.map (request u.scheme.p u.authority) := by
      unfold dial
      simp only [hconn, if_neg (show ¬ true = false by decide)]
      rcases hp with hp | hp
      all_goals
        simp only [hp]
        split
        · exact ⟨[], rfl⟩
        · exact ⟨[_], rfl⟩
    exact ⟨rsrcs, by rw [hsent, sioi_sent]⟩
  have hplain : ∀ hp : u.scheme.p = .WS_PROTO_RAW ∨ u.scheme.p = .WS_PROTO_WAMP,
      (dial o u).sent = [request u.scheme.p u.authority u.rsrc] := by
    intro hp
    unfold dial
    simp only [hconn, if_neg (show ¬ true = false by decide)]
    rcases hp with hp | hp <;> simp only [hp]
  have hmeant := meant_session u
  unfold Meant Restored
  cases hp : u.scheme.p with
  | WS_PROTO_REST =>
    simp [dial, hconn, hp]
  | WS_PROTO_RAW | WS_PROTO_WAMP =>
    rw [hplain (by simp [hp]), hp]
    simp [request_plain]
  | WS_PROTO_SIO1 | WS_PROTO_SIO3 =>
    obtain ⟨rsrcs, hsent⟩ := hsession (by simp [hp])
    rw [hp] at hmeant hsent
    simp only [hsent, hmeant]
    simp

theorem later_dial (o : Outside) (u : Url) (hconn : o.conn u.host u.portnum u.scheme.tls = true) :
    (∀ ws ∈ (dial o u).ws, ∀ evs url, ∀ t ∈ (rest_send (feed turn ws evs).1 url).2, t = get url u.authority rest_req) ↔
      (u.scheme.p = .WS_PROTO_REST → Restored u) := by
  have hother : ∀ p, p ≠ .WS_PROTO_REST → ∀ evs url, ∀ t ∈ (rest_send (feed turn (ws_s.init p) evs).1 url).2,
      t = get url u.authority rest_req := fun p hp =>
    (later_spec p (ws_s.init p).host u.authority).mpr fun h => absurd h hp
  unfold dial Restored
  simp only [hconn, if_neg (show ¬ true = false by decide)]
  cases hp : u.scheme.p with
  | WS_PROTO_REST =>
    have hlater := later_spec .WS_PROTO_REST u.host u.authority
    rw [authority_eq] at hlater
    simp only [Option.mem_def, Option.some.injEq, forall_eq'] at hlater ⊢
    exact hlater
  | WS_PROTO_RAW | WS_PROTO_WAMP =>
    refine iff_of_true ?_ (fun h => by cases h)
    intro ws hws
    simp only at hws
    split at hws
    · cases hws
    · cases hws
      exact hother _ (by decide)
  | WS_PROTO_SIO1 | WS_PROTO_SIO3 =>
    refine iff_of_true ?_ (fun h => by cases h)
    intro ws hws
    simp only at hws
    split at hws
    · cases hws
    · simp only at hws
      split at hws
      · cases hws
      · cases hws
        exact hother _ (by decide)

/-- **The host is named with its port** if and only if there is none, or the protocol puts it back. -/
theorem ws_open_serves (o : Outside) (u : Url) :
    Served o u (ws_open_url o u.text) ↔ (o.conn u.host u.portnum u.scheme.tls = true → Restored u) := by
  rw [ws_open_url_spec]
  have hopened : (dial o u).opened = some (u.host, u.portnum, u.scheme.tls) := by
    unfold dial
    simp only
    repeat' split
    all_goals rfl
  cases hconn : o.conn u.host u.portnum u.scheme.tls with
  | false =>
    refine iff_of_true ⟨hopened, ?_, ?_⟩ (fun h => by cases h)
    · rw [hconn]
      simp [dial, hconn]
    · intro ws hws
      simp [dial, hconn] at hws
  | true =>
    have hsent := meant_dial o u hconn
    have hlater := later_dial o u hconn
    constructor
    · rintro ⟨-, h, h'⟩ -
      rw [hconn, if_pos rfl, hsent] at h
      by_cases hp : u.scheme.p = .WS_PROTO_REST
      · exact hlater.mp h' hp
      · exact h hp
    · intro h
      refine ⟨hopened, ?_, hlater.mpr fun _ => h rfl⟩
      rw [hconn, if_pos rfl, hsent]
      exact fun _ => h rfl

def local_url : Url where
  scheme := .http
  host := ascii "localhost"
  port := some (ascii "8080")
  path := some (ascii "status")
  named := by decide
  plain := by decide
  digits := by simp only [Option.mem_def, Option.some.injEq, forall_eq']; decide
  whole := by simp only [Option.mem_def, Option.some.injEq, forall_eq']; decide

def twice_slashed : Url where
  scheme := .ws
  host := ascii "localhost"
  port := none
  path := some (ascii "/feed")
  named := by decide
  plain := by decide
  digits := by simp
  whole := by simp only [Option.mem_def, Option.some.injEq, forall_eq']; decide

/-- A server that takes every connection and says nothing. -/
def silent : Outside := ⟨fun _ _ _ => true, ⟨fun _ => 0, 4096, []⟩, ⟨[], []⟩, ⟨[], 0, 0⟩⟩

/-- Behind `http://` the port is missing in the line of the host, and of two slashes one is. -/
theorem port_missing :
    (∃ ws, (ws_open_url silent (ascii "http://localhost:8080/status")).ws = some ws ∧
      (rest_send ws (ascii "/a")).2 = some (get (ascii "/a") (ascii "localhost") rest_req)) ∧
    (ws_open_url silent (ascii "ws://localhost//feed")).sent = [get (ascii "/feed") (ascii "localhost") ws_req] ∧
      ¬ Served silent local_url (ws_open_url silent local_url.text) ∧
      ¬ Served silent twice_slashed (ws_open_url silent twice_slashed.text) := by
  have hrest : (ws_open_url silent local_url.text).ws =
      some { ws_s.init .WS_PROTO_REST with host := ascii "localhost" } := rfl
  have htext : local_url.text = ascii "http://localhost:8080/status" := by decide
  refine ⟨⟨_, htext ▸ hrest, by decide⟩, by decide +kernel, ?_, ?_⟩
  · intro h
    exact absurd (h.later _ hrest [] (ascii "/a") _ rfl) (by decide)
  · intro h
    have hsent : (ws_open_url silent twice_slashed.text).sent =
        [get (ascii "//feed") (ascii "localhost") ws_req] := h.sent
    exact absurd hsent (by decide +kernel)

end Coins.Ws
