import Coins.Fix.Parse
import Coins.Fix.Render
import Coins.Lib.Marks

/-!
# FIX sessions

The clients `okfix`, `btcc` and `derifix` take what one read brings for one message: `beef_cb` parses
the front of the buffer and acts on the type it finds there. A logon makes the client subscribe, a
logout may suspend it, and nothing else changes the session.
-/

open Coins.Memory Coins.Numeral Coins.Transducer Coins.Xmemmem Coins.Search Coins.Marks

namespace Coins.Fix

/-- `okum_state_t` and `btcc_state_t`. -/
inductive State
  | UNK | ON | SUB | OFF
deriving DecidableEq

/-- The static variables of a client that `beef_cb` changes. -/
structure Sess where
  st : State
  susp : Nat
deriving DecidableEq

inductive Out
  | sent (msg : fix_msg_t)
  | notice (text : List Byte)
  | unloop

/-- One call of `tls_recv`: the bytes it brings, and the buffer before it. -/
structure Read where
  mem : Mem Byte
  rd : List Byte

/-! ## The clients -/

def soh_fields (l : List String) : List Byte := l.flatMap fun s => ascii s ++ [SOH]

/-- What a client does in its own way: the requests after a logon, the state after them, and whether
heartbeats are muted. -/
structure Client where
  requests : List fix_msg_t
  after : State
  mutes : Bool

/-- A request with the symbol over the `55=BTC/USD` at its end. -/
def request (tmpl sym : List Byte) : fix_msg_t :=
  ⟨chr 'V', tmpl.take (tmpl.length - 8) ++ sym ++ [SOH]⟩

namespace okfix

def MREQ : List Byte :=
  soh_fields ["262=mreq", "263=1", "264=0", "265=1", "267=2", "269=0", "269=1", "146=1",
    "55=BTC/USD"]

def TREQ : List Byte :=
  soh_fields ["262=treq", "263=1", "264=0", "265=1", "267=1", "269=2", "146=1", "55=BTC/USD"]

def fix_subsc (sym : List Byte) : List fix_msg_t := [request MREQ sym, request TREQ sym]

def client (instr : List (List Byte)) : Client where
  requests := instr.flatMap fix_subsc
  after := if instr = [] then .ON else .SUB
  mutes := false

end okfix

namespace derifix

def MREQ : List Byte :=
  soh_fields ["262=mreq", "263=1", "264=0", "265=1", "267=3", "269=0", "269=1", "146=1",
    "55=BTC/USD"]

def fix_subsc (sym : List Byte) : List fix_msg_t := [request MREQ sym]

def client (instr : List (List Byte)) : Client where
  requests := instr.flatMap fix_subsc
  after := if instr = [] then .ON else .SUB
  mutes := false

end derifix

namespace btcc

def mreq : List Byte :=
  soh_fields ["262=mreq", "263=1", "264=100", "265=1", "267=3", "269=0", "269=1", "269=2", "146=1",
    "55=XBTCNY"]

def fix_subsc (logfile : List Byte) : List fix_msg_t :=
  [⟨chr 'V', mreq.take (mreq.length - 7) ++ logfile ++ mreq.drop (mreq.length - 7 + logfile.length)⟩]

def client (logfile : List Byte) : Client where
  requests := fix_subsc logfile
  after := .SUB
  mutes := true

end btcc

/-- The programs, with their command lines. -/
inductive Program
  | okfix (instr : List (List Byte))
  | derifix (instr : List (List Byte))
  | btcc (logfile : List Byte)

def Program.client : Program → Client
  | .okfix instr => okfix.client instr
  | .derifix instr => derifix.client instr
  | .btcc logfile => btcc.client logfile

/-! ## The callback -/

/-- The switch over the message type. -/
def react (c : Client) (s : Sess) (m : Mem Byte) (p : Parsed) : Sess × List Out :=
  if p.typ = chr 'W' ∨ p.typ = chr 'X' then
    (s, if s.st = .SUB then []
      else [.notice (ascii "Warning: quote message received while nothing's been subscribed")])
  else if p.typ = chr 'A' then
    ({ s with st := c.after },
      (if s.st = .ON ∨ s.st = .SUB then
        [.notice (ascii "Warning: logon message received while logged on already")] else []) ++
      c.requests.map .sent)
  else if p.typ = chr '5' then
    let off := Out.notice (ascii "Notice: clocking off")
    if fix_weekend_p m p then
      (⟨.OFF, 60⟩, [off, .notice (ascii "Notice: sleeping till full hour")])
    else (⟨.OFF, 0⟩, [off])
  else if p.typ = chr '0' ∧ c.mutes = true then (s, [])
  else if p.typ = 0 then (s, [.notice (ascii "Warning: message buggered")])
  else (s, [.notice (ascii "Warning: unsupported message " ++ [p.typ])])

/-- Nothing comes when the connection is reset. -/
def beef_cb (c : Client) (s : Sess) : Option Read → Sess × List Out
  | none => ({ s with st := .UNK }, [.unloop])
  | some r =>
    let (m, p) := fix_parse (r.mem.store 0 r.rd) 0 r.rd.length
    react c s m p

def sent : List Out → List fix_msg_t :=
  List.filterMap fun
    | .sent msg => some msg
    | _ => none

/-- The session after some reads, and the requests it has sent. -/
def run (c : Client) (s : Sess) (reads : List Read) : Sess × List fix_msg_t :=
  let r := feed (beef_cb c) s (reads.map some)
  (r.1, sent r.2)

/-! ## What a read says -/

/-- What changes a session. -/
inductive Control
  | logon
  | logout (weekend : Bool)

def obey (c : Client) (s : Sess) : Control → Sess × List fix_msg_t
  | .logon => ({ s with st := c.after }, c.requests)
  | .logout weekend => (⟨.OFF, if weekend then 60 else 0⟩, [])

def control (r : Read) : Option Control :=
  let (m, p) := fix_parse (r.mem.store 0 r.rd) 0 r.rd.length
  if p.typ = chr 'A' then some .logon
  else if p.typ = chr '5' then some (.logout (fix_weekend_p m p))
  else none

theorem sent_map (l : List fix_msg_t) : sent (l.map .sent) = l := by
  induction l with
  | nil => rfl
  | cons a as ih => exact congrArg (a :: ·) ih

theorem sent_append (a b : List Out) : sent (a ++ b) = sent a ++ sent b := List.filterMap_append

theorem beef_cb_control (c : Client) (s : Sess) (r : Read) :
    ((beef_cb c s (some r)).1, sent (beef_cb c s (some r)).2) =
      ((control r).map (obey c s)).getD (s, []) := by
  unfold beef_cb control
  simp only
  generalize fix_parse (r.mem.store 0 r.rd) 0 r.rd.length = q
  obtain ⟨m, p⟩ := q
  unfold react
  simp only
  by_cases hA : p.typ = chr 'A'
  · rw [if_neg (by rw [hA]; decide), if_pos hA, if_pos hA]
    have hnote : sent (if s.st = .ON ∨ s.st = .SUB then
        [.notice (ascii "Warning: logon message received while logged on already")] else []) = [] := by
      split <;> rfl
    simp only [Option.map_some, Option.getD_some, obey]
    rw [sent_append, hnote, sent_map, List.nil_append]
  · rw [if_neg hA]
    by_cases h5 : p.typ = chr '5'
    · rw [if_neg (by rw [h5]; decide), if_neg hA, if_pos h5, if_pos h5]
      cases fix_weekend_p m p <;> rfl
    · rw [if_neg h5]
      split
      · split <;> rfl
      · split
        · rfl
        · split <;> rfl

theorem run_control (c : Client) (s : Sess) (reads : List Read) :
    run c s reads = feed (obey c) s (reads.filterMap control) := by
  induction reads generalizing s with
  | nil => rfl
  | cons r rs ih =>
    have h := beef_cb_control c s r
    have hrun : run c s (r :: rs) = ((run c (beef_cb c s (some r)).1 rs).1,
        sent (beef_cb c s (some r)).2 ++ (run c (beef_cb c s (some r)).1 rs).2) := by
      unfold run
      simp only [List.map_cons, feed_cons, sent_append]
    rw [hrun, ih, List.filterMap_cons]
    cases hr : control r with
    | none =>
      rw [hr] at h
      simp only [Option.map_none, Option.getD_none, Prod.mk.injEq] at h
      rw [h.1, h.2]
      rfl
    | some e =>
      rw [hr] at h
      simp only [Option.map_some, Option.getD_some] at h
      simp only
      rw [feed_cons, ← h]

/-! ## Messages and cuts -/

/-- A complete message. The record of a read that holds it, with its stamp, fits the log buffer. -/
structure Message where
  size : List Byte
  typ : List Byte
  rest : List Byte
  sized : Sized size (ascii "35=" ++ typ ++ [SOH] ++ rest)
  typed : typ ≠ [] ∧ SOH ∉ typ
  short : (frame size (ascii "35=" ++ typ ++ [SOH] ++ rest)).length ≤ 16384 - 22

namespace Message

variable (m : Message)

def bytes : List Byte := frame m.size (ascii "35=" ++ m.typ ++ [SOH] ++ m.rest)

/-- The message up to the end of its type. -/
def front : List Byte := Fix.front m.size m.typ

/-- A logon or a logout. -/
def Control : Prop :=
  m.size.length ≤ 5 ∧ (m.typ.head? = some (chr 'A') ∨ m.typ.head? = some (chr '5'))

instance : Decidable m.Control := by
  unfold Control
  infer_instance

/-- Whether the reason for a break stands behind the type, when the message begins `l`. -/
def weekend (l : List Byte) : Bool :=
  (find rsn ((l.drop (view_start m.size m.typ)).map nul)).isSome

end Message

/-- The read begins with the message and has its type in it. It has the reason for a break in it if
the message has. -/
def Opens (m : Message) (r : Read) : Prop :=
  m.front <+: r.rd ∧ (m.typ.head? = some (chr '5') → m.weekend r.rd = m.weekend m.bytes)

instance (m : Message) (r : Read) : Decidable (Opens m r) := by
  unfold Opens
  infer_instance

/-- The reads that cut some messages well. A logon or logout is at the front of a read. What looks
like a message at the front of a read is one. -/
structure Cut (msgs : List Message) (reads : List Read) : Prop where
  same : reads.flatMap Read.rd = msgs.flatMap Message.bytes
  sizes : ∀ r ∈ reads, r.rd ≠ [] ∧ r.rd.length ≤ 16384 - 22
  control : ∀ before m after, msgs = before ++ m :: after → m.Control →
    ∃ rs r rs', reads = rs ++ r :: rs' ∧
      (before.flatMap Message.bytes).length = (rs.flatMap Read.rd).length ∧ Opens m r
  header : ∀ rs r rs', reads = rs ++ r :: rs' → fhdr9 <+: r.rd →
    ∃ before m after, msgs = before ++ m :: after ∧
      (rs.flatMap Read.rd).length = (before.flatMap Message.bytes).length ∧ Opens m r

/-- What a message says. -/
def Message.control (m : Message) : Option Fix.Control :=
  if 5 < m.size.length then none
  else if m.typ.head? = some (chr 'A') then some .logon
  else if m.typ.head? = some (chr '5') then some (.logout (m.weekend m.bytes))
  else none

theorem Message.bytes_front (m : Message) : m.front <+: m.bytes := by
  refine ⟨m.rest ++ ascii "10=" ++
    fixed 3 (checksum (opening m.size (ascii "35=" ++ m.typ ++ [SOH] ++ m.rest))) ++ [SOH], ?_⟩
  unfold Message.front Fix.front front_of Message.bytes frame opening fhdr9_of
  simp

theorem Message.opens (m : Message) (r : Read) (h : r.rd = m.bytes) : Opens m r := by
  rw [Opens, h]
  exact ⟨m.bytes_front, fun _ => rfl⟩

theorem control_none (r : Read) (h : ¬ fhdr9 <+: r.rd) : control r = none := by
  have hbug := fix_parse_none (r.mem.store 0 r.rd) 0 r.rd (Mem.view_store _ _ _) h
  unfold control
  simp only
  rw [hbug]
  rfl

theorem control_opens (m : Message) (r : Read) (h : Opens m r) (hlen : r.rd.length < 2 ^ 56) :
    control r = m.control := by
  obtain ⟨⟨rest, hrest⟩, hweekend⟩ := h
  have hview := Mem.view_store r.mem 0 r.rd
  have hsoh := SOH_not_mem _ m.sized.2.1
  obtain ⟨t, ts, htyp⟩ := List.exists_cons_of_ne_nil m.typed.1
  unfold control Message.control
  generalize r.mem.store 0 r.rd = m0 at hview ⊢
  unfold Message.front at hrest
  rw [← hrest] at hview hlen hweekend ⊢
  by_cases h5 : 5 < m.size.length
  · have hlong := fix_parse_long m0 0 m.size m.typ rest hsoh h5 hview
    rw [if_pos h5]
    simp only [hlong]
    rfl
  · have htsoh := m.typed.2
    rw [htyp] at hview hlen hweekend htsoh ⊢
    obtain ⟨m', hparse, hmsg⟩ := fix_parse_front m0 0 m.size ts rest t m.sized.1 hsoh
      (fun h => htsoh (List.mem_cons_of_mem _ h)) (by omega)
      hlen hview
    have hreason : fix_weekend_p m' (fix_parse m0 0 (Fix.front m.size (t :: ts) ++ rest).length).2 =
        m.weekend (Fix.front m.size (t :: ts) ++ rest) := by
      unfold fix_weekend_p Message.weekend
      rw [hparse, hmsg, xmemmem_spec, htyp]
    rw [hparse] at hreason
    simp only [hparse, if_neg h5, List.head?_cons, Option.some.injEq, hreason] at hweekend ⊢
    split
    · rfl
    · split
      · rename_i ht
        rw [hweekend ht]
      · rfl

/-! ## Runs -/

theorem Message.bytes_ne (m : Message) : m.bytes ≠ [] := by
  unfold Message.bytes frame
  simp

theorem Message.control_some (m : Message) {e : Fix.Control} (h : m.control = some e) :
    m.Control := by
  unfold Message.control at h
  unfold Message.Control
  split at h
  · cases h
  · rename_i h5
    refine ⟨by omega, ?_⟩
    split at h
    · exact Or.inl ‹_›
    · split at h
      · exact Or.inr ‹_›
      · cases h

theorem control_own (msgs : List Message) (own : List Read)
    (hown : own.map Read.rd = msgs.map Message.bytes) :
    own.filterMap control = msgs.filterMap Message.control := by
  induction msgs generalizing own with
  | nil =>
    obtain rfl : own = [] := by simpa using hown
    rfl
  | cons m ms ih =>
    obtain ⟨r, rs, rfl, hr, hrs⟩ := List.map_eq_cons_iff.mp hown
    have hlen : r.rd.length < 2 ^ 56 := by
      have := m.short
      rw [hr, Message.bytes]
      omega
    rw [List.filterMap_cons, List.filterMap_cons, control_opens m r (m.opens r hr) hlen, ih rs hrs]

theorem control_cut (msgs : List Message) (reads : List Read) (hcut : Cut msgs reads) :
    reads.filterMap control = msgs.filterMap Message.control := by
  have hlen : ∀ r ∈ reads, r.rd.length < 2 ^ 56 := by
    intro r hr
    have := (hcut.sizes r hr).2
    omega
  apply filterMap_eq (fun r hr => (hcut.sizes r hr).1) fun m _ => m.bytes_ne
  intro j e
  rw [mem_marks, mem_marks]
  constructor
  · rintro ⟨rs, r, rs', rfl, hj, he⟩
    have hhead : fhdr9 <+: r.rd := by
      by_contra hno
      rw [control_none r hno] at he
      cases he
    obtain ⟨before, m, after, hmsgs, hplace, hopens⟩ := hcut.header rs r rs' rfl hhead
    refine ⟨before, m, after, hmsgs, by rw [hj, hplace], ?_⟩
    rw [← control_opens m r hopens (hlen r (by simp)), he]
  · rintro ⟨before, m, after, rfl, hj, he⟩
    obtain ⟨rs, r, rs', hreads, hplace, hopens⟩ := hcut.control before m after rfl (m.control_some he)
    refine ⟨rs, r, rs', hreads, by rw [hj, hplace], ?_⟩
    rw [control_opens m r hopens (hlen r (by simp [hreads])), he]

/-- A good cut makes no difference. -/
theorem beef_cb_segmentation (p : Program) (s : Sess) (msgs : List Message) (reads own : List Read)
    (hcut : Cut msgs reads) (hown : own.map Read.rd = msgs.map Message.bytes) :
    run p.client s reads = run p.client s own := by
  rw [run_control, run_control, control_cut msgs reads hcut, control_own msgs own hown]

def logon : Message :=
  ⟨ascii "10", ascii "A", soh_fields ["34=1"], by decide, by decide, by decide⟩

def quote : Message :=
  ⟨ascii "21", ascii "W", soh_fields ["34=2", "55=BTC/USD"], by decide, by decide, by decide⟩

def logout : Message :=
  ⟨ascii "10", ascii "5", soh_fields ["34=3"], by decide, by decide, by decide⟩

def got (rd : List Byte) : Read := ⟨⟨fun _ => 0, 16384, []⟩, rd⟩

/-- A logon with the front of a quote behind it. -/
theorem beef_cb_segmentation_quote :
    (run (Program.okfix [ascii "BTC/EUR"]).client ⟨.UNK, 0⟩
      [got (logon.bytes ++ quote.bytes.take 8), got (quote.bytes.drop 8)]).1 = ⟨.SUB, 0⟩ := by
  have hcut : Cut [logon, quote] [got (logon.bytes ++ quote.bytes.take 8),
      got (quote.bytes.drop 8)] := by
    refine ⟨by decide +kernel, by decide +kernel, ?_, ?_⟩
    · rintro (_ | ⟨a, _ | ⟨b, before⟩⟩) m after h hm
      · obtain ⟨rfl, rfl⟩ := List.cons.inj h
        exact ⟨[], _, _, rfl, rfl, by decide +kernel⟩
      · obtain ⟨-, h⟩ := List.cons.inj h
        obtain ⟨rfl, rfl⟩ := List.cons.inj h
        exact absurd hm (by decide)
      · simp at h
    · rintro (_ | ⟨a, _ | ⟨b, before⟩⟩) r after h hr
      · obtain ⟨rfl, rfl⟩ := List.cons.inj h
        exact ⟨[], _, _, rfl, rfl, by decide +kernel⟩
      · obtain ⟨-, h⟩ := List.cons.inj h
        obtain ⟨rfl, rfl⟩ := List.cons.inj h
        exact absurd hr (by decide +kernel)
      · simp at h
  rw [beef_cb_segmentation _ _ _ _ [got logon.bytes, got quote.bytes] hcut rfl]
  decide +kernel

/-- A logout behind a logon, in one read, goes by unseen. -/
theorem second_message_lost :
    let reads := [got (logon.bytes ++ logout.bytes)]
    let own := [got logon.bytes, got logout.bytes]
    reads.flatMap Read.rd = own.flatMap Read.rd ∧
      ∀ p ∈ [Program.okfix [ascii "BTC/EUR"], .derifix [ascii "BTC/EUR"], .btcc (ascii "BTCCNY")],
        (run p.client ⟨.UNK, 0⟩ reads).1 = ⟨.SUB, 0⟩ ∧
          (run p.client ⟨.UNK, 0⟩ own).1 = ⟨.OFF, 0⟩ := by
  decide +kernel

end Coins.Fix
