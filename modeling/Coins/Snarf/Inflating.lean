import Coins.Snarf.Inflate
import Coins.Tinf.Images

/-!
# Compressed feeds, inflated

The messages are deflate streams, and `tinf_uncompress` inflates them into the buffer of the context, which grows to
ten times what the session buffer holds. What does not fit is lost.
-/

open Coins.Decoder Coins.Lines Coins.Memory Coins.Numeral Coins.Tinf Coins.Transducer Coins.Ws

namespace Coins.Snarf

/-- A text line that may end in a line break, and one stream which stands for it. -/
structure Deflated where
  line : List Byte
  ended : Bool
  image : List Byte
  line_ne : line ≠ []
  line_nl : nl ∉ line
  stands : Image image (line ++ brk ended)

def Deflated.text (m : Deflated) : List Byte := m.line ++ brk m.ended

/-- `rc < 0` is `none`. -/
def result : Outcome tinf_error_code (List Byte) → Option (List Byte)
  | .ok out => some out
  | _ => none

/-- `ctx->sbuf[4U].z` when `xn` bytes are in the session buffer. -/
def infz (z xn : Nat) : Nat := if z < 10 * xn then 10 * xn else z

/-- The room for what a call inflates. -/
def inflate_room (q : Slot × Nat) (e : Input) : Nat := infz q.2 (q.1.n + (appended q.1 e).length)

/-- What a call makes of what `tinf_uncompress` returns. -/
def inflated (q : Slot × Nat) (e : Input) : Input :=
  { e with inflated := result (tinf_uncompress (handed q.1 e) (inflate_room q e)) }

/-- A call that gets to `log`: the socket and the size of the buffer of the context. -/
def inflating_cb (q : Slot × Nat) (e : Input) : (Slot × Nat) × List Out :=
  let r := ws_cb massage q.1 (inflated q e)
  ((r.1, inflate_room q e), r.2)

/-- The call receives something in a state in which lines are logged. -/
structure Gets (s : Slot) (e : Input) : Prop where
  logs : Logs s e
  got : ∃ ws, s.ws = some ws ∧ ∃ k : Nat, (recvd s e ws).ret = some (k : Int)
  ten : e.tsp.Ten

/-- The call delivers a whole message and nothing else, or no more than the line break of the last one. There
is a line break in front, or nothing is pending. -/
def Brings (q : Slot × Nat) (c : Input × Option Deflated) : Prop :=
  Gets q.1 c.1 ∧
    match c.2 with
    | some m => m.text.length ≤ inflate_room q c.1 ∧ ∃ lead, appended q.1 c.1 = brk lead ++ m.image ++ [nl] ∧
      (lead = true ∨ pending q.1 = [] ∧ m.image.head? ≠ some nl)
    | none => appended q.1 c.1 = [nl] ∧ pending q.1 = []

/-! ## Against the inflater that is assumed -/

/-- Into a buffer of one size. -/
def uncompress (R : Nat) (src : List Byte) : Option (List Byte) := result (tinf_uncompress src R)

theorem uncompress_nil (R : Nat) : uncompress R [] = none := by
  unfold uncompress
  cases h : tinf_uncompress [] R with
  | ok out =>
    obtain ⟨⟨rest, hs⟩, -⟩ := (uncompress_ok_iff [] R out).mp h
    rcases hs with ⟨hn, -⟩ | ⟨hn, -⟩
    · have := hn.length
      simp only [Bits.ofBytes_nil, List.length_nil] at this
      omega
    · have := hn.length
      simp only [Bits.ofBytes_nil, List.length_nil] at this
      omega
  | fail e => rfl
  | crash => rfl

/-- A message that fits is one of those that inflate. -/
def Deflated.message (m : Deflated) (R : Nat) (h : m.text.length ≤ R) : Message (uncompress R) where
  line := m.line
  ended := m.ended
  image := m.image
  line_ne := m.line_ne
  line_nl := m.line_nl
  whole rest := by
    unfold uncompress
    rw [m.stands.whole rest R h]
    rfl
  part p hp hne := by
    unfold uncompress
    cases hu : tinf_uncompress p R with
    | ok out => exact absurd hu (m.stands.part hp hne R out)
    | fail e => rfl
    | crash => rfl

theorem handed_image {s : Slot} {e : Input} {image : List Byte} {lead : Bool} (hne : image ≠ [])
    (happ : appended s e = brk lead ++ image ++ [nl]) (hlead : lead = true ∨ image.head? ≠ some nl) :
    handed s e = image ++ [nl] := by
  unfold handed
  rw [happ, List.append_assoc]
  cases lead with
  | true => rfl
  | false =>
    change (image ++ [nl]).drop (if (image ++ [nl]).head? = some nl then 1 else 0) = image ++ [nl]
    rw [List.head?_append_of_ne_nil _ hne, if_neg (hlead.resolve_left Bool.false_ne_true)]
    rfl

theorem image_ne (m : Deflated) : m.image ≠ [] := by
  intro h
  have hnone := uncompress_nil m.text.length
  have hwhole := (m.message m.text.length (le_refl _)).whole []
  rw [List.append_nil, show (m.message m.text.length (le_refl _)).image = [] from h, hnone] at hwhole
  cases hwhole

theorem handed_none {s : Slot} {e : Input} (happ : appended s e = [nl]) : handed s e = [] := by
  unfold handed
  rw [happ]
  rfl

theorem brings_delivers {q : Slot × Nat} {c : Input × Option Deflated} (R : Nat) (h : Brings q c)
    (hR : ∀ m ∈ c.2, m.text.length ≤ R) :
    ∃ o : Option (Message (uncompress R)), Delivers (uncompress R) q.1 (inflated q c.1, o) ∧
      o.map (fun m => (m.line, m.ended)) = c.2.map fun m => (m.line, m.ended) := by
  obtain ⟨e, o⟩ := c
  obtain ⟨⟨hlogs, hgot, hten⟩, hbrings⟩ := h
  cases o with
  | none =>
    obtain ⟨happ, hpend⟩ := hbrings
    refine ⟨none, ⟨⟨hlogs, hgot, hten, ?_⟩, happ, hpend⟩, rfl⟩
    change uncompress (inflate_room q e) (handed q.1 e) = uncompress R (handed q.1 e)
    rw [handed_none happ, uncompress_nil, uncompress_nil]
  | some m =>
    obtain ⟨hfit, lead, happ, hlead⟩ := hbrings
    have hbound := hR m rfl
    refine ⟨some (m.message R hbound), ⟨⟨hlogs, hgot, hten, ?_⟩, lead, happ, hlead⟩, rfl⟩
    change uncompress (inflate_room q e) (handed q.1 e) = uncompress R (handed q.1 e)
    rw [handed_image (image_ne m) happ (hlead.imp id And.right)]
    exact ((m.message (inflate_room q e) hfit).whole [nl]).trans ((m.message R hbound).whole [nl]).symm

/-! ## One call -/

theorem weird_empties {s : Slot} {e : Input} {l : List Byte} (hs : Kept s l) (hg : Gets s e)
    (hnone : e.inflated = none) :
    Kept (ws_cb massage s e).1 [] ∧ logged (ws_cb massage s e).2 = [] := by
  obtain ⟨ws, hws, k, hret⟩ := hg.got
  obtain ⟨ws', hws', hgood⟩ := hs.ws
  obtain rfl : ws = ws' := Option.some.inj (hws ▸ hws')
  obtain ⟨-, -, hgood', hsize⟩ := recvd_view s e ws l k hs.fill hs.sized hs.view hws hgood hret
  have hcb := ws_cb_logs massage s e ws k hws hg.logs hret
  simp only [log_him, hs.inflate, if_true, hnone, inflate_in_place, Option.map_none] at hcb
  rw [hcb]
  refine ⟨⟨⟨(recvd s e ws).ws, rfl, hgood'⟩, rfl, ?_, rfl, rfl⟩, ?_⟩
  · refine Or.inr ⟨hsize, ?_⟩
    change INI_GBOF ≤ (recvd s e ws).mem.size
    unfold INI_GBOF
    omega
  · rw [List.append_nil, logged_sent]

/-- **What one message does**: if its text fits it completes what is pending; if not it is lost, and what was pending
with it. -/
theorem deflated_call (q : Slot × Nat) (e : Input) (l : List Byte) (m : Deflated) (lead : Bool) (hs : Kept q.1 l)
    (hg : Gets q.1 e) (happ : appended q.1 e = brk lead ++ m.image ++ [nl])
    (hlead : lead = true ∨ m.image.head? ≠ some nl) :
    let r := inflating_cb q e
    let t := l ++ brk lead ++ m.text
    (m.text.length ≤ inflate_room q e →
      Kept r.1.1 (rest nl t) ∧ logged r.2 = (lines nl t).map (record e.tsp)) ∧
    (inflate_room q e < m.text.length → Kept r.1.1 [] ∧ logged r.2 = []) := by
  have hhanded := handed_image (image_ne m) happ hlead
  refine ⟨fun hfit => ?_, fun hfull => ?_⟩
  · have hfed : Fed (uncompress (inflate_room q e)) q.1 (inflated q e) := ⟨hg.logs, hg.got, hg.ten, rfl⟩
    exact message_kept q.1 (inflated q e) l lead (m.message _ hfit) (uncompress_nil _) hs hfed happ hlead
  · have hnone : (inflated q e).inflated = none := by
      change result (tinf_uncompress (handed q.1 e) (inflate_room q e)) = none
      rw [hhanded, m.stands.full [nl] _ hfull]
      rfl
    exact weird_empties hs ⟨hg.logs, hg.got, hg.ten⟩ hnone

/-! ## Runs -/

theorem brings_run (R : Nat) (q : Slot × Nat) (calls : List (Input × Option Deflated))
    (hcalls : Each (fun q c => inflating_cb q c.1) Brings q calls) (hR : ∀ c ∈ calls, ∀ m ∈ c.2, m.text.length ≤ R) :
    ∃ calls' : List (Input × Option (Message (uncompress R))),
      Each (fun s c => ws_cb massage s c.1) (Delivers (uncompress R)) q.1 calls' ∧
      (feed inflating_cb q (calls.map Prod.fst)).1.1 = (feed (ws_cb massage) q.1 (calls'.map Prod.fst)).1 ∧
      (feed inflating_cb q (calls.map Prod.fst)).2 = (feed (ws_cb massage) q.1 (calls'.map Prod.fst)).2 ∧
      calls'.map (·.1.tsp) = calls.map (·.1.tsp) ∧
      calls'.map (·.2.map fun m => (m.line, m.ended)) = calls.map (·.2.map fun m => (m.line, m.ended)) := by
  induction calls generalizing q with
  | nil => exact ⟨[], trivial, rfl, rfl, rfl, rfl⟩
  | cons c calls ih =>
    obtain ⟨hc, hrest⟩ := hcalls
    obtain ⟨o, hdelivers, ho⟩ := brings_delivers R hc (hR c List.mem_cons_self)
    obtain ⟨calls', heach, hstate, hout, htimes, hsame⟩ :=
      ih (inflating_cb q c.1).1 hrest fun c' hc' => hR c' (List.mem_cons_of_mem c hc')
    refine ⟨(inflated q c.1, o) :: calls', ⟨hdelivers, heach⟩, ?_, ?_, ?_, ?_⟩
    · rw [List.map_cons, List.map_cons, feed_cons, feed_cons]
      exact hstate
    · rw [List.map_cons, List.map_cons, feed_cons, feed_cons]
      exact congrArg (_ ++ ·) hout
    · rw [List.map_cons, List.map_cons, htimes]
      rfl
    · rw [List.map_cons, List.map_cons, ho, hsame]

theorem sized_bound (calls : List (Input × Option Deflated)) :
    ∃ R, ∀ c ∈ calls, ∀ m ∈ c.2, m.text.length ≤ R := by
  induction calls with
  | nil => exact ⟨0, nofun⟩
  | cons c calls ih =>
    obtain ⟨R, hR⟩ := ih
    refine ⟨(c.2.elim 0 fun m => m.text.length) + R, fun c' hc' m hm => ?_⟩
    rcases List.mem_cons.mp hc' with rfl | h
    · rw [Option.mem_def.mp hm]
      exact Nat.le_add_right _ _
    · exact (hR c' h m hm).trans (Nat.le_add_left _ _)

/-- **Deflated messages are logged**, each once and in order, as long as they fit: what ends in a line break at
once, the others with the next message. -/
theorem deflated_logged (q : Slot × Nat) (calls : List (Input × Option Deflated)) (hs : Begins q.1)
    (hcalls : Each (fun q c => inflating_cb q c.1) Brings q calls) :
    let r := feed inflating_cb q (calls.map Prod.fst)
    (∃ ls, List.Forall₂ (fun line out => ∃ e ∈ calls.map Prod.fst, out = record e.tsp line) ls (logged r.2) ∧
      (ls ++ [pending r.1.1]).filter (· ≠ []) = calls.filterMap fun c => c.2.map Deflated.line) ∧
      ((∀ c ∈ calls, ∀ m ∈ c.2, m.ended = true) → pending r.1.1 = []) := by
  obtain ⟨R, hR⟩ := sized_bound calls
  obtain ⟨calls', heach, hstate, hout, htimes, hsame⟩ := brings_run R q calls hcalls hR
  have hkept : Kept q.1 [] := ⟨hs.ws, hs.inflate, by rw [hs.n]; exact sized_ini q.1.mem hs.size, hs.n, rfl⟩
  obtain ⟨ls, l', hkept', hlogged, hshown, hended⟩ :=
    messages_kept (uncompress_nil R) calls' q.1 [] hkept (by simp) heach
  intro r
  have hpend : pending r.1.1 = l' := by
    rw [hstate]
    exact hkept'.pending
  rw [hpend, hout]
  refine ⟨⟨ls, hlogged.imp ?_, ?_⟩, fun hall => hended rfl ?_⟩
  · rintro line out ⟨e', he', rfl⟩
    obtain ⟨c', hc', rfl⟩ := List.mem_map.mp he'
    have hmem : c'.1.tsp ∈ calls.map (·.1.tsp) := htimes ▸ List.mem_map_of_mem hc'
    obtain ⟨c, hc, htsp⟩ := List.mem_map.mp hmem
    exact ⟨c.1, List.mem_map_of_mem hc, by rw [htsp]⟩
  · refine hshown.trans ?_
    have htexts := congrArg (List.filterMap (Option.map Prod.fst)) hsame
    simp only [List.filterMap_map, Function.comp_def, Option.map_map] at htexts
    exact htexts
  · intro c' hc' m hm
    have hmem : c'.2.map (fun m => (m.line, m.ended)) ∈ calls.map (·.2.map fun m => (m.line, m.ended)) :=
      hsame ▸ List.mem_map_of_mem hc'
    obtain ⟨c, hc, heq⟩ := List.mem_map.mp hmem
    rw [Option.mem_def.mp hm] at heq
    obtain ⟨m', hm', hpair⟩ := Option.map_eq_some_iff.mp heq
    exact (Prod.mk.inj hpair).2.symm.trans (hall c hc m' hm')

/-! ## A feed -/

/-- A text in a stored block. -/
def storedText (line : List Byte) (ended : Bool) (hne : line ≠ []) (hnl : nl ∉ line)
    (hlen : (line ++ brk ended).length < 65536) : Deflated where
  line := line
  ended := ended
  image := 1 :: (le16 (line ++ brk ended).length ++ le16 (65535 - (line ++ brk ended).length) ++ (line ++ brk ended))
  line_ne := hne
  line_nl := hnl
  stands := stored_image _ hlen

theorem tick_fine : ascii "BTCUSD 990.1" ≠ [] ∧ nl ∉ ascii "BTCUSD 990.1" ∧
    (ascii "BTCUSD 990.1" ++ brk true).length < 65536 := by decide

def tick : Deflated := storedText (ascii "BTCUSD 990.1") true tick_fine.1 tick_fine.2.1 tick_fine.2.2

theorem deflated_logged_tick :
    (∃ ls, List.Forall₂ (fun line out => ∃ e ∈ [whole bid], out = record e.tsp line) ls
        (logged (feed inflating_cb (compressed, 0) [whole bid]).2) ∧
      (ls ++ [pending (feed inflating_cb (compressed, 0) [whole bid]).1.1]).filter (· ≠ []) = [tick.line]) := by
  refine (deflated_logged (compressed, 0) [(whole bid, some tick)] ⟨⟨_, rfl, good_init _⟩, rfl, rfl, Or.inl rfl⟩
    ⟨⟨⟨?_, ?_, noon_ten⟩, ?_, ?_⟩, trivial⟩).1
  · exact logs_told _ _ (Or.inl rfl)
  · exact ⟨_, rfl, 19, by decide +kernel⟩
  · decide +kernel
  · exact ⟨false, by decide +kernel, Or.inr ⟨rfl, by decide +kernel⟩⟩

theorem deflated_call_tick :
    let r := inflating_cb (compressed, 0) (whole bid)
    Kept r.1.1 (rest nl tick.text) ∧ logged r.2 = (lines nl tick.text).map (record noon) := by
  have hs : Kept compressed [] := ⟨⟨_, rfl, good_init _⟩, rfl, sized_ini _ (Or.inl rfl), rfl, rfl⟩
  refine (deflated_call (compressed, 0) (whole bid) [] tick false hs ⟨logs_told _ _ (Or.inl rfl), ⟨_, rfl, 19, ?_⟩,
    noon_ten⟩ ?_ (Or.inr ?_)).1 ?_
  · decide +kernel
  · decide +kernel
  · decide +kernel
  · decide +kernel

end Coins.Snarf
