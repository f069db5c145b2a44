import Coins.Quotes.Btcc2b
import Coins.Quotes.Ok2b

/-!
# Coalesced messages

The loggers print what one read returns on one line. The converters take such a line for one message,
which has the type of the first and the fields of all of them.
-/

open Coins.Fix Coins.Lines Coins.Memory Coins.Numeral Coins.Pieces

namespace Coins.Quotes

def logged (b : Byte) : Byte := if b ≠ SOH then b else bar

/-- The line that `buf_print` writes for what was read. -/
def buf_print (clock buf : List Byte) : List Byte := clock ++ [tab] ++ buf.map logged ++ [nl]

/-- Nothing in it ends a field. -/
def Unmarked (l : List Byte) : Prop := SOH ∉ l ∧ bar ∉ l ∧ 0 ∉ l

/-- A complete message of FIX 4.4. -/
structure Message where
  size : List Byte
  typ : Byte
  more : List Byte
  rest : List Byte
  sized : Sized size (ascii "35=" ++ typ :: more ++ [SOH] ++ rest)
  plain : Unmarked (typ :: more)
  ended : rest = [] ∨ ∃ l, rest = l ++ [SOH]

namespace Message

def body (g : Message) : List Byte := ascii "35=" ++ g.typ :: g.more ++ [SOH] ++ g.rest

def text (g : Message) : List Byte := frame g.size g.body

def sum (g : Message) : List Byte := ascii "10=" ++ fixed 3 (checksum (opening g.size g.body))

end Message

/-- What the converters make of a byte that was read. -/
def seen (b : Byte) : Byte := nul_of bar (logged b)

/-- The fields in a text, one as good as the next of SOH, bar and NUL. -/
def fieldsOf (l : List Byte) : List (List Byte) := lines 0 (l.map seen)

def Message.all (g : Message) : List (List Byte) := fieldsOf g.text

/-- The fields behind the type. -/
def Message.fields (g : Message) : List (List Byte) := fieldsOf (g.rest ++ g.sum ++ [SOH])

/-! ## Fields -/

theorem fields_append (a b : List Byte) (h : a = [] ∨ ∃ l, a = l ++ [SOH]) :
    fieldsOf (a ++ b) = fieldsOf a ++ fieldsOf b := by
  have hrest : rest 0 (a.map seen) = [] := by
    rcases h with rfl | ⟨l, rfl⟩
    · rfl
    · rw [List.map_append]
      exact rest_concat _
  unfold fieldsOf
  rw [List.map_append, lines_append, hrest, List.nil_append]

theorem fields_text (a : List Byte) (h : a = [] ∨ ∃ l, a = l ++ [SOH]) :
    (fieldsOf a).flatMap (· ++ [0]) = a.map seen := by
  have hrest : rest 0 (a.map seen) = [] := by
    rcases h with rfl | ⟨l, rfl⟩
    · rfl
    · rw [List.map_append]
      exact rest_concat _
  have h : (lines 0 (a.map seen)).flatMap (· ++ [0]) ++ rest 0 (a.map seen) = a.map seen := lines_rest _
  rwa [hrest, List.append_nil] at h

theorem logged_plain (l : List Byte) (h : SOH ∉ l) : l.map logged = l := by
  have hid : ∀ b ∈ l, logged b = b := by
    intro b hb
    have hne : b ≠ SOH := fun he => h (he ▸ hb)
    unfold logged
    rw [if_pos hne]
  rw [List.map_congr_left hid, List.map_id']

theorem digits_unmarked (l : List Byte) (h : ∀ b ∈ l, isDigit 10 b = true) : Unmarked l :=
  ⟨fun hb => absurd (h _ hb) (by decide), fun hb => absurd (h _ hb) (by decide),
    fun hb => absurd (h _ hb) (by decide)⟩

theorem sum_unmarked (g : Message) : Unmarked g.sum := by
  have htag : SOH ∉ ascii "10=" ∧ bar ∉ ascii "10=" ∧ 0 ∉ ascii "10=" := by decide
  have hsum := digits_unmarked _ (fixed_digits 3 (checksum (opening g.size g.body)))
  unfold Unmarked Message.sum at *
  simp only [List.mem_append, not_or]
  exact ⟨⟨htag.1, hsum.1⟩, ⟨htag.2.1, hsum.2.1⟩, htag.2.2, hsum.2.2⟩

theorem fields_sum (g : Message) : fieldsOf (g.sum ++ [SOH]) = [g.sum] := by
  obtain ⟨hsoh, hbar, hnul⟩ := sum_unmarked g
  have hid : ∀ b ∈ g.sum, seen b = b := by
    intro b hb
    have hs : b ≠ SOH := fun he => hsoh (he ▸ hb)
    have hb : b ≠ bar := fun he => hbar (he ▸ hb)
    unfold seen logged
    rw [if_pos hs]
    exact if_pos hb
  have hmap : g.sum.map seen = g.sum := by rw [List.map_congr_left hid, List.map_id']
  unfold fieldsOf
  rw [List.map_append, hmap]
  exact lines_line g.sum [] hnul

theorem text_eq (g : Message) : g.text = opening g.size g.body ++ (g.sum ++ [SOH]) := by
  unfold Message.text frame Message.sum
  simp

theorem all_checked (g : Message) : ∃ qs, g.all = qs ++ [g.sum] := by
  have hopen : ∃ l, opening g.size g.body = l ++ [SOH] := by
    unfold opening Message.body
    rcases g.ended with h | ⟨l, h⟩
    · exact ⟨_, by rw [h, List.append_nil, ← List.append_assoc]⟩
    · exact ⟨_, by rw [h, ← List.append_assoc, ← List.append_assoc]⟩
  refine ⟨fieldsOf (opening g.size g.body), ?_⟩
  unfold Message.all
  rw [text_eq, fields_append _ _ (Or.inr hopen), fields_sum]

theorem fields_checked (g : Message) : ∃ qs, g.fields = qs ++ [g.sum] := by
  refine ⟨fieldsOf g.rest, ?_⟩
  unfold Message.fields
  rw [List.append_assoc, fields_append _ _ g.ended, fields_sum]

/-! ## The line -/

theorem text_front (g : Message) :
    g.text = front_of SOH g.size (g.typ :: g.more) ++ (g.rest ++ g.sum ++ [SOH]) := by
  rw [text_eq]
  unfold opening Message.body front_of fhdr9_of
  simp

theorem logged_front (g : Message) :
    (front_of SOH g.size (g.typ :: g.more)).map logged = front_of bar g.size (g.typ :: g.more) := by
  have hsize := logged_plain g.size (digits_unmarked g.size g.sized.2.1).1
  have htyp := logged_plain (g.typ :: g.more) g.plain.1
  unfold front_of
  simp only [List.map_append, hsize, htyp]
  rfl

/-- The pieces of the line behind the type of its first message. -/
def pieces (g : Message) (gs : List Message) : List (List Byte) :=
  g.fields ++ gs.flatMap Message.all ++ [[nl]]

theorem pieces_plain (g : Message) (gs : List Message) : ∀ f ∈ pieces g gs, 0 ∉ f := by
  intro f hf
  unfold pieces at hf
  rcases List.mem_append.mp hf with hf | hf
  · rcases List.mem_append.mp hf with hf | hf
    · exact not_mem_lines _ f hf
    · obtain ⟨g', -, hf⟩ := List.mem_flatMap.mp hf
      exact not_mem_lines _ f hf
  · rw [List.mem_singleton.mp hf]
    decide

theorem pieces_closed (g : Message) (gs : List Message) : Closed (pieces g gs) := by
  obtain ⟨qs, ck, h⟩ : ∃ qs ck, g.fields ++ gs.flatMap Message.all = qs ++ [ascii "10=" ++ ck] := by
    rcases List.eq_nil_or_concat gs with rfl | ⟨gs, g', rfl⟩
    · obtain ⟨qs, h⟩ := fields_checked g
      exact ⟨qs, _, by rw [List.flatMap_nil, List.append_nil, h]; rfl⟩
    · obtain ⟨qs, h⟩ := all_checked g'
      refine ⟨g.fields ++ gs.flatMap Message.all ++ qs, fixed 3 (checksum (opening g'.size g'.body)), ?_⟩
      rw [List.concat_eq_append, List.flatMap_append, List.flatMap_singleton, h, ← List.append_assoc,
        ← List.append_assoc]
      rfl
  have hnl : ¬ keyed [nl] := by
    rintro (⟨t, ht⟩ | ⟨t, ht⟩ | ⟨t, ht⟩)
    · exact absurd (List.cons.inj ht).1 (by decide)
    · exact absurd (List.cons.inj ht).1 (by decide)
    · exact absurd (List.cons.inj ht).1 (by decide)
  have hc := closed_concat qs ck [nl] hnl
  unfold pieces
  rw [h, List.append_assoc]
  exact hc

theorem text_ended (g : Message) : g.text = [] ∨ ∃ l, g.text = l ++ [SOH] :=
  Or.inr ⟨opening g.size g.body ++ g.sum, by rw [text_eq, ← List.append_assoc]⟩

theorem all_text (gs : List Message) :
    (gs.flatMap Message.all).flatMap (· ++ [0]) = (gs.flatMap Message.text).map seen := by
  induction gs with
  | nil => rfl
  | cons g gs ih =>
    rw [List.flatMap_cons, List.flatMap_append, ih, List.flatMap_cons, List.map_append]
    congr 1
    exact fields_text g.text (text_ended g)

theorem line_pieces (clock : List Byte) (g : Message) (gs : List Message) :
    ∃ rest, buf_print clock ((g :: gs).flatMap Message.text) =
        clock ++ tab :: (front_of bar g.size (g.typ :: g.more) ++ rest) ∧
      0 :: rest.map (nul_of bar) = tail 0 (pieces g gs) := by
  refine ⟨(g.rest ++ g.sum ++ [SOH] ++ gs.flatMap Message.text).map logged ++ [nl], ?_, ?_⟩
  · unfold buf_print
    rw [List.flatMap_cons, text_front, List.append_assoc (front_of _ _ _), List.map_append, logged_front]
    simp
  · have hfields := fields_text (g.rest ++ g.sum ++ [SOH]) (Or.inr ⟨_, rfl⟩)
    have hall := all_text gs
    unfold pieces
    rw [tail_concat, List.flatMap_append, hall]
    unfold Message.fields
    rw [hfields, ← List.map_append, List.map_append, List.map_map]
    rfl

/-! ## What is printed -/

/-- A message that is looked into: a refresh, with a length of at most five digits. -/
def Message.Quoted (g : Message) : Prop := (g.typ = chr 'W' ∨ g.typ = chr 'X') ∧ g.size.length ≤ 5

instance Message.decidableQuoted (g : Message) : Decidable g.Quoted := by
  unfold Message.Quoted
  infer_instance

theorem procln_line (route : Mem Byte → Parsed → Int → Nat → Bool → Routed)
    (report : List Byte → Byte → List (List Byte) → List (List Byte))
    (hroute : ∀ (m : Mem Byte) (msg : Parsed) a fs, At m msg.msg (msg.msg + msg.len) a fs → Closed fs →
      ∀ (prfx : Int) (prfz : Nat),
        (route m msg prfx prfz (msg.typ = chr 'W')).out = report (m.view prfx prfz) msg.typ fs)
    (clock : List Byte) (g : Message) (gs : List Message) (m : Mem Byte) (ln : Int) (htab : tab ∉ clock)
    (hm : Holds m ln (buf_print clock ((g :: gs).flatMap Message.text)))
    (hlen : (buf_print clock ((g :: gs).flatMap Message.text)).length < 2 ^ 56) :
    (procln_with route m ln (buf_print clock ((g :: gs).flatMap Message.text)).length).out =
      if g.Quoted then report (clock ++ [tab]) g.typ (pieces g gs) else [] := by
  obtain ⟨rest, hline, hrest⟩ := line_pieces clock g gs
  have hbar : bar ∉ g.size := (digits_unmarked g.size g.sized.2.1).2.1
  rw [hline] at hm hlen ⊢
  rcases Nat.lt_or_ge 5 g.size.length with h5 | h5
  · rw [if_neg fun h : g.Quoted => absurd h.2 (by omega)]
    exact procln_long route m ln clock g.size (g.typ :: g.more) rest htab hbar h5 hm
  · obtain ⟨m', msg, hat, htyp, hpfx, hout⟩ := procln_front route m ln clock g.size g.more rest g.typ
      (pieces g gs) htab g.sized.1 hbar h5
      (fun h => g.plain.2.1 (List.mem_cons_of_mem _ h))
      (fun h => g.plain.2.2 (List.mem_cons_of_mem _ h)) (pieces_plain g gs) hrest hm hlen
    rw [hout]
    by_cases hq : g.typ = chr 'W' ∨ g.typ = chr 'X'
    · have hr := hroute m' msg _ _ hat (pieces_closed g gs) ln (clock.length + 1)
      rw [hpfx, htyp] at hr
      rw [if_pos hq, if_pos (show g.Quoted from ⟨hq, h5⟩)]
      exact hr
    · rw [if_neg hq, if_neg fun h : g.Quoted => hq h.1]

/-- A line of several messages is printed like one message that has the type of the first of them, and
behind it the fields of all: they all have the first sending time and the first instrument. -/
theorem coalesced (clock : List Byte) (g : Message) (gs : List Message) (m : Mem Byte) (ln : Int)
    (htab : tab ∉ clock) (hm : Holds m ln (buf_print clock ((g :: gs).flatMap Message.text)))
    (hlen : (buf_print clock ((g :: gs).flatMap Message.text)).length < 2 ^ 56) :
    let line := buf_print clock ((g :: gs).flatMap Message.text)
    let fs := g.fields ++ gs.flatMap Message.all ++ [[nl]]
    (Ok2b.procln m ln line.length).out =
      (if g.Quoted then Ok2b.report (clock ++ [tab]) (g.typ = chr 'W') fs else []) ∧
    (Btcc2b.procln m ln line.length).out =
      (if g.Quoted then Btcc2b.report (clock ++ [tab]) g.typ fs else []) :=
  ⟨procln_line Ok2b.route_quote (fun pfx typ fs => Ok2b.report pfx (typ = chr 'W') fs)
      (fun _ _ _ _ hat hc prfx prfz => Ok2b.route_quote_out hat hc prfx prfz _) clock g gs m ln htab hm hlen,
    procln_line (fun m msg prfx prfz _ => Btcc2b.route_quote m msg prfx prfz) Btcc2b.report
      (fun _ _ _ _ hat hc prfx prfz => Btcc2b.route_quote_out hat hc prfx prfz) clock g gs m ln htab hm hlen⟩

/-! ## Two messages -/

def held (line : List Byte) : Mem Byte := ⟨fun i => line.getD i.toNat 0, line.length + 1, []⟩

theorem holds_held (line : List Byte) : Holds (held line) 0 line := by
  have hcell : ∀ i : Nat, (held line).cell (0 + (i : Int)) = line.getD i 0 := by
    intro i
    unfold held
    simp
  refine ⟨?_, ?_, ?_⟩
  · apply List.ext_getElem
    · rw [Mem.view_length]
    · intro i hi hi'
      rw [Mem.view_getElem, hcell, List.getD_eq_getElem _ _ hi']
  · rw [hcell, List.getD_eq_default _ _ (le_refl _)]
  · unfold held
    simp only
    omega

/-- The fields of `s`, which has a bar in place of every SOH. -/
def unlogged (s : String) : List Byte := (ascii s).map fun b => if b = bar then SOH else b

def refresh (size rest : List Byte)
    (h : Sized size (ascii "35=" ++ chr 'X' :: [] ++ [SOH] ++ (rest ++ [SOH]))) : Message where
  size := size
  typ := chr 'X'
  more := []
  rest := rest ++ [SOH]
  sized := h
  plain := by
    unfold Unmarked
    decide
  ended := Or.inr ⟨rest, rfl⟩

def btc : Message :=
  refresh (ascii "86")
    (unlogged "34=2|49=OKSERVER|52=20160415-12:00:00|56=me|55=BTC/USD|268=1|269=0|270=430|271=2")
    (by decide +kernel)

def ltc : Message :=
  refresh (ascii "86")
    (unlogged "34=3|49=OKSERVER|52=20160415-12:00:01|56=me|55=LTC/USD|268=1|269=1|270=3.2|271=7")
    (by decide +kernel)

def clock : List Byte := ascii "1460721601.500000000"

theorem coalesced_two :
    let line := buf_print clock ([btc, ltc].flatMap Message.text)
    let fs := btc.fields ++ [ltc].flatMap Message.all ++ [[nl]]
    (Ok2b.procln (held line) 0 line.length).out =
      (if btc.Quoted then Ok2b.report (clock ++ [tab]) (btc.typ = chr 'W') fs else []) ∧
    (Btcc2b.procln (held line) 0 line.length).out =
      (if btc.Quoted then Btcc2b.report (clock ++ [tab]) btc.typ fs else []) :=
  coalesced clock btc [ltc] (held (buf_print clock ([btc, ltc].flatMap Message.text))) 0 (by decide)
    (holds_held _) (by decide +kernel)

/-- On a line of their own litecoins are not printed as bitcoins. -/
theorem litecoin_mislabelled :
    let printed := fun (procln : Mem Byte → Int → Nat → Routed) (gs : List Message) =>
      let line := buf_print clock (gs.flatMap Message.text)
      (procln (held line) 0 line.length).out
    printed Ok2b.procln [btc, ltc] ≠ printed Ok2b.procln [btc] ++ printed Ok2b.procln [ltc] ∧
    printed Btcc2b.procln [btc, ltc] ≠ printed Btcc2b.procln [btc] ++ printed Btcc2b.procln [ltc] := by
  decide +kernel

end Coins.Quotes
