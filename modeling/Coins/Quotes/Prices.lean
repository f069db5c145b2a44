import Coins.Quotes.Inside
import Coins.Quotes.Trades

/-!
# The buffers of `bitfin2b`

The three kinds of events with what they write: each puts its records together in 256 bytes.
-/

open Coins.Lines Coins.Numeral Coins.Questions

namespace Coins.Quotes.Bitfin2b.Prices

open btf_side_t btf_subt_t

/-! ## The code -/

/-- One price level, from `again` on: its side, its price, its quantity and what is behind it. -/
def level (q on : List Byte) : Option (btf_side_t × List Byte × List Byte × List Byte) :=
  match upto (chr ',') on with
  | none => none
  | some (price, on) =>
    let x := strtoul 10 on
    let on := on.drop x.stop
    if deref on ≠ chr ',' then none
    else
      let on := on.tail
      let sd := if deref on = chr '-' then SIDE_ASK else SIDE_BID
      let on := if sd = SIDE_ASK then on.tail else on
      if x.val > 0 then (upto (chr ']') on).map fun r => (sd, price, r.1, r.2)
      else some (sd, price, q, on)

/-- `(char)((SIDE_TRA - sd) ^ '@')` and what is behind it. -/
def tag (sd : btf_side_t) : List Byte := [(SIDE_TRA.val - sd.val) ^^^ chr '@', chr '2', tab]

/-- `case 0U`: what is in front of each level is written for the first one. -/
def header (lab ini : List Byte) : Prog (List Byte) := if ini = [] then memncpy [] lab else pure ini

def levels (lab : List Byte) : Nat → List Byte → List Byte → List Byte → Prog Printed
  | 0, _, _, _ => pure failed
  | fuel + 1, ini, q, on =>
    match level q on with
    | none => pure failed
    | some (sd, price, q, on) => do
      let ini ← header lab ini
      let buf ← record ini (tag sd) price q
      if deref on = chr ',' ∧ deref on.tail = chr '[' then
        let r ← levels lab fuel ini q on.tail.tail
        pure ⟨r.ret, buf :: r.out⟩
      else pure ⟨0, [buf]⟩

def evtbok (p : Processor) (line : List Byte) (ci : btf_chid_t) : Prog Printed :=
  levels (label p ci) (line.length + 1) [] (ascii "0") line

/-- Bid, its size, ask, its size. -/
structure Top where
  bid : List Byte
  bsz : List Byte
  ask : List Byte
  asz : List Byte

def top (line : List Byte) : Option Top := do
  let (bid, on) ← upto (chr ',') line
  let (bsz, on) ← upto (chr ',') on
  let (ask, on) ← upto (chr ',') on
  let (asz, _) ← upto (chr ',') on
  some ⟨bid, bsz, ask, asz⟩

def evttop (p : Processor) (line : List Byte) (ci : btf_chid_t) : Prog Printed :=
  match top line with
  | none => pure failed
  | some t => do
    let lab ← memncpy [] (label p ci)
    let bid ← record lab [chr 'B', chr '1', tab] t.bid t.bsz
    -- start over for the ask
    let ask ← record lab [chr 'A', chr '1', tab] t.ask t.asz
    pure ⟨0, [bid, ask]⟩

/-- `line` is what is behind the channel id. -/
def event (p : Processor) (st : btf_subt_t) (line : List Byte) (ci : btf_chid_t) : Prog Printed :=
  match st with
  | SUBT_BOK => evtbok p line ci
  | SUBT_TOP => evttop p line ci
  | SUBT_TRA => Trades.evttra p line.length ci
  | SUBT_UNK => pure failed

/-- What `events` goes on with: the channel and the text. -/
def target (p : Processor) (line : List Byte) : Option (btf_chid_t × List Byte) :=
  let x := strtoul 10 line
  let on := line.drop x.stop
  if deref on ≠ chr ',' then none
  else
    let on := on.tail
    let ci : btf_chid_t := UInt8.ofNat x.val
    -- books may have arrays of arrays
    if p.subtys ci = SUBT_BOK ∧ deref on = chr '[' then
      some (ci, if deref on.tail = chr '[' then on.tail.tail else on.tail)
    else some (ci, on)

/-! ## What is printed -/

theorem level_functional (lab q on : List Byte) :
    Bitfin2b.level lab q on =
      (level q on).map fun r => (lab ++ tag r.1 ++ r.2.1 ++ [tab] ++ r.2.2.1 ++ [nl], r.2.2.1, r.2.2.2) := by
  unfold Bitfin2b.level level
  cases upto (chr ',') on with
  | none => rfl
  | some r =>
    simp only
    split
    · rfl
    · split
      · split
        · rename_i hnone
          rw [hnone]
          rfl
        · rename_i hsome
          rw [hsome]
          rfl
      · rfl

section
variable (env : (c : Cell) → c.Ans) (p : Processor)

theorem eval_header {lab ini : List Byte} (h : ini = [] ∨ ini = lab) : (header lab ini).eval env = lab := by
  unfold header
  split
  · simp
  · rename_i hne
    rw [Query.eval_pure]
    exact h.resolve_left hne

theorem eval_levels (lab : List Byte) (fuel : Nat) (ini q on : List Byte) (hini : ini = [] ∨ ini = lab) :
    (levels lab fuel ini q on).eval env = Bitfin2b.levels lab fuel q on := by
  induction fuel generalizing ini q on with
  | zero => rfl
  | succ fuel ih =>
    unfold levels Bitfin2b.levels
    rw [level_functional]
    cases level q on with
    | none => rfl
    | some r =>
      obtain ⟨sd, price, q, on⟩ := r
      simp only [Option.map_some, Query.eval_bind, eval_header env hini, eval_record]
      split
      · rw [Query.eval_bind, ih lab q _ (Or.inr rfl)]
        rfl
      · rfl

theorem eval_evtbok (line : List Byte) (ci : btf_chid_t) :
    (evtbok p line ci).eval env = Bitfin2b.evtbok p line ci := by
  exact eval_levels env (label p ci) (line.length + 1) [] (ascii "0") line (Or.inl rfl)

theorem eval_evttop (line : List Byte) (ci : btf_chid_t) :
    (evttop p line ci).eval env = Bitfin2b.evttop p line ci := by
  unfold evttop Bitfin2b.evttop top
  cases upto (chr ',') line with
  | none => rfl
  | some bid =>
    simp only [Option.bind_eq_bind, Option.bind_some]
    cases upto (chr ',') bid.2 with
    | none => rfl
    | some bsz =>
      simp only [Option.bind_some]
      cases upto (chr ',') bsz.2 with
      | none => rfl
      | some ask =>
        simp only [Option.bind_some]
        cases upto (chr ',') ask.2 with
        | none => rfl
        | some asz => simp

theorem eval_event (st : btf_subt_t) (line : List Byte) (ci : btf_chid_t) (old : (c : Cell) → c.Ans) :
    (event p st line ci).eval (memory line [] old) = match st with
      | SUBT_BOK => Bitfin2b.evtbok p line ci
      | SUBT_TOP => Bitfin2b.evttop p line ci
      | SUBT_TRA => Bitfin2b.evttra p (old .null) line ci
      | SUBT_UNK => failed := by
  cases st with
  | SUBT_BOK => exact eval_evtbok _ p line ci
  | SUBT_TOP => exact eval_evttop _ p line ci
  | SUBT_TRA => exact Trades.evttra_eval p ci old
  | SUBT_UNK => rfl

theorem events_target (line : List Byte) (old : (c : Cell) → c.Ans) :
    events p (old .null) line = match target p line with
      | none => failed
      | some (ci, on) => (event p (p.subtys ci) on ci).eval (memory on [] old) := by
  unfold events target
  simp only
  split
  · rfl
  · generalize UInt8.ofNat (strtoul 10 line).val = ci
    generalize (line.drop (strtoul 10 line).stop).tail = on
    cases hst : p.subtys ci with
    | SUBT_BOK =>
      simp only [true_and]
      split
      · simp only [hst]
        exact (eval_event p SUBT_BOK _ ci old).symm
      · simp only [hst]
        exact (eval_event p SUBT_BOK _ ci old).symm
    | SUBT_TOP =>
      simp only [reduceCtorEq, false_and, if_false, hst]
      exact (eval_event p SUBT_TOP on ci old).symm
    | SUBT_TRA =>
      simp only [reduceCtorEq, false_and, if_false, hst]
      exact (eval_event p SUBT_TRA on ci old).symm
    | SUBT_UNK =>
      simp only [reduceCtorEq, false_and, if_false, hst]
      exact (eval_event p SUBT_UNK on ci old).symm

end

/-! ## Lines -/

/-- The event of a line that `procln` takes for one: the time is in the processor, the text is behind the
channel id. -/
structure Incoming where
  p : Processor
  ci : btf_chid_t
  on : List Byte

def incoming (p : Processor) (line : List Byte) : Option Incoming :=
  let t := strtotv line
  let p := { p with metr := t.1 }
  if t.1 = NOT_A_TIME then none
  else if deref t.2 ≠ tab then none
  else if deref t.2.tail ≠ chr '[' then none
  else (target p t.2.tail.tail).map fun r => ⟨p, r.1, r.2⟩

def Incoming.prog (e : Incoming) : Prog Printed := event e.p (e.p.subtys e.ci) e.on e.ci

theorem subscr_chan_out (p : Processor) (st : btf_subt_t) (line : List Byte) :
    (subscr_chan p st line).2.out = [] := by
  unfold subscr_chan
  simp only
  split
  · rfl
  · split
    · rfl
    · split <;> rfl

theorem subscr_out (p : Processor) (line : List Byte) : (subscr p line).2.out = [] := by
  unfold subscr
  split
  · rfl
  · split
    · exact subscr_chan_out ..
    · split
      · exact subscr_chan_out ..
      · split
        · exact subscr_chan_out ..
        · rfl

theorem procln_incoming (p : Processor) (line : List Byte) (old : (c : Cell) → c.Ans) :
    (procln p (old .null) line).2.out = match incoming p line with
      | none => []
      | some e => (e.prog.eval (memory e.on [] old)).out := by
  unfold procln incoming
  simp only
  split
  · rfl
  · split
    · rfl
    · by_cases hev : deref (strtotv line).2.tail = chr '['
      · have hsub : ¬ deref (strtotv line).2.tail = chr '\x7b' := by
          rw [hev]
          decide
        rw [if_neg hsub, if_pos hev, if_neg (not_not.mpr hev)]
        simp only
        rw [events_target]
        cases target _ (strtotv line).2.tail.tail <;> rfl
      · rw [if_neg hev, if_pos hev]
        split
        · exact subscr_out _ _
        · rfl

/-! ## What has to fit -/

/-- Price and quantity of each level. -/
def quotes : Nat → List Byte → List Byte → List (List Byte × List Byte)
  | 0, _, _ => []
  | fuel + 1, q, on =>
    match level q on with
    | none => []
    | some (_, price, q, on) =>
      (price, q) :: if deref on = chr ',' ∧ deref on.tail = chr '[' then quotes fuel q on.tail.tail else []

/-- Prices and quantities as an event has them. -/
def Incoming.quotes (e : Incoming) (wild : List Byte) : List (List Byte × List Byte) :=
  match e.p.subtys e.ci with
  | SUBT_BOK => Prices.quotes (e.on.length + 1) (ascii "0") e.on
  | SUBT_TOP => match top e.on with
    | none => []
    | some t => [(t.bid, t.bsz), (t.ask, t.asz)]
  | SUBT_TRA =>
    if Trades.Closed e.on then [((Trades.before e.on).getD wild, Trades.unsigned (Trades.amount e.on))] else []
  | SUBT_UNK => []

section
variable {env : (c : Cell) → c.Ans} (p : Processor)

theorem inside_levels (lab : List Byte) (fuel : Nat) (ini q on : List Byte) (hini : ini = [] ∨ ini = lab) :
    Inside env (levels lab fuel ini q on) ↔
      ∀ r ∈ quotes fuel q on, lab.length + r.1.length + r.2.length + 5 ≤ 256 := by
  induction fuel generalizing ini q on with
  | zero => simp [levels, quotes]
  | succ fuel ih =>
    unfold levels quotes
    cases level q on with
    | none => simp
    | some r =>
      obtain ⟨sd, price, q, on⟩ := r
      have htag : (tag sd).length = 3 := rfl
      have hhead : Inside env (header lab ini) ↔ (ini = [] → lab.length ≤ 256) := by
        unfold header
        split
        · rename_i hnil
          simp [hnil]
        · rename_i hnil
          simp [hnil]
      simp only [inside_bind, eval_header env hini, inside_record, hhead, htag, List.forall_mem_cons]
      by_cases hmore : deref on = chr ',' ∧ deref on.tail = chr '['
      · simp only [if_pos hmore, inside_bind, inside_pure, and_true, ih lab q _ (Or.inr rfl), ← and_assoc]
        refine and_congr_left fun _ => ?_
        omega
      · simp only [if_neg hmore, inside_pure, and_true, List.not_mem_nil, false_imp_iff, implies_true]
        omega

theorem inside_price (on : Int) (pr : Option Int) : Inside env (Trades.price on pr) := by
  cases pr with
  | none => exact (inside_get _).mpr trivial
  | some pr => exact inside_bytes pr _

theorem inside_print {line : List Byte} (lab : List Byte) (pr : Option Int) (k : Nat) (q s : List Byte)
    (hdrop : line.drop k = q ++ chr ']' :: s) (old : (c : Cell) → c.Ans) :
    Inside (memory line [] old) (Trades.print lab pr k (k + q.length : Nat)) ↔
      lab.length + ((Trades.price k pr).eval (memory line [] old)).length + (Trades.unsigned q).length + 5 ≤ 256 := by
  obtain ⟨c, hbyte, hsign⟩ := Trades.run_sign k q s hdrop
  have hamount := eval_known (Trades.run_amount k q s hdrop) old
  unfold Trades.print
  simp only [inside_bind, inside_memncpy, eval_memncpy, inside_byte_at, inside_price, inside_bytes, inside_pure,
    eval_known hbyte old, hsign, hamount, List.length_append, List.length_cons, List.length_nil, true_and,
    and_true]
  omega

theorem inside_evttra (line : List Byte) (ci : btf_chid_t) (old : (c : Cell) → c.Ans) :
    Inside (memory line [] old) (Trades.evttra p line.length ci) ↔ (Trades.Closed line →
      (label p ci).length + ((Trades.before line).getD (old .null)).length +
        (Trades.unsigned (Trades.amount line)).length + 5 ≤ 256) := by
  by_cases h : Trades.Closed line
  · obtain ⟨k, s, hk, hdrop⟩ := Trades.behind_at h
    have hfind := Trades.run_find k hk
    rw [if_pos h] at hfind
    unfold Trades.evttra
    rw [inside_bind, eval_known hfind, and_iff_right (inside_known hfind old)]
    simp only [h, true_imp_iff]
    rw [inside_print (label p ci) _ k (Trades.amount line) s hdrop, Trades.eval_price k hk]
  · exact iff_of_true (inside_known (Trades.run_evttra_failed p ci h) old) fun hc => absurd hc h

/-- **Everything fits** if and only if each price with its quantity does. -/
theorem inside_incoming (e : Incoming) (old : (c : Cell) → c.Ans) :
    Inside (memory e.on [] old) e.prog ↔
      ∀ r ∈ e.quotes (old .null), (label e.p e.ci).length + r.1.length + r.2.length + 5 ≤ 256 := by
  unfold Incoming.prog Incoming.quotes event
  cases e.p.subtys e.ci with
  | SUBT_BOK => exact inside_levels (label e.p e.ci) _ [] (ascii "0") e.on (Or.inl rfl)
  | SUBT_TOP =>
    unfold evttop
    cases top e.on with
    | none => simp
    | some t =>
      simp only [inside_bind, inside_memncpy, eval_memncpy, eval_record, inside_record, inside_pure, and_true,
        List.forall_mem_cons, List.not_mem_nil, false_imp_iff, implies_true, List.length_cons, List.length_nil,
        List.nil_append]
      omega
  | SUBT_TRA =>
    simp only
    rw [inside_evttra]
    split
    · rename_i hclosed
      simp [hclosed]
    · rename_i hclosed
      simp [hclosed]
  | SUBT_UNK => simp

end

/-- Nothing is written behind the buffer for the line. -/
def Contained (old : (c : Cell) → c.Ans) (p : Processor) (line : List Byte) : Prop :=
  match incoming p line with
  | none => True
  | some e => Inside (memory e.on [] old) e.prog

/-- If the line is taken for an event there is room for its prices and quantities. -/
def Fits (old : (c : Cell) → c.Ans) (p : Processor) (line : List Byte) : Prop :=
  match incoming p line with
  | none => True
  | some e => ∀ r ∈ e.quotes (old .null), (label e.p e.ci).length + r.1.length + r.2.length + 5 ≤ 256

theorem contained_iff (old : (c : Cell) → c.Ans) (p : Processor) (line : List Byte) :
    Contained old p line ↔ Fits old p line := by
  unfold Contained Fits
  cases incoming p line with
  | none => rfl
  | some e => exact inside_incoming e old

/-- How long the records of a line are. -/
def lengths (p : Processor) (wild line : List Byte) : List Nat :=
  match incoming p line with
  | none => []
  | some e => (e.quotes wild).map fun r => (label e.p e.ci).length + r.1.length + r.2.length + 5

theorem fits_lengths (old : (c : Cell) → c.Ans) (p : Processor) (line : List Byte) :
    Fits old p line ↔ ∀ n ∈ lengths p (old .null) line, n ≤ 256 := by
  unfold Fits lengths
  cases incoming p line with
  | none => simp
  | some e => simp only [List.forall_mem_map]

end Coins.Quotes.Bitfin2b.Prices
