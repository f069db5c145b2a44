import Coins.Quotes.Coalesced

/-!
# Market data

What `ok2b` and `btcc2b` print for a message as the exchanges send it: a header, the number of entries,
and the entries one behind the other.
-/

open Coins.Fix Coins.Memory Coins.Numeral Coins.Pieces

namespace Coins.Quotes

/-- A number, `=` and a value. -/
def Tagged (f : List Byte) : Prop := ∃ d ds v, f = d :: ds ++ chr '=' :: v ∧ ∀ b ∈ d :: ds, isDigit 10 b = true

/-- The fields in front of the entries. One is the sending time, and one the instrument. -/
structure Header where
  fields : List (List Byte)
  time : List Byte
  tv : tv_t
  inst : List Byte
  tagged : ∀ f ∈ fields, Tagged f
  timed : fields.filterMap (value tim) = [time]
  sent_at : sent time = some tv
  named : fields.filterMap (value ins) = [inst]
  given : inst ≠ []
  plain : fields.filterMap (value nup) = []

/-- A message behind its type, with entries of some kind. -/
structure Refresh (ε : Type) where
  head : Header
  count : List Byte
  between : List (List Byte)
  entries : List ε
  sum : List Byte
  last : List Byte
  plain : ∀ f ∈ between, value ety f = none
  ended : last = [] ∨ last = [nl]

namespace Refresh

variable {ε : Type} (own : ε → List (List Byte))

/-- The fields from the entries on. -/
def rest (g : Refresh ε) : List (List Byte) := g.entries.flatMap own ++ [ascii "10=" ++ g.sum, g.last]

def fields (g : Refresh ε) : List (List Byte) :=
  g.head.fields ++ (nup ++ g.count) :: (g.between ++ g.rest own)

end Refresh

/-- The records of one entry after the other, with what is known in front of each. -/
def recorded {ε υ : Type} (row : υ → ε → List (List Byte) × υ) : υ → List ε → List (List Byte)
  | _, [] => []
  | i, e :: es => (row i e).1 ++ recorded row (row i e).2 es

/-! ## Looking for a field -/

theorem after_append {k v : List Byte} {fs vs : List (List Byte)} (h : fs.filterMap (value k) = v :: vs)
    (more : List (List Byte)) :
    ∃ gs, (∀ g ∈ gs, g ∈ fs) ∧ after k (fs ++ more) = some (v, gs ++ more) := by
  induction fs with
  | nil => cases h
  | cons f fs ih =>
    rw [List.cons_append, after]
    cases hv : value k f with
    | some w =>
      rw [List.filterMap_cons_some hv] at h
      rw [(List.cons.inj h).1]
      exact ⟨fs, fun g hg => List.mem_cons_of_mem f hg, rfl⟩
    | none =>
      rw [List.filterMap_cons_none hv] at h
      obtain ⟨gs, hgs, hafter⟩ := ih h
      exact ⟨gs, fun g hg => List.mem_cons_of_mem f (hgs g hg), hafter⟩

theorem after_plain {k : List Byte} {fs : List (List Byte)} (h : ∀ f ∈ fs, value k f = none)
    (more : List (List Byte)) : after k (fs ++ more) = after k more := by
  induction fs with
  | nil => rfl
  | cons f fs ih =>
    rw [List.cons_append, after, h f List.mem_cons_self]
    exact ih fun g hg => h g (List.mem_cons_of_mem f hg)

theorem value_other {k k' : List Byte} (v : List Byte) (h : ¬ k <+: k') (h' : ¬ k' <+: k) :
    value k (k' ++ v) = none := by
  rw [value_eq_none]
  intro hp
  rcases List.prefix_or_prefix_of_prefix hp (List.prefix_append k' v) with h1 | h1
  · exact h h1
  · exact h' h1

/-! ## One entry after the other -/

theorem tagged_ety (v : List Byte) : Tagged (ety ++ v) := ⟨chr '2', ascii "69", v, rfl, by decide⟩

/-- Behind an entry there is the next one, or the checksum. -/
def Next (fs : List (List Byte)) : Prop :=
  ∃ f gs, fs = f :: gs ∧ (ety <+: f ∨ ascii "10=" <+: f) ∧ value qty f = none ∧ Tagged f

section
variable {ε τ υ : Type} (entry : τ → List Byte → List (List Byte) → List (List Byte) × Nat × τ)

theorem records_drop (t : τ) (k : Nat) (l fs : List (List Byte)) (hl : ∀ f ∈ l, value ety f = none)
    (hk : k ≤ l.length) : records entry t k (l ++ fs) = records entry t 0 fs := by
  rw [records_skip, List.drop_append_of_le_length hk]
  have hdrop : ∀ f ∈ l.drop k, value ety f = none := fun f hf => hl f (List.mem_of_mem_drop hf)
  rw [records_after, records_after, after_plain hdrop]

theorem records_recorded (side : ε → List Byte) (body : ε → List (List Byte)) (row : υ → ε → List (List Byte) × υ)
    (R : τ → υ → Prop) (hbody : ∀ e, ∀ f ∈ body e, value ety f = none)
    (hentry : ∀ e t i fs, Next fs → R t i →
      (entry t (side e) (body e ++ fs)).1 = (row i e).1 ∧ (entry t (side e) (body e ++ fs)).2.1 ≤ (body e).length ∧
        R (entry t (side e) (body e ++ fs)).2.2 (row i e).2)
    (es : List ε) (tl : List (List Byte)) (htl : after ety tl = none) (hnext : Next tl)
    (t : τ) (i : υ) (hR : R t i) :
    records entry t 0 (es.flatMap (fun e => (ety ++ side e) :: body e) ++ tl) = recorded row i es := by
  induction es generalizing t i with
  | nil =>
    rw [List.flatMap_nil, List.nil_append, records_after, htl]
    rfl
  | cons e es ih =>
    have hnext' : Next (es.flatMap (fun e => (ety ++ side e) :: body e) ++ tl) := by
      cases es with
      | nil => exact hnext
      | cons e' es =>
        exact ⟨_, _, rfl, Or.inl (List.prefix_append _ _), value_other _ (by decide) (by decide),
          tagged_ety (side e')⟩
    obtain ⟨hout, hk, hR'⟩ := hentry e t i _ hnext' hR
    rw [List.flatMap_cons, List.append_assoc, List.cons_append, records, (value_eq_some ety _ (side e)).mpr rfl]
    simp only
    rw [records_drop entry _ _ (body e) _ (hbody e) hk, ih _ _ hR', hout]
    rfl

end

/-! ## The fields of a message -/

section
variable (h : Header) (more : List (List Byte))

theorem Header.stamp_eq (pfx : List Byte) : stamp pfx (h.fields ++ more) = some (tvtostr h.tv ++ [tab] ++ pfx) := by
  obtain ⟨gs, -, hafter⟩ := after_append h.timed more
  unfold stamp
  rw [hafter]
  simp only [h.sent_at, Option.map_some]

theorem Header.instrument : ∃ gs, (∀ g ∈ gs, Tagged g) ∧ after ins (h.fields ++ more) = some (h.inst, gs ++ more) := by
  obtain ⟨gs, hgs, hafter⟩ := after_append h.named more
  exact ⟨gs, fun g hg => h.tagged g (hgs g hg), hafter⟩

theorem Header.updates (count : List Byte) : after nup (h.fields ++ (nup ++ count) :: more) = some (count, more) := by
  rw [after_plain (List.filterMap_eq_nil_iff.mp h.plain), after, (value_eq_some nup _ count).mpr rfl]

end

namespace Refresh

variable {ε : Type} (own : ε → List (List Byte)) (g : Refresh ε)

theorem closed : Closed (g.fields own) := by
  have hlast : ¬ keyed g.last := by
    rintro (⟨t, ht⟩ | ⟨t, ht⟩ | ⟨t, ht⟩)
    all_goals
      rcases g.ended with h | h
      · exact absurd (List.append_eq_nil_iff.mp (ht.trans h)).1 (by decide)
      · exact absurd (List.cons.inj (ht.trans h)).1 (by decide)
  have := closed_concat (g.head.fields ++ (nup ++ g.count) :: (g.between ++ g.entries.flatMap own)) g.sum g.last hlast
  rw [List.append_assoc, List.cons_append, List.append_assoc] at this
  exact this

theorem next : Next [ascii "10=" ++ g.sum, g.last] :=
  ⟨_, _, rfl, Or.inr (List.prefix_append _ _), value_other _ (by decide) (by decide),
    chr '1', ascii "0", g.sum, rfl, by decide⟩

theorem no_more : after ety [ascii "10=" ++ g.sum, g.last] = none := by
  have hsum : value ety (ascii "10=" ++ g.sum) = none := value_other _ (by decide) (by decide)
  have hlast : value ety g.last = none := by
    rcases g.ended with h | h
    · rw [h]
      decide
    · rw [h]
      decide
  rw [after, hsum, after, hlast]
  rfl

end Refresh

/-! ## `ok2b` -/

theorem xor_digit (c x : Byte) : c ^^^ chr '0' = x ↔ c = x ^^^ chr '0' := by
  constructor
  · rintro rfl
    rw [UInt8.xor_assoc, UInt8.xor_self, UInt8.xor_zero]
  · rintro rfl
    rw [UInt8.xor_assoc, UInt8.xor_self, UInt8.xor_zero]

namespace Ok2b

/-- An entry. The quantity may be one field behind the price, and others may follow it. -/
structure Entry where
  side : List Byte
  price : List Byte
  gap : Option (List Byte)
  amount : List Byte
  others : List (List Byte)
  given : side ≠ []
  apart : ∀ g ∈ gap, value ety g = none ∧ value qty g = none
  plain : ∀ f ∈ others, value ety f = none

namespace Entry

def body (e : Entry) : List (List Byte) :=
  (prc ++ e.price) :: (e.gap.toList ++ (qty ++ e.amount) :: e.others)

def own (e : Entry) : List (List Byte) := (ety ++ e.side) :: e.body

/-- Bids and asks. -/
def tag (side : List Byte) : Option (List Byte) :=
  if side = ascii "0" then some (ascii "BID2") else if side = ascii "1" then some (ascii "ASK2") else none

def row (label : List Byte) (_ : Unit) (e : Entry) : List (List Byte) × Unit :=
  match tag e.side with
  | none => ([], ())
  | some t => ([label ++ t ++ [tab] ++ e.price ++ [tab] ++ e.amount ++ [nl]], ())

theorem tag_char (c : Byte) : tag [c] = if 2 ≤ c ^^^ chr '0' then none else some (f (c ^^^ chr '0')) := by
  have hsmall : ∀ x : Byte, ¬ 2 ≤ x → x = 0 ∨ x = 1 := by
    intro x hx
    have hlt : x.toNat < 2 := UInt8.not_le.mp hx
    rcases Nat.le_one_iff_eq_zero_or_eq_one.mp (Nat.le_of_lt_succ hlt) with h | h
    · exact Or.inl (UInt8.toNat_inj.mp h)
    · exact Or.inr (UInt8.toNat_inj.mp h)
  by_cases hc : 2 ≤ c ^^^ chr '0'
  · have h0 : [c] ≠ ascii "0" := by
      rintro h
      rw [(List.cons.inj h).1] at hc
      exact absurd hc (by decide)
    have h1 : [c] ≠ ascii "1" := by
      rintro h
      rw [(List.cons.inj h).1] at hc
      exact absurd hc (by decide)
    rw [if_pos hc, tag, if_neg h0, if_neg h1]
  · rw [if_neg hc]
    rcases hsmall _ hc with h | h
    · rw [(xor_digit c 0).mp h]
      decide
    · rw [(xor_digit c 1).mp h]
      decide

theorem body_plain (e : Entry) : ∀ f ∈ e.body, value ety f = none := by
  intro f hf
  rcases List.mem_cons.mp hf with rfl | hf
  · exact value_other _ (by decide) (by decide)
  · rcases List.mem_append.mp hf with hf | hf
    · exact (e.apart f (Option.mem_toList.mp hf)).1
    · rcases List.mem_cons.mp hf with rfl | hf
      · exact value_other _ (by decide) (by decide)
      · exact e.plain f hf

theorem quantity_body (e : Entry) (fs : List (List Byte)) :
    ∃ k, quantity (e.body ++ fs).tail = (some e.amount, k) ∧ 1 + k ≤ e.body.length := by
  have hq : value qty (qty ++ e.amount) = some e.amount := (value_eq_some qty _ e.amount).mpr rfl
  cases hgap : e.gap with
  | none =>
    refine ⟨1, ?_, ?_⟩
    · simp [body, hgap, quantity, hq]
    · simp [body, hgap]
  | some g =>
    refine ⟨2, ?_, ?_⟩
    · simp [body, hgap, quantity, hq, (e.apart g hgap).2]
    · simp [body, hgap]

theorem entry_row (label : List Byte) (e : Entry) (fs : List (List Byte)) :
    (entry label () e.side (e.body ++ fs)).1 = (row label () e).1 ∧
      (entry label () e.side (e.body ++ fs)).2.1 ≤ e.body.length := by
  have hprc : (e.body ++ fs).head?.bind (value prc) = some e.price :=
    (value_eq_some prc _ e.price).mpr rfl
  obtain ⟨k, hquantity, hk⟩ := quantity_body e fs
  obtain ⟨c, cs, hside⟩ := List.exists_cons_of_ne_nil e.given
  unfold entry row
  rw [hside, hprc]
  cases cs with
  | cons c' cs =>
    have htag : tag (c :: c' :: cs) = none := by simp [tag, ascii]
    rw [htag]
    exact ⟨rfl, Nat.zero_le _⟩
  | nil =>
    rw [tag_char]
    simp only
    by_cases hsd : 2 ≤ c ^^^ chr '0'
    · rw [if_pos hsd, if_pos hsd]
      exact ⟨rfl, Nat.zero_le _⟩
    · rw [if_neg hsd, if_neg hsd, hquantity]
      exact ⟨rfl, hk⟩

end Entry

/-- What is in front of the side in every record. -/
def label (pfx : List Byte) (g : Refresh Entry) : List Byte :=
  tvtostr g.head.tv ++ [tab] ++ pfx ++ g.head.inst ++ currency (g.fields Entry.own) ++ [tab]

/-- The records of a message. -/
def printed (pfx : List Byte) (rstp : Bool) (g : Refresh Entry) : List (List Byte) :=
  (if rstp then [label pfx g ++ clr] else []) ++ recorded (Entry.row (label pfx g)) () g.entries

theorem report_eq (pfx : List Byte) (rstp : Bool) (g : Refresh Entry) :
    report pfx rstp (g.fields Entry.own) = printed pfx rstp g := by
  obtain ⟨gs, -, hins⟩ := g.head.instrument ((nup ++ g.count) :: (g.between ++ g.rest Entry.own))
  have hrecorded := records_recorded (entry (label pfx g)) Entry.side Entry.body (Entry.row (label pfx g))
    (fun _ _ => True)
    Entry.body_plain (fun e _ _ fs _ _ => ⟨(e.entry_row _ fs).1, (e.entry_row _ fs).2, trivial⟩) g.entries _
    g.no_more g.next () () trivial
  have hbetween := records_drop (entry (label pfx g)) () 0 g.between (g.rest Entry.own) g.plain (Nat.zero_le _)
  unfold report Refresh.fields
  rw [Header.stamp_eq, hins, Header.updates]
  simp only
  exact congrArg ((if rstp then [label pfx g ++ clr] else []) ++ ·) (hbetween.trans hrecorded)

end Ok2b

/-! ## `btcc2b` -/

namespace Btcc2b

/-- An entry. It may name an instrument, and have an amount. -/
structure Entry where
  side : List Byte
  inst : Option (List Byte)
  price : List Byte
  amount : Option (List Byte)
  others : List (List Byte)
  given : side ≠ []
  filled : ∀ v ∈ inst, v ≠ []
  alone : amount = none → ∀ f ∈ others.head?, value qty f = none
  plain : ∀ f ∈ others, value ety f = none

namespace Entry

/-- The fields behind the instrument. -/
def priced (e : Entry) : List (List Byte) := (prc ++ e.price) :: ((e.amount.map (qty ++ ·)).toList ++ e.others)

def body (e : Entry) : List (List Byte) := (e.inst.map (ins ++ ·)).toList ++ e.priced

def own (e : Entry) : List (List Byte) := (ety ++ e.side) :: e.body

/-- Only some instruments have more than one level, and of those there are snapshots and updates. -/
def depth (typ : Byte) (i : List Byte) : Byte :=
  if i.head? = some (chr 'X') ∨ i[3]? = some (chr 'U') then (if typ = chr 'X' then chr '3' else chr '2')
  else chr '1'

/-- Bids, asks and trades. -/
def tag (typ : Byte) (i side : List Byte) : Option (List Byte) :=
  if side = ascii "0" then some (ascii "BID" ++ [depth typ i])
  else if side = ascii "1" then some (ascii "ASK" ++ [depth typ i])
  else if side = ascii "2" then some (ascii "TRA0")
  else none

/-- The record of an entry behind which `i` is the last instrument, and the last one behind it. -/
def row (label : List Byte) (typ : Byte) (i : List Byte) (e : Entry) : List (List Byte) × List Byte :=
  let own := e.inst.getD i
  match tag typ own e.side with
  | none => ([], i)
  | some t =>
    ([label ++ own ++ [tab] ++ t ++ [tab] ++ e.price ++ e.amount.elim [] (tab :: ·) ++ [nl]], own)

theorem body_plain (e : Entry) : ∀ f ∈ e.body, value ety f = none := by
  intro f hf
  rcases List.mem_append.mp hf with hf | hf
  · obtain ⟨v, -, rfl⟩ := Option.mem_map.mp (Option.mem_toList.mp hf)
    exact value_other _ (by decide) (by decide)
  · rcases List.mem_cons.mp hf with rfl | hf
    · exact value_other _ (by decide) (by decide)
    · rcases List.mem_append.mp hf with hf | hf
      · obtain ⟨v, -, rfl⟩ := Option.mem_map.mp (Option.mem_toList.mp hf)
        exact value_other _ (by decide) (by decide)
      · exact e.plain f hf

theorem fourth (i f : List Byte) (fs : List (List Byte)) (hi : i ≠ []) (hf : Tagged f) :
    (i ++ tail 0 (f :: fs)).getD 3 0 = chr 'U' ↔ i[3]? = some (chr 'U') := by
  obtain ⟨d, ds, v, rfl, hdigits⟩ := hf
  have hno : ∀ b ∈ d :: ds, b ≠ chr 'U' := fun b hb he => absurd (he ▸ hdigits b hb) (by decide)
  have hd := hno d List.mem_cons_self
  rw [tail_cons]
  match i, hi with
  | [_], _ =>
    cases ds with
    | nil => exact iff_of_false (by simp; decide) (by simp)
    | cons d' ds => exact iff_of_false (by simpa using hno d' (by simp)) (by simp)
  | [_, _], _ => exact iff_of_false (by simpa using hd) (by simp)
  | [_, _, _], _ => exact iff_of_false (by simp; decide) (by simp)
  | _ :: _ :: _ :: b :: _, _ => simp

theorem level_eq (typ sd : Byte) (i f : List Byte) (fs : List (List Byte)) (hi : i ≠ []) (hf : Tagged f) :
    let text := i ++ tail 0 (f :: fs)
    level typ (text.getD 0 0) (text.getD 3 0) sd = if sd < 2 then depth typ i else chr '0' := by
  intro text
  have hfirst : text.getD 0 0 = chr 'X' ↔ i.head? = some (chr 'X') := by
    obtain ⟨c, cs, rfl⟩ := List.exists_cons_of_ne_nil hi
    simp [text]
  have hfourth : text.getD 3 0 = chr 'U' ↔ i[3]? = some (chr 'U') := fourth i f fs hi hf
  unfold level depth
  simp only [hfirst, hfourth]
  by_cases hsd : sd < 2
  · simp only [if_pos hsd]
    by_cases hdeep : i.head? = some (chr 'X') ∨ i[3]? = some (chr 'U')
    · rw [if_pos ⟨hdeep, by decide⟩, if_pos hdeep]
      by_cases ht : typ = chr 'X'
      · rw [if_pos ht, if_pos ht]
        decide
      · rw [if_neg ht, if_neg ht]
        decide
    · rw [if_neg fun h => hdeep h.1, if_neg hdeep]
      decide
  · simp only [if_neg hsd]
    rw [if_neg fun h => h.2 rfl]
    decide

theorem tag_char (typ c : Byte) (i f : List Byte) (fs : List (List Byte)) (hi : i ≠ []) (hf : Tagged f) :
    let text := i ++ tail 0 (f :: fs)
    let sd := c ^^^ chr '0'
    tag typ i [c] =
      if 3 ≤ sd then none else some (sides sd ++ [level typ (text.getD 0 0) (text.getD 3 0) sd]) := by
  intro text sd
  have hsmall : ∀ x : Byte, ¬ 3 ≤ x → x = 0 ∨ x = 1 ∨ x = 2 := by
    intro x hx
    have hlt : x.toNat < 3 := UInt8.not_le.mp hx
    have hcases : x.toNat = 0 ∨ x.toNat = 1 ∨ x.toNat = 2 := by omega
    rcases hcases with h | h | h
    · exact Or.inl (UInt8.toNat_inj.mp h)
    · exact Or.inr (Or.inl (UInt8.toNat_inj.mp h))
    · exact Or.inr (Or.inr (UInt8.toNat_inj.mp h))
  have hlevel : level typ (text.getD 0 0) (text.getD 3 0) sd = if sd < 2 then depth typ i else chr '0' :=
    level_eq typ sd i f fs hi hf
  rw [hlevel]
  unfold sd
  by_cases hc : 3 ≤ c ^^^ chr '0'
  · have hne : ∀ x : Byte, ¬ 3 ≤ x ^^^ chr '0' → [c] ≠ [x] := by
      intro x hx h
      rw [(List.cons.inj h).1] at hc
      exact hx hc
    have h0 : [c] ≠ ascii "0" := hne (chr '0') (by decide)
    have h1 : [c] ≠ ascii "1" := hne (chr '1') (by decide)
    have h2 : [c] ≠ ascii "2" := hne (chr '2') (by decide)
    rw [if_pos hc, tag, if_neg h0, if_neg h1, if_neg h2]
  · rw [if_neg hc]
    rcases hsmall _ hc with h | h | h
    · rw [(xor_digit c 0).mp h]
      rfl
    · rw [(xor_digit c 1).mp h]
      rfl
    · rw [(xor_digit c 2).mp h]
      rfl

theorem prices_priced (e : Entry) (label : List Byte) (fs : List (List Byte)) (hnext : Next fs) :
    (prices label (e.priced ++ fs)).1 = [label ++ e.price ++ e.amount.elim [] (tab :: ·) ++ [nl]] ∧
      (prices label (e.priced ++ fs)).2 ≤ e.priced.length := by
  have hprc : value prc (prc ++ e.price) = some e.price := (value_eq_some prc _ e.price).mpr rfl
  obtain ⟨f, gs, rfl, -, hf, -⟩ := hnext
  unfold prices priced
  cases ha : e.amount with
  | some q =>
    have hqty : value qty (qty ++ q) = some q := (value_eq_some qty _ q).mpr rfl
    simp [hprc, hqty]
  | none =>
    have hhead : (e.others ++ f :: gs).head?.bind (value qty) = none := by
      cases ho : e.others with
      | nil => exact hf
      | cons g os => exact e.alone ha g (by rw [ho]; rfl)
    simp only [Option.map_none, Option.toList_none, List.nil_append, List.cons_append, List.head?_cons,
      Option.bind_some, hprc, List.tail_cons, hhead]
    exact ⟨by simp, by simp⟩

/-- What the code keeps of an instrument. -/
def Kept (i : Instrument) (text : List Byte) : Prop :=
  i.1 = text ∧ text ≠ [] ∧ ∃ f fs, i.2 = f :: fs ∧ Tagged f

theorem entry_row (typ : Byte) (label : List Byte) (e : Entry) (t : Instrument) (i : List Byte)
    (fs : List (List Byte)) (hnext : Next fs) (ht : Kept t i) :
    (entry typ label t e.side (e.body ++ fs)).1 = (row label typ i e).1 ∧
      (entry typ label t e.side (e.body ++ fs)).2.1 ≤ e.body.length ∧
      Kept (entry typ label t e.side (e.body ++ fs)).2.2 (row label typ i e).2 := by
  have hins : ∀ v, value ins (prc ++ v) = none := fun v => value_other _ (by decide) (by decide)
  have hprc : Tagged (prc ++ e.price) := ⟨chr '2', ascii "70", e.price, rfl, by decide⟩
  obtain ⟨c, cs, hside⟩ := List.exists_cons_of_ne_nil e.given
  have hlabel : ∀ (w : Instrument) (sd : Byte), label ++ named typ w sd =
      label ++ w.1 ++ [tab] ++ (sides sd ++ [level typ ((w.1 ++ tail 0 w.2).getD 0 0)
        ((w.1 ++ tail 0 w.2).getD 3 0) sd]) ++ [tab] := fun w sd => by simp [named]
  unfold entry row
  rw [hside]
  simp only
  cases cs with
  | cons c' cs =>
    have htag : ∀ own, tag typ own (c :: c' :: cs) = none := fun own => by simp [tag, ascii]
    rw [if_pos (Or.inr (List.cons_ne_nil _ _)), htag]
    exact ⟨rfl, Nat.zero_le _, ht⟩
  | nil =>
    obtain ⟨rfl, hne, f, gs, hfs, hf⟩ := ht
    cases hi : e.inst with
    | none =>
      have hbody : e.body = e.priced := by
        unfold body
        rw [hi]
        rfl
      have hhead : (e.priced ++ fs).head?.bind (value ins) = none := hins e.price
      obtain ⟨hout, hlen⟩ := prices_priced e (label ++ named typ t (c ^^^ chr '0')) fs hnext
      rw [hbody, hhead, Option.getD_none, tag_char typ c t.1 f gs hne hf, ← hfs]
      simp only
      by_cases hsd : 3 ≤ c ^^^ chr '0'
      · rw [if_pos (Or.inl hsd), if_pos hsd]
        exact ⟨rfl, Nat.zero_le _, rfl, hne, f, gs, hfs, hf⟩
      · have hno : ¬ (3 ≤ c ^^^ chr '0' ∨ ([] : List Byte) ≠ []) := fun h => h.elim hsd fun h => h rfl
        rw [if_neg hno, if_neg hsd]
        refine ⟨?_, hlen, rfl, hne, f, gs, hfs, hf⟩
        rw [hout, hlabel]
    | some v =>
      have hbody : e.body = (ins ++ v) :: e.priced := by
        unfold body
        rw [hi]
        rfl
      have hhead : ((ins ++ v) :: (e.priced ++ fs)).head?.bind (value ins) = some v := (value_eq_some ins _ v).mpr rfl
      have hv : v ≠ [] := e.filled v hi
      have hrest : e.priced ++ fs = (prc ++ e.price) :: ((e.amount.map (qty ++ ·)).toList ++ e.others ++ fs) := rfl
      obtain ⟨hout, hlen⟩ := prices_priced e (label ++ named typ (v, e.priced ++ fs) (c ^^^ chr '0')) fs hnext
      rw [hbody, List.cons_append, hhead, List.tail_cons, Option.getD_some, tag_char typ c v _ _ hv hprc, ← hrest]
      simp only
      by_cases hsd : 3 ≤ c ^^^ chr '0'
      · rw [if_pos (Or.inl hsd), if_pos hsd]
        exact ⟨rfl, Nat.zero_le _, rfl, hne, f, gs, hfs, hf⟩
      · have hno : ¬ (3 ≤ c ^^^ chr '0' ∨ ([] : List Byte) ≠ []) := fun h => h.elim hsd fun h => h rfl
        rw [if_neg hno, if_neg hsd]
        refine ⟨?_, ?_, rfl, hv, _, _, hrest, hprc⟩
        · rw [hout, hlabel]
        · rw [List.length_cons]
          simp only
          omega

end Entry

/-- The records of a message. -/
def printed (pfx : List Byte) (typ : Byte) (g : Refresh Entry) : List (List Byte) :=
  recorded (Entry.row (tvtostr g.head.tv ++ [tab] ++ pfx) typ) g.head.inst g.entries

theorem report_eq (pfx : List Byte) (typ : Byte) (g : Refresh Entry) :
    report pfx typ (g.fields Entry.own) = printed pfx typ g := by
  obtain ⟨gs, hgs, hins⟩ := g.head.instrument ((nup ++ g.count) :: (g.between ++ g.rest Entry.own))
  have hkept : Entry.Kept (g.head.inst, gs ++ (nup ++ g.count) :: (g.between ++ g.rest Entry.own)) g.head.inst := by
    refine ⟨rfl, g.head.given, ?_⟩
    cases gs with
    | nil => exact ⟨_, _, rfl, chr '2', ascii "68", g.count, rfl, by decide⟩
    | cons f gs => exact ⟨f, _, rfl, hgs f List.mem_cons_self⟩
  have hrecorded := records_recorded (entry typ (tvtostr g.head.tv ++ [tab] ++ pfx)) Entry.side Entry.body
    (Entry.row (tvtostr g.head.tv ++ [tab] ++ pfx) typ) Entry.Kept Entry.body_plain
    (fun e t i fs hnext ht => e.entry_row typ _ t i fs hnext ht) g.entries _ g.no_more g.next _ _ hkept
  have hbetween := records_drop (entry typ (tvtostr g.head.tv ++ [tab] ++ pfx))
    (g.head.inst, gs ++ (nup ++ g.count) :: (g.between ++ g.rest Entry.own)) 0 g.between (g.rest Entry.own) g.plain
    (Nat.zero_le _)
  unfold report Refresh.fields
  rw [Header.stamp_eq, hins, Header.updates]
  exact hbetween.trans hrecorded

end Btcc2b

/-! ## All of it -/

/-- **The entries are printed one by one.** -/
theorem entries_printed (m : Mem Byte) (msg : Parsed) (a : List Byte) (prfx : Int) (prfz : Nat) :
    (∀ g : Refresh Ok2b.Entry, At m msg.msg (msg.msg + msg.len) a (g.fields Ok2b.Entry.own) →
      (Ok2b.route_quote m msg prfx prfz (msg.typ = chr 'W')).out =
        Ok2b.printed (m.view prfx prfz) (msg.typ = chr 'W') g) ∧
    ∀ g : Refresh Btcc2b.Entry, At m msg.msg (msg.msg + msg.len) a (g.fields Btcc2b.Entry.own) →
      (Btcc2b.route_quote m msg prfx prfz).out = Btcc2b.printed (m.view prfx prfz) msg.typ g := by
  refine ⟨fun g h => ?_, fun g h => ?_⟩
  · rw [Ok2b.route_quote_out h (g.closed _), Ok2b.report_eq]
  · rw [Btcc2b.route_quote_out h (g.closed _), Btcc2b.report_eq]

theorem Holds.fields {m : Mem Byte} {ln : Int} {pfx a : List Byte} {fs : List (List Byte)}
    (h : Holds m ln (pfx ++ (a ++ tail 0 fs))) (hshort : (a ++ tail 0 fs).length < 2 ^ 64) (ha : 0 ∉ a)
    (hfs : ∀ f ∈ fs, 0 ∉ f) :
    At m (ln + pfx.length) (ln + pfx.length + (a ++ tail 0 fs).length) a fs := by
  have hstop := h.stop
  have hroom := h.room
  rw [List.length_append, Nat.cast_add, ← add_assoc] at hstop hroom
  refine ⟨?_, rfl, hstop, hroom, hshort, ha, hfs⟩
  exact Mem.view_mid m ln _ pfx (a ++ tail 0 fs) [] (by rw [h.text, List.append_nil])

def noon : Header where
  fields := [ascii "52=20160415-12:00:00", ascii "55=XBTCNY"]
  time := ascii "20160415-12:00:00"
  tv := 1460721600000000000
  inst := ascii "XBTCNY"
  tagged := by
    intro f hf
    rcases List.mem_cons.mp hf with rfl | hf
    · exact ⟨chr '5', ascii "2", ascii "20160415-12:00:00", rfl, by decide⟩
    · rw [List.mem_singleton.mp hf]
      exact ⟨chr '5', ascii "5", ascii "XBTCNY", rfl, by decide⟩
  timed := by decide +kernel
  sent_at := by decide +kernel
  named := by decide +kernel
  given := by decide
  plain := by decide +kernel

def noon_with {ε : Type} (es : List ε) : Refresh ε where
  head := noon
  count := ascii "2"
  between := []
  entries := es
  sum := ascii "123"
  last := [nl]
  plain := by decide
  ended := Or.inr rfl

/-- A trade, which `ok2b` does not print, and a bid with a field in front of its quantity. -/
def trade_bid : Refresh Ok2b.Entry :=
  noon_with [⟨ascii "2", ascii "430", none, ascii "1", [], by decide, by decide, by decide⟩,
    ⟨ascii "0", ascii "429", some (ascii "15=USD"), ascii "3", [ascii "1023=1"], by decide, by decide, by decide⟩]

/-- A side `4` of BTCUSD, and a bid. -/
def other_bid : Refresh Btcc2b.Entry :=
  noon_with [⟨ascii "4", some (ascii "BTCUSD"), ascii "430", some (ascii "1"), [], by decide, by decide, by decide,
      by decide⟩,
    ⟨ascii "0", none, ascii "429", none, [], by decide, by decide, by decide, by decide⟩]

/-- A line with the fields `fs` as `fix_parse` leaves it, and its message. -/
def left (fs : List (List Byte)) : Mem Byte := held (ascii "1\t" ++ ([] ++ tail 0 fs))

def message (typ : Byte) (fs : List (List Byte)) : Parsed := ⟨typ, ([] ++ tail 0 fs : List Byte).length, 2⟩

theorem left_at (typ : Byte) (fs : List (List Byte)) (hlen : (tail 0 fs).length < 2 ^ 64) (hfs : ∀ f ∈ fs, 0 ∉ f) :
    At (left fs) (message typ fs).msg ((message typ fs).msg + (message typ fs).len) [] fs :=
  (holds_held (ascii "1\t" ++ ([] ++ tail 0 fs))).fields hlen List.not_mem_nil hfs

theorem entries_printed_noon :
    let fs := trade_bid.fields Ok2b.Entry.own
    let fs' := other_bid.fields Btcc2b.Entry.own
    (Ok2b.route_quote (left fs) (message (chr 'W') fs) 0 2 (chr 'W' = chr 'W')).out =
      Ok2b.printed ((left fs).view 0 2) (chr 'W' = chr 'W') trade_bid ∧
    (Btcc2b.route_quote (left fs') (message (chr 'X') fs') 0 2).out =
      Btcc2b.printed ((left fs').view 0 2) (chr 'X') other_bid :=
  ⟨(entries_printed _ (message (chr 'W') _) [] 0 2).1 trade_bid
      (left_at _ _ (by decide +kernel) (by decide +kernel)),
    (entries_printed _ (message (chr 'X') _) [] 0 2).2 other_bid
      (left_at _ _ (by decide +kernel) (by decide +kernel))⟩

/-- The instrument of an entry that is not printed is not the one of the next. -/
theorem skipped_instrument_lost :
    let fs := other_bid.fields Btcc2b.Entry.own
    let last_given := fun label i (e : Btcc2b.Entry) => ((Btcc2b.Entry.row label (chr 'X') i e).1, e.inst.getD i)
    (Btcc2b.route_quote (left fs) (message (chr 'X') fs) 0 2).out ≠
      recorded (last_given (tvtostr noon.tv ++ [tab] ++ (left fs).view 0 2)) noon.inst other_bid.entries := by
  decide +kernel

end Coins.Quotes
