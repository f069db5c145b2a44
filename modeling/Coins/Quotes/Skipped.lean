import Coins.Quotes.Bitfin2b
import Coins.Quotes.Coin2b
import Coins.Quotes.Hit2b
import Coins.Quotes.Plx2b

/-!
# Lines without a time stamp

The converters skip a line when `strtotv` does not end at a tab. What it takes for a time in front of the
tab is more than digits.
-/

open Coins.Numeral Coins.Questions

namespace Coins.Quotes

/-! ## Stamps -/

/-- Digits, behind blanks and a sign. -/
def Number (n : List Byte) : Prop :=
  ∃ w sg ds, n = w ++ sg ++ ds ∧ (∀ b ∈ w, isSpace b = true) ∧ (sg = [] ∨ sg = [chr '-'] ∨ sg = [chr '+']) ∧
    ds ≠ [] ∧ ∀ b ∈ ds, isDigit 10 b = true

/-- The scale of a fraction with as many digits. -/
def scaled (v : tv_t) (digits : Nat) : tv_t :=
  let v := if digits = 0 then v * MSECS else v
  let v := if digits ≤ 3 then v * MSECS else v
  if digits ≤ 6 then v * MSECS else v

/-- The time for a number of seconds and a fraction, both as `strtoul` reads them. -/
def time (n g : List Byte) : tv_t :=
  UInt64.ofNat (strtoul 10 n).val * NSECS + scaled (UInt64.ofNat (strtoul 10 g).val) g.length

/-- A number or nothing, and perhaps a point with nothing or a number of 3, 6 or 9 characters behind it. -/
def Loose (n g x : List Byte) : Prop :=
  (n = [] ∨ Number n) ∧ (g = [] ∨ Number g ∧ (g.length = 3 ∨ g.length = 6 ∨ g.length = 9)) ∧
    (x = n ∧ g = [] ∨ x = n ++ chr '.' :: g)

/-- What is taken for a time. -/
def Time (x : List Byte) : Prop := ∃ n g, Loose n g x ∧ time n g ≠ NOT_A_TIME

/-- The time stamps that there should be. -/
def Strict (x : List Byte) : Prop :=
  ∃ ds f, x = ds ++ f ∧ ds ≠ [] ∧ (∀ b ∈ ds, isDigit 10 b = true) ∧
    (f = [] ∨ ∃ g, f = chr '.' :: g ∧ (∀ b ∈ g, isDigit 10 b = true) ∧
      (g.length = 0 ∨ g.length = 3 ∨ g.length = 6 ∨ g.length = 9))

def Stamped (line : List Byte) : Prop := ∃ x rest, Strict x ∧ line = x ++ tab :: rest

def Opening (c : Byte) : Prop := c = chr '{' ∨ c = chr '['

/-- No document begins behind a tab. -/
def Headed (x : List Byte) : Prop := ∀ a c b, x = a ++ tab :: c :: b → ¬ Opening c

/-! ## Reading -/

/-- What may be behind a number: the end, a tab with the end or a document behind it, or a point. -/
def Ends (r : List Byte) : Prop :=
  r = [] ∨ (∃ g, r = chr '.' :: g) ∨ ∃ doc, r = tab :: doc ∧ ∀ c ∈ doc.head?, Opening c

theorem opening_plain (c : Byte) (h : Opening c) : isSpace c = false ∧ isDigit 10 c = false ∧ c ≠ 45 ∧ c ≠ 43 := by
  rcases h with rfl | rfl <;> decide

theorem ends_digit (r : List Byte) (h : Ends r) : ∀ b ∈ r.head?, isDigit 10 b = false := by
  intro b hb
  rcases h with rfl | ⟨g, rfl⟩ | ⟨doc, rfl, -⟩
  · cases hb
  · rw [List.head?_cons, Option.mem_some_iff] at hb
    rw [← hb]
    decide
  · rw [List.head?_cons, Option.mem_some_iff] at hb
    rw [← hb]
    decide

theorem ends_nothing (r : List Byte) (h : Ends r) : (strtoul 10 r).val = 0 ∧ (strtoul 10 r).stop = 0 := by
  rcases h with rfl | ⟨g, rfl⟩ | ⟨doc, rfl, hdoc⟩
  · decide
  · refine strtoul_nothing [] (chr '.' :: g) (fun b hb => by cases hb) fun b hb => ?_
    rw [List.head?_cons, Option.mem_some_iff] at hb
    rw [← hb]
    decide
  · refine strtoul_nothing [tab] doc (fun b hb => ?_) fun b hb => opening_plain b (hdoc b hb)
    rw [List.mem_singleton.mp hb]
    decide

theorem number_reads (n r : List Byte) (hn : n = [] ∨ Number n) (hr : Ends r) :
    (strtoul 10 (n ++ r)).val = (strtoul 10 n).val ∧ (strtoul 10 (n ++ r)).stop = n.length := by
  rcases hn with rfl | ⟨w, sg, ds, rfl, hw, hsg, hne, hds⟩
  · rw [List.nil_append]
    exact ends_nothing r hr
  · have hthere := strtoul_signed w sg ds r hw hsg hds hne (ends_digit r hr)
    have halone := strtoul_signed w sg ds [] hw hsg hds hne (fun b hb => by cases hb)
    rw [List.append_nil] at halone
    rw [hthere, halone]
    exact ⟨rfl, by simp only [List.length_append]⟩

theorem loose_reads (n g x : List Byte) (hx : Loose n g x) (doc : List Byte) (hdoc : ∀ c ∈ doc.head?, Opening c) :
    strtotv (x ++ tab :: doc) = (time n g, tab :: doc) := by
  obtain ⟨hn, hg, hx⟩ := hx
  have htab : Ends (tab :: doc) := Or.inr (Or.inr ⟨doc, rfl, hdoc⟩)
  rcases hx with ⟨rfl, rfl⟩ | rfl
  · obtain ⟨hval, hstop⟩ := number_reads x (tab :: doc) hn htab
    have hdot : ¬ deref (tab :: doc) = chr '.' := by
      rw [deref_cons]
      decide
    unfold strtotv
    simp only [hval, hstop, List.drop_left, if_neg hdot]
    rfl
  · have hnum : g = [] ∨ Number g := hg.imp id fun h => h.1
    have hlen : g.length = 0 ∨ g.length = 3 ∨ g.length = 6 ∨ g.length = 9 := by
      rcases hg with rfl | ⟨-, h⟩
      · exact Or.inl rfl
      · exact Or.inr h
    obtain ⟨hval, hstop⟩ := number_reads n (chr '.' :: (g ++ tab :: doc)) hn (Or.inr (Or.inl ⟨_, rfl⟩))
    obtain ⟨hval', hstop'⟩ := number_reads g (tab :: doc) hnum htab
    have htext : n ++ chr '.' :: g ++ tab :: doc = n ++ chr '.' :: (g ++ tab :: doc) := by
      rw [List.append_assoc, List.cons_append]
    have hdot : deref (chr '.' :: (g ++ tab :: doc)) = chr '.' := rfl
    unfold strtotv
    rw [htext]
    simp only [hval, hstop, List.drop_left, if_pos hdot, List.tail_cons, hval', hstop']
    rw [if_neg (by omega), if_neg (by omega)]
    rfl

theorem number_shape (l : List Byte) :
    ∃ n, (n = [] ∨ Number n) ∧ l = n ++ l.drop (strtoul 10 l).stop ∧ (strtoul 10 l).stop = n.length := by
  rcases number_or_none l with ⟨w, sg, ds, r, rfl, hw, hsg, hne, hds, hr⟩ | ⟨-, hstop⟩
  · have hread := strtoul_signed w sg ds r hw hsg hds hne hr
    have hlen : (strtoul 10 (w ++ sg ++ ds ++ r)).stop = (w ++ sg ++ ds).length := by
      rw [hread]
      simp only [List.length_append]
    refine ⟨w ++ sg ++ ds, Or.inr ⟨w, sg, ds, rfl, hw, hsg, hne, hds⟩, ?_, hlen⟩
    rw [hlen, List.drop_left]
  · refine ⟨[], Or.inl rfl, ?_, hstop⟩
    rw [hstop]
    rfl

theorem strtotv_shape (line : List Byte) (h : (strtotv line).1 ≠ NOT_A_TIME) :
    ∃ n g x, Loose n g x ∧ line = x ++ (strtotv line).2 := by
  obtain ⟨n, hn, hline, -⟩ := number_shape line
  unfold strtotv at h ⊢
  dsimp only at h ⊢
  generalize line.drop (strtoul 10 line).stop = on at hline h ⊢
  by_cases hdot : deref on = chr '.'
  · obtain ⟨g', rfl⟩ : ∃ g', on = chr '.' :: g' := by
      cases on with
      | nil => exact absurd hdot (by decide)
      | cons b g' => exact ⟨g', by rw [← hdot]; rfl⟩
    obtain ⟨g, hg, hrest, hstop⟩ := number_shape g'
    rw [if_pos hdot, List.tail_cons] at h ⊢
    by_cases hlong : (strtoul 10 g').stop > 9
    · rw [if_pos hlong] at h
      exact absurd rfl h
    · rw [if_neg hlong] at h ⊢
      by_cases hmod : (strtoul 10 g').stop % 3 ≠ 0
      · rw [if_pos hmod] at h
        exact absurd rfl h
      · rw [if_neg hmod]
        refine ⟨n, g, n ++ chr '.' :: g, ⟨hn, ?_, Or.inr rfl⟩, ?_⟩
        · rcases hg with rfl | hg
          · exact Or.inl rfl
          · refine Or.inr ⟨hg, ?_⟩
            obtain ⟨w, sg, ds, hsplit, -, -, hne, -⟩ := hg
            have hlen := congrArg List.length hsplit
            have hpos := List.length_pos_of_ne_nil hne
            simp only [List.length_append] at hlen
            omega
        · rw [List.append_assoc, List.cons_append]
          dsimp only
          rw [← hrest]
          exact hline
  · rw [if_neg hdot]
    exact ⟨n, [], n, ⟨hn, Or.inl rfl, Or.inl ⟨rfl, rfl⟩⟩, hline⟩

theorem number_plain (n : List Byte) (h : n = [] ∨ Number n) : ∀ b ∈ n, ¬ Opening b := by
  rcases h with rfl | ⟨w, sg, ds, rfl, hw, hsg, -, hds⟩
  · intro b hb
    cases hb
  · intro b hb hopen
    obtain ⟨hspace, hdigit, hminus, hplus⟩ := opening_plain b hopen
    rcases List.mem_append.mp hb with hb | hb
    · rcases List.mem_append.mp hb with hb | hb
      · rw [hw b hb] at hspace
        cases hspace
      · rcases hsg with rfl | rfl | rfl
        · cases hb
        · exact hminus (List.mem_singleton.mp hb)
        · exact hplus (List.mem_singleton.mp hb)
    · rw [hds b hb] at hdigit
      cases hdigit

theorem loose_headed (n g x : List Byte) (h : Loose n g x) : Headed x := by
  obtain ⟨hn, hg, hx⟩ := h
  rintro a c b hsplit hopen
  have hc : c ∈ x := by
    rw [hsplit]
    simp
  rcases hx with ⟨rfl, -⟩ | rfl
  · exact number_plain x hn c hc hopen
  · rcases List.mem_append.mp hc with hc | hc
    · exact number_plain n hn c hc hopen
    · rcases List.mem_cons.mp hc with rfl | hc
      · exact absurd hopen (by unfold Opening; decide)
      · exact number_plain g (hg.imp id fun h => h.1) c hc hopen

theorem headed_longer (x as d e : List Byte) (hy : Headed (x ++ as)) (hd : ∃ c b, d = c :: b ∧ Opening c)
    (h : tab :: d = as ++ tab :: e) : as = [] := by
  obtain ⟨c, b, rfl, hopen⟩ := hd
  cases as with
  | nil => rfl
  | cons t as =>
    rw [List.cons_append, List.cons.injEq] at h
    obtain ⟨rfl, h⟩ := h
    cases as with
    | nil =>
      rw [List.nil_append, List.cons.injEq] at h
      rw [h.1] at hopen
      exact absurd hopen (by unfold Opening; decide)
    | cons u as =>
      rw [List.cons_append, List.cons.injEq] at h
      obtain ⟨rfl, -⟩ := h
      exact absurd hopen (hy x c as rfl)

theorem headed_unique (x y d e : List Byte) (hx : Headed x) (hy : Headed y) (hd : ∃ c b, d = c :: b ∧ Opening c)
    (he : ∃ c b, e = c :: b ∧ Opening c) (h : x ++ tab :: d = y ++ tab :: e) : x = y ∧ d = e := by
  have hsame : x = y := by
    rcases List.append_eq_append_iff.mp h with ⟨as, rfl, htail⟩ | ⟨as, rfl, htail⟩
    · rw [headed_longer x as d e hy hd htail, List.append_nil]
    · rw [headed_longer y as e d hx he htail, List.append_nil]
  subst hsame
  exact ⟨rfl, (List.cons.inj (List.append_cancel_left h)).2⟩

theorem strict_tab (x : List Byte) (h : Strict x) : tab ∉ x := by
  obtain ⟨ds, f, rfl, -, hds, hf⟩ := h
  intro hmem
  rcases List.mem_append.mp hmem with hmem | hmem
  · exact absurd (hds tab hmem) (by decide)
  · rcases hf with rfl | ⟨g, rfl, hg, -⟩
    · cases hmem
    · rcases List.mem_cons.mp hmem with heq | hmem
      · exact absurd heq (by decide)
      · exact absurd (hg tab hmem) (by decide)

theorem stamped_behind (x r : List Byte) : Stamped (x ++ tab :: r) ↔ Stamped (x ++ [tab]) := by
  -- a stamp ends with the first tab
  have hfirst : ∀ y e : List Byte, Strict y → ∀ d : List Byte, x ++ tab :: d = y ++ tab :: e →
      ∀ d' : List Byte, Stamped (x ++ tab :: d') := by
    intro y e hy d h d'
    rcases List.append_eq_append_iff.mp h with ⟨as, rfl, htail⟩ | ⟨as, rfl, htail⟩
    · cases as with
      | nil => exact ⟨x, d', by rwa [List.append_nil] at hy, rfl⟩
      | cons t as =>
        rw [List.cons_append, List.cons.injEq] at htail
        exact absurd (by rw [htail.1]; simp) (strict_tab _ hy)
    · cases as with
      | nil => exact ⟨y, d', hy, by rw [List.append_nil]⟩
      | cons t as =>
        rw [List.cons_append, List.cons.injEq] at htail
        exact ⟨y, as ++ tab :: d', hy, by rw [← htail.1, List.append_assoc, List.cons_append]⟩
  constructor
  · rintro ⟨y, e, hy, h⟩
    exact hfirst y e hy r h []
  · rintro ⟨y, e, hy, h⟩
    exact hfirst y e hy [] h r

/-! ## Skipping -/

/-- A converter goes on behind a time and a tab only, and only with a document, and there is one that it
does not skip. -/
structure Converter (Skips : List Byte → Prop) : Prop where
  skips : ∀ line, ((strtotv line).1 ≠ NOT_A_TIME → deref (strtotv line).2 = tab →
    ¬ Opening (deref (strtotv line).2.tail)) → Skips line
  goes_on : ∀ t, t ≠ NOT_A_TIME → ∃ c b, Opening c ∧ ∀ line, strtotv line = (t, tab :: c :: b) → ¬ Skips line

theorem not_skipped {Skips : List Byte → Prop} (h : Converter Skips) (line : List Byte) (hline : ¬ Skips line) :
    ∃ x c b, Time x ∧ Opening c ∧ line = x ++ tab :: c :: b := by
  by_contra hno
  refine hline (h.skips line fun htime htab hopen => hno ?_)
  obtain ⟨n, g, x, hx, hsplit⟩ := strtotv_shape line htime
  obtain ⟨d, hd⟩ : ∃ d, (strtotv line).2 = tab :: d := by
    cases hon : (strtotv line).2 with
    | nil =>
      rw [hon] at htab
      exact absurd htab (by decide)
    | cons b d =>
      rw [hon, deref_cons] at htab
      exact ⟨d, by rw [htab]⟩
  rw [hd, List.tail_cons] at hopen
  obtain ⟨c, b, rfl⟩ : ∃ c b, d = c :: b := by
    cases d with
    | nil => exact absurd hopen (by unfold Opening; decide)
    | cons c b => exact ⟨c, b, rfl⟩
  rw [deref_cons] at hopen
  rw [hd] at hsplit
  have hread := loose_reads n g x hx (c :: b) fun e he => by
    rw [List.head?_cons, Option.mem_some_iff] at he
    rw [← he]
    exact hopen
  rw [← hsplit] at hread
  rw [hread] at htime
  exact ⟨x, c, b, ⟨n, g, hx, htime⟩, hopen, hsplit⟩

/-- A line without a stamp is skipped. -/
def Unstamped (Skips : List Byte → Prop) (line : List Byte) : Prop := ¬ Stamped line → Skips line

/-- Without a document the line `x` is skipped, and with one behind it, whatever it is, if and only if `x` is
not taken for a time. -/
def Exactly (x : List Byte) (Skips : List Byte → Prop) : Prop :=
  Headed x → Unstamped Skips x ∧
    ((∀ c b, Opening c → Unstamped Skips (x ++ tab :: c :: b)) ↔ Stamped (x ++ [tab]) ∨ ¬ Time x)

theorem converter_exactly {Skips : List Byte → Prop} (h : Converter Skips) (x : List Byte) : Exactly x Skips := by
  refine fun hx => ⟨fun _ => ?_, fun hall => ?_, fun hx' c b hopen hno => ?_⟩
  · by_contra hskip
    obtain ⟨y, c, b, -, hopen, rfl⟩ := not_skipped h x hskip
    exact hx y c b rfl hopen
  · by_contra hcon
    obtain ⟨hstamp, htime⟩ := not_or.mp hcon
    obtain ⟨n, g, hloose, htime⟩ := not_not.mp htime
    obtain ⟨c, b, hopen, hgoes⟩ := h.goes_on _ htime
    refine hgoes _ (loose_reads n g x hloose (c :: b) fun e he => ?_)
      (hall c b hopen fun h => hstamp ((stamped_behind x (c :: b)).mp h))
    rw [List.head?_cons, Option.mem_some_iff] at he
    rw [← he]
    exact hopen
  · by_contra hskip
    obtain ⟨y, c', b', htime, hopen', heq⟩ := not_skipped h _ hskip
    have hy : Headed y := by
      obtain ⟨n, g, hloose, -⟩ := htime
      exact loose_headed n g y hloose
    obtain ⟨rfl, -⟩ := headed_unique x y _ _ hx hy ⟨c, b, rfl, hopen⟩ ⟨c', b', rfl, hopen'⟩ heq
    rcases hx' with hstamp | hnone
    · exact hno ((stamped_behind x (c :: b)).mpr hstamp)
    · exact hnone htime

/-! ## The converters -/

theorem json_part_none (countof : Nat) (o : Byte) (ho : Opening o) (line : List Byte)
    (h : (strtotv line).1 ≠ NOT_A_TIME → deref (strtotv line).2 = tab → ¬ Opening (deref (strtotv line).2.tail)) :
    json_part countof o line = none := by
  unfold json_part
  dsimp only
  by_cases htime : (strtotv line).1 = NOT_A_TIME
  · rw [if_pos htime]
  · rw [if_neg htime]
    by_cases htab : deref (strtotv line).2 = tab
    · have hne : deref (strtotv line).2.tail ≠ o := fun he => h htime htab (he ▸ ho)
      rw [if_neg (not_not.mpr htab), if_pos hne]
    · rw [if_pos htab]

theorem json_part_some (countof : Nat) (line on : List Byte) (t : tv_t) (ts : List jsmntok_t) (r : Int)
    (hline : strtotv line = (t, tab :: on)) (ht : t ≠ NOT_A_TIME) (hparse : jsmn_parse countof on = (r, ts))
    (hr : 0 < r) : json_part countof (deref on) line = some (t, on, ts) := by
  unfold json_part
  simp only [hline, deref_cons, List.tail_cons, hparse]
  rw [if_neg ht, if_neg (fun h => h rfl), if_neg (fun h => h rfl), if_neg (by omega), if_neg (by omega)]

/-- `bitfin2b` fails, prints nothing, and no channel changes. -/
def Bitfin2b.Skips (line : List Byte) : Prop :=
  ∀ p wild, (Bitfin2b.procln p wild line).2 = Bitfin2b.failed ∧
    (Bitfin2b.procln p wild line).1.subins = p.subins ∧ (Bitfin2b.procln p wild line).1.subtys = p.subtys

/-- `plx2b` fails, prints nothing, and no subscription changes. -/
def Plx2b.Skips (line : List Byte) : Prop := ∀ p old, Plx2b.procln p old line = (p, ⟨-1, []⟩)

def Coin2b.Skips (line : List Byte) : Prop := ∀ old, Coin2b.procln old line = ⟨-1, []⟩

def Hit2b.Skips (line : List Byte) : Prop := ∀ old, Hit2b.procln old line = ⟨-1, []⟩

/-- The confirmation of a subscription. -/
def confirmation : List Byte := Bitfin2b.sbok ++ ascii "7,\"pair\":\"X\"\x7d"

theorem Bitfin2b.converter : Converter Bitfin2b.Skips where
  skips line h p wild := by
    unfold Bitfin2b.procln
    dsimp only
    by_cases htime : (strtotv line).1 = NOT_A_TIME
    · rw [if_pos htime]
      exact ⟨rfl, rfl, rfl⟩
    · rw [if_neg htime]
      by_cases htab : deref (strtotv line).2 = tab
      · obtain ⟨hbrace, hbracket⟩ := not_or.mp (h htime htab)
        rw [if_neg (not_not.mpr htab), if_neg hbrace, if_neg hbracket]
        exact ⟨rfl, rfl, rfl⟩
      · rw [if_pos htab]
        exact ⟨rfl, rfl, rfl⟩
  goes_on t ht := by
    refine ⟨chr '{', confirmation, Or.inl rfl, fun line hline hskips => ?_⟩
    have hret := congrArg Bitfin2b.Printed.ret (hskips Bitfin2b.init []).1
    unfold Bitfin2b.procln at hret
    simp only [hline, deref_cons, List.tail_cons] at hret
    rw [if_neg ht, if_neg (fun h => h rfl), if_pos trivial] at hret
    have hfree : ∀ p : Bitfin2b.Processor, (Bitfin2b.subscr p confirmation).2.ret = 0 := by
      intro p
      have hpair : Xmemmem.xmemmem (confirmation.drop Bitfin2b.sbok.length) Bitfin2b.pair = some 2 := by decide
      have hname : upto (chr '"') ((confirmation.drop Bitfin2b.sbok.length).drop (2 + Bitfin2b.pair.length)).tail =
          some (ascii "X", ascii "\x7d") := by decide
      unfold Bitfin2b.subscr Bitfin2b.subscr_chan
      rw [if_neg (by decide), if_pos (by decide)]
      simp only [hpair]
      rw [if_neg (by decide), hname]
    rw [hfree] at hret
    cases hret

theorem Plx2b.dispatch_ret (p : Plx2b.Processor) (t t' : tv_t) (r : Nat) (env : (c : Cell) → c.Ans) :
    ((Plx2b.dispatch p t r).eval env).2.ret = ((Plx2b.dispatch p t' r).eval env).2.ret := by
  unfold Plx2b.dispatch
  simp only [Query.eval_bind, apply_ite (Query.eval env), Query.eval_pure,
    apply_ite (fun o : Plx2b.Processor × Output => o.2.ret)]

theorem Plx2b.converter : Converter Plx2b.Skips where
  skips line h p old := by
    unfold Plx2b.procln
    rw [json_part_none _ _ (Or.inr rfl) line h]
  goes_on t ht := by
    refine ⟨chr '[', ascii "1]", Or.inr rfl, fun line hline hskips => ?_⟩
    have hret := congrArg (fun r => r.2.ret) (hskips Plx2b.init blank)
    have hpart := json_part_some Plx2b.countof line (chr '[' :: ascii "1]") t
      [⟨.JSMN_ARRAY, 0, 3, 1, npos⟩, ⟨.JSMN_PRIMITIVE, 1, 2, 0, 0⟩] 2 hline ht (by decide) (by decide)
    unfold Plx2b.procln at hret
    rw [deref_cons] at hpart
    rw [hpart] at hret
    dsimp only at hret
    rw [Plx2b.dispatch_ret Plx2b.init t 0] at hret
    exact absurd hret (by decide +kernel)

theorem Coin2b.process_ret (t t' : tv_t) (r : Nat) (env : (c : Cell) → c.Ans) :
    ((Coin2b.process t r).eval env).ret = ((Coin2b.process t' r).eval env).ret := by
  unfold Coin2b.process
  simp only [Query.eval_bind, apply_ite (Query.eval env), Query.eval_pure, apply_ite Output.ret]
  cases (Coin2b.fill r r Coin2b.Beef.zero 1).eval env with
  | none => rfl
  | some beef =>
    simp only [Query.eval_bind, apply_ite (Query.eval env), Query.eval_pure, apply_ite Output.ret]

theorem Coin2b.converter : Converter Coin2b.Skips where
  skips line h old := by
    unfold Coin2b.procln
    rw [json_part_none _ _ (Or.inl rfl) line h]
  goes_on t ht := by
    refine ⟨chr '{', ascii "\x7d", Or.inl rfl, fun line hline hskips => ?_⟩
    have hret := congrArg Output.ret (hskips blank)
    have hpart := json_part_some Coin2b.countof line (chr '{' :: ascii "\x7d") t
      [⟨.JSMN_OBJECT, 0, 2, 0, npos⟩] 1 hline ht (by decide) (by decide)
    unfold Coin2b.procln at hret
    rw [deref_cons] at hpart
    rw [hpart] at hret
    dsimp only at hret
    rw [Coin2b.process_ret t 0] at hret
    exact absurd hret (by decide +kernel)

theorem Hit2b.process_ret (t t' : tv_t) (r : Nat) (env : (c : Cell) → c.Ans) :
    ((Hit2b.process t r).eval env).ret = ((Hit2b.process t' r).eval env).ret := by
  unfold Hit2b.process
  simp only [Query.eval_bind, apply_ite (Query.eval env), Query.eval_pure, apply_ite Output.ret]

/-- An increment with a time stamp and nothing else. -/
def increment : List Byte := ascii "\"MarketDataIncrementalRefresh\":\x7b\"timestamp\":1\x7d\x7d"

theorem Hit2b.converter : Converter Hit2b.Skips where
  skips line h old := by
    unfold Hit2b.procln
    rw [json_part_none _ _ (Or.inl rfl) line h]
  goes_on t ht := by
    refine ⟨chr '{', increment, Or.inl rfl, fun line hline hskips => ?_⟩
    have hret := congrArg Output.ret (hskips blank)
    have hpart := json_part_some Hit2b.countof line (chr '{' :: increment) t
      [⟨.JSMN_OBJECT, 0, 48, 1, npos⟩, ⟨.JSMN_STRING, 2, 30, 1, 0⟩, ⟨.JSMN_OBJECT, 32, 47, 1, 1⟩,
        ⟨.JSMN_STRING, 34, 43, 1, 2⟩, ⟨.JSMN_PRIMITIVE, 45, 46, 0, 3⟩] 5 hline ht (by decide +kernel) (by decide)
    unfold Hit2b.procln at hret
    rw [deref_cons] at hpart
    rw [hpart] at hret
    dsimp only at hret
    rw [Hit2b.process_ret t 0] at hret
    exact absurd hret (by decide +kernel)

/-! ## Lines -/

/-- A line is skipped for want of a stamp unless there is something else in front of the document that
is taken for a time. -/
theorem unstamped_skipped (x : List Byte) :
    Exactly x Bitfin2b.Skips ∧ Exactly x Plx2b.Skips ∧ Exactly x Coin2b.Skips ∧ Exactly x Hit2b.Skips :=
  ⟨converter_exactly Bitfin2b.converter x, converter_exactly Plx2b.converter x, converter_exactly Coin2b.converter x,
    converter_exactly Hit2b.converter x⟩

theorem word_headed : Headed (ascii "x") := by
  intro a c b h
  have hmem : tab ∈ ascii "x" := by
    rw [h]
    simp
  exact absurd hmem (by decide)

theorem word_no_time : ¬ Time (ascii "x") := by
  rintro ⟨n, g, ⟨hn, -, hx⟩, -⟩
  rcases hx with ⟨rfl, -⟩ | hx
  · rcases hn with hn | ⟨w, sg, ds, h, -, -, hne, hds⟩
    · exact absurd hn (by decide)
    · obtain ⟨d, hd⟩ := List.exists_mem_of_ne_nil ds hne
      have hmem : d ∈ ascii "x" := by
        rw [h]
        exact List.mem_append_right _ hd
      have hsame : d = chr 'x' := List.mem_singleton.mp hmem
      exact absurd (hds d hd) (by rw [hsame]; decide)
  · have hmem : chr '.' ∈ ascii "x" := by
      rw [hx]
      simp
    exact absurd hmem (by decide)

/-- A word in front of the tab is no stamp. -/
theorem unstamped_skipped_word :
    Unstamped Coin2b.Skips (ascii "x") ∧
      ∀ c b, Opening c → Unstamped Coin2b.Skips (ascii "x" ++ tab :: c :: b) := by
  obtain ⟨hline, hdoc⟩ := (unstamped_skipped (ascii "x")).2.2.1 word_headed
  exact ⟨hline, hdoc.mpr (Or.inr word_no_time)⟩

/-- A tab and a document, with nothing in front. -/
def headless : List Byte := tab :: chr '{' :: ascii "\"size\":\"1\"\x7d"

/-- `coin2b` prints a record for a line that begins with the tab. -/
theorem headless_printed :
    ¬ (∀ line, ¬ Stamped line → Coin2b.Skips line) ∧ (Coin2b.procln blank headless).out ≠ [] := by
  have hout : (Coin2b.procln blank headless).out ≠ [] := by decide +kernel
  refine ⟨fun hall => ?_, hout⟩
  have hno : ¬ Stamped headless := by
    rintro ⟨x, rest, ⟨ds, f, rfl, hne, hds, -⟩, h⟩
    cases ds with
    | nil => exact hne rfl
    | cons d ds =>
      unfold headless at h
      rw [List.cons_append, List.cons_append, List.cons.injEq] at h
      exact absurd (hds d (List.mem_cons_self)) (by rw [← h.1]; decide)
  rw [hall headless hno blank] at hout
  exact hout rfl

end Coins.Quotes
