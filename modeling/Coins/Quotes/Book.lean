import Coins.Quotes.Channels

/-!
# Books of `bitfin2b`

A book event has one price level or a list of them. `evtbok` prints a level with the count 0 as it
comes across it, but it neither looks at its quantity nor goes past it.
-/

open Coins.Numeral

namespace Coins.Quotes.Bitfin2b

open btf_side_t btf_subt_t

/-- A price level, with its amount in two parts. -/
structure Level where
  price : List Byte
  count : List Byte
  neg : Bool
  amount : List Byte
  priced : chr ',' ∉ price ∧ price.head? ≠ some (chr '[')
  counted : count ≠ [] ∧ ∀ b ∈ count, isDigit 10 b = true
  sized : amount ≠ [] ∧ chr ',' ∉ amount ∧ chr ']' ∉ amount ∧ amount.head? ≠ some (chr '-')

namespace Level

def text (l : Level) : List Byte :=
  l.price ++ chr ',' :: (l.count ++ chr ',' :: ((if l.neg then [chr '-'] else []) ++ l.amount ++ [chr ']']))

def vacant (l : Level) : Bool := digitsVal 10 l.count = 0

/-- The record that a level has to give. -/
def record (lab : List Byte) (l : Level) : List Byte :=
  lab ++ [if l.neg then chr 'A' else chr 'B', chr '2', tab] ++ l.price ++ [tab] ++
    (if l.vacant then ascii "0" else l.amount) ++ [nl]

end Level

/-- What is behind the channel id of a book event. -/
inductive Book
  | update (l : Level)
  | bracketed (l : Level)
  | snapshot (ls : List Level)

def Book.levels : Book → List Level
  | update l => [l]
  | bracketed l => [l]
  | snapshot ls => ls

/-- Levels in a list, from the first one's price on, and what is behind them. -/
def listed : List Level → List Byte → List Byte
  | [], t => t
  | [l], t => l.text ++ t
  | l :: ls, t => l.text ++ chr ',' :: chr '[' :: listed ls t

def Book.text : Book → List Byte
  | update l => l.text
  | bracketed l => chr '[' :: (l.text ++ [chr ']'])
  | snapshot [] => ascii "[]]"
  | snapshot (l :: ls) => ascii "[[" ++ listed (l :: ls) (ascii "]]")

/-- No level is vacant but the last one, and that only if the quantity in front of it is 0. -/
def Served : List Byte → List Level → Prop
  | _, [] => True
  | q, l :: ls => if l.vacant = true then q = ascii "0" ∧ ls = [] else Served l.amount ls

/-! ## One level -/

/-- The record of a level, with its quantity. -/
def Level.with (lab : List Byte) (l : Level) (q : List Byte) : List Byte :=
  lab ++ [if l.neg then chr 'A' else chr 'B', chr '2', tab] ++ l.price ++ [tab] ++ q ++ [nl]

theorem Level.with_inj (lab : List Byte) (l : Level) (q q' : List Byte) :
    l.with lab q = l.with lab q' ↔ q = q' := by
  unfold Level.with
  constructor
  · intro h
    exact List.append_cancel_left (List.append_cancel_right h)
  · rintro rfl
    rfl

theorem vacant_iff (l : Level) (t : Byte) (rest : List Byte) (ht : isDigit 10 t = false) :
    (strtoul 10 (l.count ++ t :: rest)).stop = l.count.length ∧
      ((strtoul 10 (l.count ++ t :: rest)).val > 0 ↔ l.vacant = false) := by
  have h := strtoul_number 10 (by omega) [] l.count t rest (by simp) l.counted.2 l.counted.1 ht (by simp)
  simp only [List.nil_append, List.length_nil, Nat.zero_add] at h
  rw [h]
  refine ⟨rfl, ?_⟩
  unfold Level.vacant
  rw [decide_eq_false_iff_not]
  simp only [gt_iff_lt]
  split
  · have : 0 < ulongMax := by decide
    omega
  · omega

theorem level_spec (lab q : List Byte) (l : Level) (t : List Byte) :
    level lab q (l.text ++ t) =
      if l.vacant = true then some (l.with lab q, q, l.amount ++ chr ']' :: t)
      else some (l.with lab l.amount, l.amount, t) := by
  obtain ⟨hstop, hval⟩ := vacant_iff l (chr ',')
    ((if l.neg then [chr '-'] else []) ++ l.amount ++ chr ']' :: t) (by decide)
  have htext : l.text ++ t = l.price ++ chr ',' :: (l.count ++ chr ',' ::
      ((if l.neg then [chr '-'] else []) ++ l.amount ++ chr ']' :: t)) := by
    unfold Level.text
    simp
  have hplain : deref (l.amount ++ chr ']' :: t) ≠ chr '-' := by
    obtain ⟨a, as, ha⟩ := List.exists_cons_of_ne_nil l.sized.1
    have hne := l.sized.2.2.2
    rw [ha] at hne ⊢
    intro h
    exact hne (congrArg some h)
  unfold level
  rw [htext, upto_some _ _ _ l.priced.1]
  simp only [hstop, List.drop_left, deref_cons, ne_eq, not_true_eq_false, if_false, List.tail_cons]
  have hside : deref ((if l.neg then [chr '-'] else []) ++ l.amount ++ chr ']' :: t) = chr '-' ↔ l.neg = true := by
    cases l.neg with
    | true => exact ⟨fun _ => rfl, fun _ => rfl⟩
    | false => exact ⟨fun h => absurd h hplain, fun h => by cases h⟩
  have hamount : upto (chr ']') (l.amount ++ chr ']' :: t) = some (l.amount, t) :=
    upto_some _ _ _ l.sized.2.2.1
  have hB : (SIDE_TRA.val - SIDE_BID.val) ^^^ chr '@' = chr 'B' := by decide
  have hA : (SIDE_TRA.val - SIDE_ASK.val) ^^^ chr '@' = chr 'A' := by decide
  simp only [hside, hval]
  unfold Level.with
  cases l.neg with
  | true =>
    simp only [if_true, List.cons_append, List.nil_append, List.tail_cons, hamount, hA]
    cases l.vacant <;> rfl
  | false =>
    simp only [Bool.false_eq_true, if_false, List.nil_append, reduceCtorEq, hamount, hB]
    cases l.vacant <;> rfl

/-! ## All levels -/

/-- What is printed of levels: up to the first vacant one, which gets the quantity in front of it. -/
def printedBy (lab : List Byte) : List Byte → List Level → List (List Byte)
  | _, [] => []
  | q, l :: ls => if l.vacant = true then [l.with lab q] else l.with lab l.amount :: printedBy lab l.amount ls

theorem amount_stops (l : Level) (t : List Byte) : deref (l.amount ++ chr ']' :: t) ≠ chr ',' := by
  obtain ⟨a, as, ha⟩ := List.exists_cons_of_ne_nil l.sized.1
  have hne := l.sized.2.1
  rw [ha] at hne ⊢
  intro h
  exact hne (h ▸ List.mem_cons_self ..)

theorem levels_spec (lab : List Byte) (fuel : Nat) (q : List Byte) (l : Level) (ls : List Level)
    (t : List Byte) (ht : deref t ≠ chr ',') (hfuel : ls.length < fuel) :
    (levels lab fuel q (listed (l :: ls) t)).out = printedBy lab q (l :: ls) := by
  induction fuel generalizing q l ls with
  | zero => omega
  | succ fuel ih =>
    unfold levels printedBy
    cases ls with
    | nil =>
      have hlisted : listed [l] t = l.text ++ t := rfl
      rw [hlisted, level_spec]
      cases l.vacant with
      | true =>
        simp only [if_true]
        rw [if_neg fun h => amount_stops l t h.1]
      | false =>
        simp only [Bool.false_eq_true, if_false]
        rw [if_neg fun h => ht h.1]
        rfl
    | cons l' ls =>
      have hlisted : listed (l :: l' :: ls) t = l.text ++ chr ',' :: chr '[' :: listed (l' :: ls) t := rfl
      rw [hlisted, level_spec]
      cases l.vacant with
      | true =>
        simp only [if_true]
        rw [if_neg fun h => amount_stops l _ h.1]
      | false =>
        simp only [Bool.false_eq_true, if_false, deref_cons, List.tail_cons, and_self, if_true]
        rw [ih l.amount l' ls (by rw [List.length_cons] at hfuel; omega)]

theorem printed_served (lab q : List Byte) (ls : List Level) :
    printedBy lab q ls = ls.map (Level.record lab) ↔ Served q ls := by
  have hrecord : ∀ l : Level, l.record lab = l.with lab (if l.vacant then ascii "0" else l.amount) :=
    fun _ => rfl
  induction ls generalizing q with
  | nil => exact ⟨fun _ => trivial, fun _ => rfl⟩
  | cons l ls ih =>
    unfold printedBy Served
    rw [List.map_cons, hrecord]
    cases hv : l.vacant with
    | true =>
      simp only [if_true]
      rw [List.cons.injEq, l.with_inj, eq_comm (a := []), List.map_eq_nil_iff]
    | false =>
      simp only [Bool.false_eq_true, if_false]
      rw [List.cons.injEq]
      exact (and_iff_right rfl).trans (ih l.amount)

/-! ## Book events -/

theorem listed_append (ls : List Level) (t u : List Byte) : listed ls t ++ u = listed ls (t ++ u) := by
  induction ls with
  | nil => rfl
  | cons l ls ih =>
    cases ls with
    | nil => exact List.append_assoc _ _ _
    | cons l' ls =>
      unfold listed
      rw [List.append_assoc, List.cons_append, List.cons_append, ih]

theorem length_le_listed (ls : List Level) (t : List Byte) : ls.length ≤ (listed ls t).length := by
  induction ls with
  | nil => exact Nat.zero_le _
  | cons l ls ih =>
    have htext : 1 ≤ l.text.length := by
      unfold Level.text
      rw [List.length_append, List.length_cons]
      omega
    cases ls with
    | nil =>
      unfold listed
      rw [List.length_append, List.length_singleton]
      omega
    | cons l' ls =>
      unfold listed
      simp only [List.length_append, List.length_cons] at ih ⊢
      omega

theorem evtbok_listed (p : Processor) (ci : btf_chid_t) (l : Level) (ls : List Level) (t : List Byte)
    (ht : deref t ≠ chr ',') :
    (evtbok p (listed (l :: ls) t) ci).out = printedBy (label p ci) (ascii "0") (l :: ls) := by
  have hlen := length_le_listed (l :: ls) t
  rw [List.length_cons] at hlen
  exact levels_spec (label p ci) _ _ l ls t ht (by omega)

theorem level_unopened (l : Level) (t : List Byte) : deref (l.text ++ t) ≠ chr '[' := by
  have hne := l.priced.2
  unfold Level.text
  cases hp : l.price with
  | nil => exact (by decide : chr ',' ≠ chr '[')
  | cons b bs =>
    rw [hp] at hne
    intro h
    exact hne (congrArg some h)

theorem book_printed (p : Processor) (wild : List Byte) (c : ChanId) (b : Book) (rest : List Byte)
    (hbook : p.subtys (UInt8.ofNat c.val) = SUBT_BOK) (hrest : chr ',' ∉ rest) :
    (events p wild (c.digits ++ chr ',' :: (b.text ++ rest))).out =
      printedBy (label p (UInt8.ofNat c.val)) (ascii "0") b.levels := by
  have hends : deref rest ≠ chr ',' := by
    cases rest with
    | nil => exact (by decide : (0 : Byte) ≠ chr ',')
    | cons r rs => exact fun h => hrest (h ▸ List.mem_cons_self ..)
  unfold events
  rw [c.scan (chr ',') _ (by decide)]
  simp only [List.drop_left, deref_cons, ne_eq, not_true_eq_false, if_false, hbook, List.tail_cons]
  cases b with
  | update l =>
    have hopen := level_unopened l rest
    have htext : (Book.update l).text = l.text := rfl
    rw [htext, if_neg hopen]
    exact evtbok_listed p _ l [] rest hends
  | bracketed l =>
    have hopen := level_unopened l ([chr ']'] ++ rest)
    have htext : (Book.bracketed l).text ++ rest = chr '[' :: (l.text ++ ([chr ']'] ++ rest)) := by
      simp [Book.text]
    simp only [htext, deref_cons, if_true, List.tail_cons, if_neg hopen]
    have hend : deref ([chr ']'] ++ rest) = chr ']' := rfl
    exact evtbok_listed p _ l [] _ (by rw [hend]; decide)
  | snapshot ls =>
    cases ls with
    | nil =>
      -- no comma, no level
      have hnone : upto (chr ',') (chr ']' :: chr ']' :: rest) = none := by
        have hr : upto (chr ',') rest = none := upto_none (chr ',') rest hrest
        unfold upto
        rw [if_neg (by decide), upto, if_neg (by decide), hr]
        rfl
      have htext : (Book.snapshot []).text ++ rest = chr '[' :: chr ']' :: chr ']' :: rest := rfl
      simp only [htext, deref_cons, if_true, List.tail_cons, if_neg (by decide : ¬ chr ']' = chr '[')]
      unfold evtbok levels level
      simp only [hnone]
      rfl
    | cons l ls =>
      have htext : (Book.snapshot (l :: ls)).text ++ rest =
          chr '[' :: chr '[' :: listed (l :: ls) (ascii "]]" ++ rest) := by
        have hopen : ascii "[[" = [chr '[', chr '['] := by decide
        unfold Book.text
        rw [List.append_assoc, listed_append, hopen]
        rfl
      simp only [htext, deref_cons, if_true, List.tail_cons]
      have hend : deref (ascii "]]" ++ rest) = chr ']' := rfl
      exact evtbok_listed p _ l ls _ (by rw [hend]; decide)

/-- A book event is printed level by level, if and only if it is served. -/
theorem book_levels (p : Processor) (wild : List Byte) (c : ChanId) (b : Book) (rest : List Byte)
    (hbook : p.subtys (UInt8.ofNat c.val) = SUBT_BOK) (hrest : chr ',' ∉ rest) :
    (events p wild (c.digits ++ chr ',' :: (b.text ++ rest))).out =
        b.levels.map (Level.record (label p (UInt8.ofNat c.val))) ↔
      Served (ascii "0") b.levels := by
  rw [book_printed p wild c b rest hbook hrest]
  exact printed_served _ _ _

/-! ## Three levels -/

/-- A processor for which every channel is a book. -/
def books : Processor := { init with subtys := fun _ => SUBT_BOK }

def six : ChanId := ⟨ascii "6", by decide, by decide, by decide⟩

def bid (count : List Byte) (h : count ≠ [] ∧ ∀ b ∈ count, isDigit 10 b = true) : Level where
  price := ascii "430.5"
  count := count
  neg := false
  amount := ascii "2"
  priced := by decide
  counted := h
  sized := by decide

def ask : Level where
  price := ascii "431"
  count := ascii "3"
  neg := true
  amount := ascii "0.5"
  priced := by decide
  counted := by decide
  sized := by decide

theorem book_levels_two :
    let b := Book.snapshot [bid (ascii "1") (by decide), ask]
    (events books [] (six.digits ++ chr ',' :: (b.text ++ [nl]))).out =
        b.levels.map (Level.record (label books (UInt8.ofNat six.val))) ↔
      Served (ascii "0") b.levels :=
  book_levels books [] six (.snapshot [bid (ascii "1") (by decide), ask]) [nl] rfl (by decide)

/-- Behind a level that is removed nothing is printed, and a level removed behind another one gets
its quantity. -/
theorem removal_misprinted :
    let zero := bid (ascii "0") (by decide)
    let printed := fun ls => (events books [] (six.digits ++ chr ',' :: ((Book.snapshot ls).text ++ [nl]))).out
    printed [zero, ask] = [zero.record (label books 5)] ∧
      printed [ask, zero] ≠ [ask, zero].map (Level.record (label books 5)) := by
  decide +kernel

end Coins.Quotes.Bitfin2b
