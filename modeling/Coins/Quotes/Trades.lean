import Coins.Lib.Lines
import Coins.Quotes.Bitfin2b
import Coins.Quotes.Tokens

/-!
# Trades of `bitfin2b`

`evttra` with its pointers into the line and its buffer of 256 bytes. The loop over the commas leaves `pr` as it
was, which is not set, when there is none.
-/

open Coins.Lines Coins.Numeral Coins.Questions

namespace Coins.Quotes.Bitfin2b.Trades

/-! ## The code -/

/-- `for (char *x; (x = memchr(on, ',', eol - on)); pr = on, on = x + 1U)`: `pr`, if it is set, and `on`. -/
def last_comma (eol : Int) : Nat → Option Int → Int → Prog (Option Int × Int)
  | 0, pr, on => pure (pr, on)
  | fuel + 1, pr, on => do
    match ← Query.first byte_at (chr ',') on (eol - on).toNat with
    | none => pure (pr, on)
    | some x => last_comma eol fuel (some on) (x + 1)

/-- The `on - pr - 1` bytes at `pr`. -/
def price (on : Int) : Option Int → Prog (List Byte)
  | none => Query.get Cell.null
  | some pr => bytes pr (on - pr - 1).toNat

/-- From where everything is set for printing. -/
def print (lab : List Byte) (pr : Option Int) (on eol : Int) : Prog Printed := do
  let buf ← memncpy [] lab
  let buf ← memncpy buf [if (← byte_at on) = chr '-' then chr 'S' else chr 'T', chr '0', tab]
  let buf ← memncpy buf (← price on pr)
  let buf ← memncpy buf [tab]
  let on := if (← byte_at on) = chr '-' then on + 1 else on
  let buf ← memncpy buf (← bytes on (eol - on).toNat)
  let buf ← memncpy buf [nl]
  pure ⟨0, [buf]⟩

/-- `pr`, `on` and the last `eol`, if the line is taken for a trade. It is what is behind the channel id, up to the
first `eol`. -/
def find (eol : Nat) : Prog (Option (Option Int × Int × Int)) := do
  if ← memcmp_at 0 (ascii "\"te\"") then pure none else
  let (pr, on) ← last_comma eol (eol + 1) none 0
  match ← Query.first byte_at (chr ']') on (eol - on).toNat with
  | none => pure none
  | some eol => pure (some (pr, on, eol))

def evttra (p : Processor) (eol : Nat) (ci : btf_chid_t) : Prog Printed := do
  match ← find eol with
  | none => pure failed
  | some (pr, on, eol) => print (label p ci) pr on eol

/-! ## The pieces of a line -/

/-- The quantity has its sign for the side. -/
def side (q : List Byte) : Byte := if deref q = chr '-' then chr 'S' else chr 'T'

def unsigned (q : List Byte) : List Byte := if deref q = chr '-' then q.tail else q

def record (lab price q : List Byte) : List Byte :=
  lab ++ [side q, chr '0', tab] ++ price ++ [tab] ++ unsigned q ++ [nl]

/-- The last two elements of the array, up to the first bracket behind the last comma. -/
def Trade (l price q : List Byte) : Prop :=
  ∃ a s, l = a ++ chr ',' :: price ++ chr ',' :: q ++ chr ']' :: s ∧ ascii "\"te\"" <+: a ∧
    chr ',' ∉ price ∧ chr ',' ∉ q ∧ chr ',' ∉ s ∧ chr ']' ∉ q

/-- What is behind the last comma. -/
def behind (l : List Byte) : List Byte := rest (chr ',') l

/-- The element in front of the last comma. -/
def before (l : List Byte) : Option (List Byte) := (lines (chr ',') l).getLast?

/-- What is from there up to the first bracket. -/
def amount (l : List Byte) : List Byte := (lines (chr ']') (behind l)).headD []

section
variable {l : List Byte}

theorem behind_length : (behind l).length ≤ l.length := rest_length_le l

/-! ## The loop -/

theorem shows_line (k : Nat) {t : List Byte} (h : l.drop k = t) : Query.Shows (known l []) byte_at k t := by
  intro j x hx
  rw [← h, List.getElem?_drop] at hx
  have hlt := (List.getElem?_eq_some_iff.mp hx).1
  rw [← Int.natCast_add, run_byte_at, List.getElem?_append_left hlt, hx]

theorem run_last_comma (fuel k : Nat) (pr : Option Int) (t : List Byte) (hdrop : l.drop k = t) (hk : k ≤ l.length)
    (hfuel : t.length < fuel) :
    Query.run (known l []) (last_comma l.length fuel pr k) =
      some (((before t).map fun a => (l.length : Int) - (behind t).length - 1 - a.length).or pr,
        (l.length : Int) - (behind t).length) := by
  induction fuel generalizing k pr t with
  | zero => omega
  | succ fuel ih =>
    have hlen := congrArg List.length hdrop
    rw [List.length_drop] at hlen
    have hn : ((l.length : Int) - k).toNat = t.length := by omega
    unfold last_comma
    rw [hn]
    rcases line_cases (chr ',') t with hno | ⟨a, u, rfl, ha, -⟩
    · have hb : before t = none := by
        unfold before
        rw [lines_of_not_mem t hno]
        rfl
      have hr : behind t = t := rest_of_not_mem t hno
      rw [Query.run_then _ (Query.run_first_none t (shows_line k hdrop) hno), hb, hr]
      simp only [Option.map_none, Option.none_or, Query.run_pure]
      congr 2
      omega
    · have hfirst := Query.run_first a u (a ++ chr ',' :: u).length (shows_line k hdrop) ha (by simp)
      have hnext : l.drop (k + a.length + 1) = u := by
        rw [Nat.add_assoc, ← List.drop_drop, hdrop, List.append_cons, List.drop_left' (by simp)]
      rw [List.length_append, List.length_cons] at hlen hfuel
      have hr : behind (a ++ chr ',' :: u) = behind u := rest_line a u ha
      have hb : before (a ++ chr ',' :: u) = some ((before u).getD a) := by
        unfold before
        rw [lines_line a u ha, List.getLast?_cons]
      have hon : (k : Int) + a.length + 1 = ((k + a.length + 1 : Nat) : Int) := by omega
      rw [Query.run_then _ hfirst]
      simp only
      rw [hon, ih _ _ u hnext (by omega) (by omega), hr, hb]
      cases hu : before u with
      | some b => simp
      | none =>
        have hall : behind u = u := by
          have hnil : lines (chr ',') u = [] := List.getLast?_eq_none_iff.mp hu
          have hrest : (lines (chr ',') u).flatMap (· ++ [chr ',']) ++ rest (chr ',') u = u := lines_rest u
          rwa [hnil] at hrest
        simp only [Option.map_none, Option.none_or, Option.getD_none, Option.map_some, Option.some_or, hall]
        congr 3
        omega

/-! ## The record -/

theorem run_price (k : Nat) (a : List Byte) (u : List Byte) (hdrop : l.drop k = a ++ u) (hu : u ≠ []) :
    Query.run (known l []) (price ((k + a.length + 1 : Nat) : Int) (some k)) = some a := by
  have hlen := congrArg List.length hdrop
  have hpos := List.length_pos_iff.mpr hu
  rw [List.length_drop, List.length_append] at hlen
  have hn : (((k + a.length + 1 : Nat) : Int) - k - 1).toNat = a.length := by omega
  unfold price
  simp only
  rw [hn, run_bytes _ _ (by omega), List.drop_append_of_le_length (by omega), hdrop, List.append_assoc,
    List.take_left]

theorem run_sign (k : Nat) (q s : List Byte) (hdrop : l.drop k = q ++ chr ']' :: s) :
    ∃ c, Query.run (known l []) (byte_at k) = some c ∧ (c = chr '-' ↔ deref q = chr '-') := by
  have hshows := shows_line k hdrop
  cases q with
  | nil => exact ⟨chr ']', hshows.head, iff_of_false (by decide) (by decide)⟩
  | cons c q => exact ⟨c, hshows.head, Iff.rfl⟩

theorem run_amount (k : Nat) (q s : List Byte) (hdrop : l.drop k = q ++ chr ']' :: s) :
    Query.run (known l []) (bytes (if deref q = chr '-' then (k : Int) + 1 else k)
      (((k + q.length : Nat) : Int) - if deref q = chr '-' then (k : Int) + 1 else k).toNat) = some (unsigned q) := by
  have hlen := congrArg List.length hdrop
  rw [List.length_drop, List.length_append, List.length_cons] at hlen
  unfold unsigned
  by_cases hneg : deref q = chr '-'
  · rw [if_pos hneg, if_pos hneg]
    cases q with
    | nil => exact absurd hneg (by decide)
    | cons c q =>
      have hn : (((k + (c :: q).length : Nat) : Int) - (k + 1)).toNat = q.length := by
        rw [List.length_cons]
        omega
      have hon : (k : Int) + 1 = ((k + 1 : Nat) : Int) := by omega
      have htail : l.drop (k + 1) = q ++ chr ']' :: s := by
        rw [← List.drop_drop, hdrop]
        rfl
      rw [List.length_cons] at hlen
      rw [hn, hon, run_bytes _ _ (by omega), List.drop_append_of_le_length (by omega), htail, List.append_assoc,
        List.take_left]
      rfl
  · have hn : (((k + q.length : Nat) : Int) - k).toNat = q.length := by omega
    rw [if_neg hneg, if_neg hneg, hn, run_bytes _ _ (by omega), List.drop_append_of_le_length (by omega), hdrop,
      List.append_assoc, List.take_left]

theorem run_print (lab : List Byte) (pr : Option Int) (k : Nat) (q s : List Byte)
    (hdrop : l.drop k = q ++ chr ']' :: s) :
    Query.run (known l []) (print lab pr k (k + q.length : Nat)) =
      (Query.run (known l []) (price k pr)).bind fun a =>
        if (record lab a q).length ≤ 256 then some ⟨0, [record lab a q]⟩ else none := by
  obtain ⟨c, hbyte, hsign⟩ := run_sign k q s hdrop
  have hamount := run_amount k q s hdrop
  have hside : (if c = chr '-' then chr 'S' else chr 'T') = side q := if_congr hsign rfl rfl
  unfold print
  rw [run_memncpy_then, Query.run_then _ hbyte, run_memncpy_then, hside]
  cases hprice : Query.run (known l []) (price k pr) with
  | none =>
    rw [Query.run_bind, hprice]
    simp
  | some a =>
    rw [Query.run_then _ hprice, run_memncpy_then, run_memncpy_then, Query.run_then _ hbyte]
    simp only [hsign]
    rw [Query.run_then _ hamount, run_memncpy_then, run_memncpy_then, Option.bind_some]
    have hrec : [] ++ lab ++ [side q, chr '0', tab] ++ a ++ [tab] ++ unsigned q ++ [nl] = record lab a q := rfl
    rw [room_room (List.prefix_append _ _), room_room (List.prefix_append _ _), room_room (List.prefix_append _ _),
      room_room (List.prefix_append _ _), room_room (List.prefix_append _ _), hrec]
    rfl

/-! ## The whole function -/

theorem amount_split (h : chr ']' ∈ behind l) :
    chr ']' ∉ amount l ∧ ∃ s, behind l = amount l ++ chr ']' :: s := by
  obtain ⟨q, s, hsplit, hq⟩ := List.eq_append_cons_of_mem h
  have hamount : amount l = q := by
    unfold amount
    rw [hsplit, lines_line q s hq]
    rfl
  rw [hamount]
  exact ⟨hq, s, hsplit⟩

theorem before_split {a : List Byte} (h : before l = some a) :
    ∃ u, l = u ++ (a ++ chr ',' :: behind l) ∧ chr ',' ∉ a ∧
      (2 ≤ (lines (chr ',') l).length → ∃ v, u = v ++ [chr ',']) := by
  obtain ⟨ls, hls⟩ := List.getLast?_eq_some_iff.mp h
  have hrest : (lines (chr ',') l).flatMap (· ++ [chr ',']) ++ behind l = l := lines_rest l
  have hno : chr ',' ∉ a := not_mem_lines l a (by rw [hls]; simp)
  rw [hls] at hrest
  refine ⟨ls.flatMap (· ++ [chr ',']), ?_, hno, fun h2 => ?_⟩
  · conv => lhs; rw [← hrest]
    simp
  · rw [hls, List.length_append, List.length_singleton] at h2
    have hne : ls ≠ [] := by
      rintro rfl
      simp at h2
    obtain ⟨ms, m, rfl⟩ := (List.eq_nil_or_concat ls).resolve_left hne
    exact ⟨ms.flatMap (· ++ [chr ',']) ++ m, by simp⟩

theorem run_found {a : List Byte} (ha : before l = some a) (k : Nat) (hk : k + (behind l).length = l.length) :
    Query.run (known l []) (price k (some (k - 1 - a.length))) = some a := by
  obtain ⟨u, hu, -, -⟩ := before_split ha
  have hlen := congrArg List.length hu
  rw [List.length_append, List.length_append, List.length_cons] at hlen
  have hpr : (k : Int) - 1 - a.length = u.length := by omega
  have hku : (k : Int) = ((u.length + a.length + 1 : Nat) : Int) := by omega
  rw [hpr, hku]
  exact run_price u.length a (chr ',' :: behind l) ((congrArg (List.drop u.length) hu).trans List.drop_left)
    (by simp)

/-- The line begins with `"te"` and has a bracket behind its last comma. -/
def Closed (l : List Byte) : Prop := ascii "\"te\"" <+: l ∧ chr ']' ∈ behind l

instance (l : List Byte) : Decidable (Closed l) := by
  unfold Closed
  infer_instance

theorem run_find (k : Nat) (hk : k + (behind l).length = l.length) :
    Query.run (known l []) (find l.length) = some (if Closed l then
      some ((before l).map fun a => (k : Int) - 1 - a.length, (k : Int), ((k + (amount l).length : Nat) : Int))
        else none) := by
  have hcmp : Query.run (known l []) (memcmp_at (0 : Nat) (ascii "\"te\"")) = _ :=
    run_memcmp_at 0 (ascii "\"te\"") (Nat.zero_le l.length) (by decide)
  have hloop := run_last_comma (l.length + 1) 0 none l List.drop_zero (Nat.zero_le _) (by omega)
  have hon : (l.length : Int) - (behind l).length = k := by omega
  have hdrop : l.drop k = behind l := drop_rest l k hk
  have hn : ((l.length : Int) - k).toNat = (behind l).length := by omega
  rw [Int.natCast_zero, List.drop_zero] at hcmp
  rw [Int.natCast_zero, hon, Option.or_none] at hloop
  unfold find
  rw [Query.run_then _ hcmp]
  by_cases hte : ascii "\"te\"" <+: l
  · rw [if_neg (by simpa using hte), Query.run_then _ hloop]
    simp only
    rw [hn]
    by_cases hmem : chr ']' ∈ behind l
    · obtain ⟨hq, s, hsplit⟩ := amount_split hmem
      rw [hsplit] at hdrop
      have hfirst := Query.run_first (amount l) s (behind l).length (shows_line k hdrop) hq (by
        rw [hsplit, List.length_append, List.length_cons]
        omega)
      rw [Query.run_then _ hfirst, if_pos (show Closed l from ⟨hte, hmem⟩), Int.natCast_add]
      rfl
    · rw [Query.run_then _ (Query.run_first_none _ (shows_line k hdrop) hmem),
        if_neg (fun h : Closed l => hmem h.2)]
      rfl
  · rw [if_neg (fun h : Closed l => hte h.1), if_pos (by simpa using hte)]
    rfl

theorem behind_at (h : Closed l) :
    ∃ k s, k + (behind l).length = l.length ∧ l.drop k = amount l ++ chr ']' :: s := by
  have hle := behind_length (l := l)
  obtain ⟨-, s, hsplit⟩ := amount_split h.2
  refine ⟨l.length - (behind l).length, s, by omega, ?_⟩
  rw [← hsplit]
  exact drop_rest l _ (Nat.sub_add_cancel hle)

theorem run_evttra (p : Processor) (ci : btf_chid_t) (h : Closed l) :
    Query.run (known l []) (evttra p l.length ci) =
      (before l).bind fun a =>
        if (record (label p ci) a (amount l)).length ≤ 256 then some ⟨0, [record (label p ci) a (amount l)]⟩
        else none := by
  obtain ⟨k, s, hk, hdrop⟩ := behind_at h
  have hfind := run_find k hk
  rw [if_pos h] at hfind
  unfold evttra
  rw [Query.run_then _ hfind]
  simp only
  rw [run_print (label p ci) _ k (amount l) s hdrop]
  cases ha : before l with
  | none => rfl
  | some a =>
    rw [Option.map_some, run_found ha k hk]

theorem run_evttra_failed (p : Processor) (ci : btf_chid_t) (h : ¬ Closed l) :
    Query.run (known l []) (evttra p l.length ci) = some failed := by
  have hle := behind_length (l := l)
  have hfind := run_find (l.length - (behind l).length) (l := l) (by omega)
  rw [if_neg h] at hfind
  unfold evttra
  rw [Query.run_then _ hfind]
  rfl

/-! ## The function on texts -/

theorem last_comma_pieces (wild cur t : List Byte) (hcur : chr ',' ∉ cur) :
    Bitfin2b.last_comma wild cur t = ((before (cur ++ t)).getD wild, behind (cur ++ t)) := by
  induction t generalizing wild cur with
  | nil =>
    have hb : before cur = none := by
      unfold before
      rw [lines_of_not_mem cur hcur]
      rfl
    unfold Bitfin2b.last_comma
    rw [List.append_nil, hb, behind, rest_of_not_mem cur hcur]
    rfl
  | cons b t ih =>
    unfold Bitfin2b.last_comma
    by_cases hb : b = chr ','
    · rw [if_pos hb, ih cur [] List.not_mem_nil, hb, List.nil_append, before, before, behind, behind,
        lines_line cur t hcur, rest_line cur t hcur, List.getLast?_cons]
      cases (lines (chr ',') t).getLast? <;> rfl
    · rw [if_neg hb, ih wild (cur ++ [b]) (by simp [hcur, Ne.symm hb]), List.append_assoc, List.singleton_append]

theorem eval_print (lab : List Byte) (pr : Option Int) (k : Nat) (q s : List Byte)
    (hdrop : l.drop k = q ++ chr ']' :: s) (old : (c : Cell) → c.Ans) :
    (print lab pr k (k + q.length : Nat)).eval (memory l [] old) =
      ⟨0, [record lab ((price k pr).eval (memory l [] old)) q]⟩ := by
  obtain ⟨c, hbyte, hsign⟩ := run_sign k q s hdrop
  have hamount := eval_known (run_amount k q s hdrop) old
  have hside : (if c = chr '-' then chr 'S' else chr 'T') = side q := if_congr hsign rfl rfl
  unfold print
  simp only [memncpy, Query.eval_bind, Query.eval_pure, eval_known hbyte old, hside]
  simp only [hsign]
  rw [hamount]
  rfl

theorem eval_price (k : Nat) (hk : k + (behind l).length = l.length) (old : (c : Cell) → c.Ans) :
    (price k ((before l).map fun a => (k : Int) - 1 - a.length)).eval (memory l [] old) =
      (before l).getD (old .null) := by
  cases ha : before l with
  | none => rfl
  | some a => exact eval_known (run_found ha k hk) old

theorem evttra_eval (p : Processor) (ci : btf_chid_t) (old : (c : Cell) → c.Ans) :
    (evttra p l.length ci).eval (memory l [] old) = Bitfin2b.evttra p (old .null) l ci := by
  unfold Bitfin2b.evttra
  rw [last_comma_pieces (old .null) [] l List.not_mem_nil, List.nil_append]
  simp only
  by_cases h : Closed l
  · obtain ⟨k, s, hk, hdrop⟩ := behind_at h
    obtain ⟨hq, s', hsplit⟩ := amount_split h.2
    have hfind := run_find k hk
    rw [if_pos h] at hfind
    rw [if_neg (not_not.mpr h.1), hsplit, upto_some _ _ _ hq]
    unfold evttra
    rw [Query.eval_bind, eval_known hfind]
    simp only
    rw [eval_print (label p ci) _ k (amount l) s hdrop]
    have hneg : deref (amount l ++ chr ']' :: s') = chr '-' ↔ deref (amount l) = chr '-' := by
      cases amount l with
      | nil => exact iff_of_false (show ¬ chr ']' = chr '-' by decide) (by decide)
      | cons c q => exact Iff.rfl
    rw [eval_price k hk old]
    simp only [hneg]
    rfl
  · rw [eval_known (run_evttra_failed p ci h)]
    by_cases hte : ascii "\"te\"" <+: l
    · rw [if_neg (not_not.mpr hte), upto_none _ _ fun hmem => h ⟨hte, hmem⟩]
    · rw [if_pos hte]

end

/-! ## What is decoded -/

section
variable (p : Processor) (ci : btf_chid_t) (l : List Byte)

/-- Nothing is printed, or the trade that the line tells of, and no more is read for it than the line, and no
more written than the buffer. -/
def Traded : Prop :=
  ∀ old, let env := memory l [] old
    ((evttra p l.length ci).eval env = ⟨-1, []⟩ ∨
        ∃ price q, Trade l price q ∧ (evttra p l.length ci).eval env = ⟨0, [record (label p ci) price q]⟩) ∧
      ∀ c ∈ (evttra p l.length ci).asked env, (known l [] c).isSome = true

/-- An array that begins with `"te"` and has a bracket behind its last comma has two commas at least, and the
elements around the last one are not too long. -/
def Whole : Prop :=
  Closed l → 2 ≤ l.count (chr ',') ∧
    (label p ci).length + ((before l).getD []).length + (unsigned (amount l)).length + 5 ≤ 256

variable {p ci l}

theorem record_length (lab price q : List Byte) :
    (record lab price q).length = lab.length + price.length + (unsigned q).length + 5 := by
  unfold record
  simp only [List.length_append, List.length_cons, List.length_nil]
  omega

theorem prefix_piece {w a t : List Byte} (hw : chr ',' ∉ w) (h : w <+: a ++ chr ',' :: t) : w <+: a := by
  rw [List.append_cons] at h
  rcases List.prefix_or_prefix_of_prefix h (List.prefix_append _ _) with h | h
  · rcases List.prefix_concat_iff.mp h with rfl | h
    · exact absurd (by simp) hw
    · exact h
  · exact absurd (h.subset (by simp)) hw

theorem trade_of_commas (hclosed : Closed l) (h2 : 2 ≤ l.count (chr ','))
    {a : List Byte} (ha : before l = some a) : Trade l a (amount l) := by
  obtain ⟨hte, hmem⟩ := hclosed
  obtain ⟨u, hu, hno, hv⟩ := before_split ha
  obtain ⟨v, rfl⟩ := hv (by rwa [lines_length])
  obtain ⟨hq, s, hsplit⟩ := amount_split hmem
  have hbehind : chr ',' ∉ behind l := not_mem_rest l
  rw [hsplit] at hu hbehind
  have hl : l = v ++ chr ',' :: a ++ chr ',' :: amount l ++ chr ']' :: s := hu.trans (by simp)
  refine ⟨v, s, hl, ?_, hno, fun h => hbehind (by simp [h]), fun h => hbehind (by simp [h]), hq⟩
  rw [hl, List.append_assoc, List.append_assoc] at hte
  exact prefix_piece (by decide) hte

theorem Trade.commas {price q : List Byte} (h : Trade l price q) : 2 ≤ l.count (chr ',') := by
  obtain ⟨a, s, rfl, -⟩ := h
  simp only [List.count_append, List.count_cons_self]
  omega

end

theorem events_trade (p : Processor) (line : List Byte) (old : (c : Cell) → c.Ans)
    (hcomma : deref (line.drop (strtoul 10 line).stop) = chr ',')
    (hsub : p.subtys (UInt8.ofNat (strtoul 10 line).val) = btf_subt_t.SUBT_TRA) :
    let l := (line.drop (strtoul 10 line).stop).tail
    events p (old .null) line = (evttra p l.length (UInt8.ofNat (strtoul 10 line).val)).eval (memory l [] old) := by
  intro l
  rw [evttra_eval]
  unfold events
  simp only
  rw [if_neg (not_not.mpr hcomma), hsub]

end Coins.Quotes.Bitfin2b.Trades
