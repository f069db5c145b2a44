import Coins.Lib.History
import Coins.Quotes.Events

/-!
# The subscriptions of `plx2b`

Which instrument an id stands for, as the requests and the confirmations say it, and which records come
of an event.
-/

open Coins.Numeral Coins.Questions Coins.Forest Coins.History

namespace Coins.Quotes.Plx2b

open jsmntype_t

/-! ## Messages -/

/-- What `strtoprim` makes of a value. -/
def value (on : List Byte) (j : Json) : prim_t :=
  strtoprim (on.drop j.root.start) (j.root.end_ - j.root.start)

/-- The integer that a value says. -/
def number (on : List Byte) (j : Json) : Option Int :=
  if j.root.type = JSMN_PRIMITIVE then integer (span on j.root) else none

/-- An integer from 0 to 127. -/
def index (on : List Byte) (j : Json) : Option (Fin 128) :=
  (number on j).bind fun n => if h : 0 ≤ n ∧ n.toNat < 128 then some ⟨n.toNat, h.2⟩ else none

/-- What `strtoull` makes of an integer: there is a largest one, and from below 0 it goes on from above. -/
def wrapped (n : Int) : prim_t := if ulongMax < n.natAbs then NOT_A_PRIM else UInt64.ofNat (n % 2 ^ 64).toNat

/-- A line whose first element is a number. -/
structure Message (code : prim_t) extends Line countof (chr '[') where
  head : jsmntok_t
  first : jsmntok_t
  rest : List Json
  shape : root = .node head (.node first [] :: rest)
  head_array : head.type = JSMN_ARRAY
  first_number : first.type = JSMN_PRIMITIVE
  first_code : number on (.node first []) = some (code.toNat : Int)

/-- `[32, i, opts, "INS"]` -/
structure Request extends Message 32 where
  i : Json
  opts : Json
  ins : jsmntok_t
  elements : rest = [i, opts, .node ins []]
  i_leaf : i.root.type = JSMN_PRIMITIVE → i.kids = []
  ins_string : ins.type = JSMN_STRING

/-- `[33, i, s]` -/
structure Confirmation extends Message 33 where
  i : Json
  s : Json
  elements : rest = [i, s]
  i_leaf : i.root.type = JSMN_PRIMITIVE → i.kids = []

/-- `[36, s, ...]` -/
structure Event36 extends Message 36 where
  s : Json
  more : List Json
  elements : rest = s :: more

inductive Input
  | request (r : Request)
  | confirm (c : Confirmation)
  | event (e : Event36)

/-- A line, and what was in the memory before. -/
structure Fed where
  input : Input
  old : (c : Cell) → c.Ans

def Input.text : Input → List Byte
  | .request r => r.text
  | .confirm c => c.text
  | .event e => e.text

def after (h : List Fed) : Processor :=
  h.foldl (fun p f => (procln p f.old f.input.text).1) init

/-! ## What they mean -/

/-- The instrument of the latest request with an index, and the id it got since. -/
abbrev Table := Fin 128 → Option (List Byte × Option Int)

def Table.step (T : Table) : Input → Table
  | .request r =>
    match index r.on r.i with
    | some i => update T i (some ((span r.on r.ins).take 15, none))
    | none => T
  | .confirm c =>
    match index c.on c.i, number c.on c.s with
    | some i, some v => update T i ((T i).map fun e => (e.1, some v))
    | _, _ => T
  | .event _ => T

def table (h : List Fed) : Table := h.foldl (fun T f => T.step f.input) fun _ => none

/-- Records come of an event only if its id is bound, and under the name of its instrument. Nothing
comes of other lines. -/
def Attributed (T : Table) (x : Input) (out : List (List Byte)) : Prop :=
  match x with
  | .event e => out ≠ [] → ∃ i v ins, number e.on e.s = some v ∧ T i = some (ins, some v) ∧
      ∀ r ∈ out, tvtostr e.stamp.tv ++ [tab] ++ ins ++ [tab] <+: r
  | _ => out = []

/-- No integer below 0 is taken for an index. -/
def Straight (on : List Byte) (j : Json) : Prop :=
  ∀ n, number on j = some n → (wrapped n).toNat < 128 → 0 ≤ n

/-- The indices are what they say, and a request has no options. No event has an id that is no number, or is too
large, while another one of these is in the table. If an event has the id 0 the first 0 in the table has been
confirmed. And no index has another id which comes to the same for `strtoull`. -/
def Plain (p : Processor) (T : Table) (x : Input) : Prop :=
  match x with
  | .request r => Straight r.on r.i ∧ (index r.on r.i ≠ none → r.opts.kids = [])
  | .confirm c => Straight c.on c.i
  | .event e => e.s.root.type = JSMN_PRIMITIVE →
      ((number e.on e.s).elim NOT_A_PRIM wrapped = NOT_A_PRIM → ∀ i, p.subids i ≠ NOT_A_PRIM) ∧
      (number e.on e.s = some 0 → ∀ i, find_sub p 0 = some i → ∃ ins, T i = some (ins, some 0)) ∧
      ∀ n i ins n', number e.on e.s = some n → T i = some (ins, some n') → wrapped n' = wrapped n → n' = n

/-! ## Numbers -/

theorem strtoprim_eq (l : List Byte) (len : Nat) (hpos : 0 < len) (hlen : len ≤ l.length)
    (hstop : ∀ b ∈ (l.drop len).head?, isDigit 10 b = false) :
    strtoprim l len = (integer (l.take len)).elim NOT_A_PRIM wrapped := by
  have htake : (l.take len).length = len := by
    rw [List.length_take]
    omega
  unfold strtoprim
  simp only
  cases hint : integer (l.take len) with
  | none =>
    refine if_pos fun hread => ?_
    rcases number_or_none l with ⟨w, sg, ds, r, rfl, hw, hsg, hne, hds, hr⟩ | ⟨-, hzero⟩
    · -- it would be the integer that the text is not
      have hscan := strtoul_signed w sg ds r hw hsg hds hne hr
      rw [hscan] at hread
      have hwhole : (w ++ sg ++ ds ++ r).take len = w ++ sg ++ ds := by
        rw [← hread, ← List.length_append, ← List.length_append, List.take_left]
      rw [hwhole] at hint
      exact integer_signed w sg ds hw hsg hds hne hint
    · omega
  | some n =>
    obtain ⟨w, sg, ds, hsplit, hw, hsg, hds, hne, rfl⟩ := integer_some hint
    have hscan := strtoul_signed w sg ds (l.drop len) hw hsg hds hne hstop
    rw [← hsplit, List.take_append_drop] at hscan
    have hstops : w.length + sg.length + ds.length = len := by
      rw [← htake, hsplit, List.length_append, List.length_append]
    rw [hscan, if_neg (not_not.mpr hstops), Option.elim_some]
    unfold wrapped
    have habs : (if sg = [45] then -(digitsVal 10 ds : Int) else digitsVal 10 ds).natAbs = digitsVal 10 ds := by
      split <;> simp
    rw [habs]
    simp only
    split
    · rfl
    · rename_i hsmall
      unfold ulongMax at hsmall
      congr 1
      split <;> omega

theorem wrapped_toNat (x : prim_t) : wrapped (x.toNat : Int) = x := by
  have hlt := x.toNat_lt
  unfold wrapped ulongMax
  rw [if_neg (by omega)]
  apply UInt64.toNat_inj.mp
  rw [UInt64.toNat_ofNat']
  omega

theorem wrapped_zero {n : Int} (h : wrapped n = 0) : n = 0 := by
  unfold wrapped at h
  split at h
  · cases h
  · rename_i hsmall
    unfold ulongMax at hsmall
    have htoNat := congrArg UInt64.toNat h
    rw [UInt64.toNat_ofNat', UInt64.toNat_zero] at htoNat
    omega

theorem wrapped_small {n : Int} (h : 0 ≤ n) (hlt : n.toNat < 2 ^ 64 - 1) : (wrapped n).toNat = n.toNat := by
  unfold wrapped ulongMax
  rw [if_neg (by omega), UInt64.toNat_ofNat']
  omega

theorem value_number {countof : Nat} {c : Byte} (l : Line countof c) {j : Json} (hj : j.root ∈ l.root.pre)
    (ht : j.root.type = JSMN_PRIMITIVE) : value l.on j = (number l.on j).elim NOT_A_PRIM wrapped := by
  have hin := l.within _ hj
  have hord := hin.ordered
  have hend := hin.inside
  obtain ⟨hpos, hstop⟩ := jsmn_parse_ended _ _ l.parsed _ hj ht
  unfold value number span
  rw [if_pos ht]
  refine strtoprim_eq _ _ (by omega) ?_ ?_
  · rw [List.length_drop]
    omega
  · rw [List.drop_drop, Nat.add_sub_cancel' hord]
    exact hstop

/-- What the code takes for an index. -/
def taken (on : List Byte) (j : Json) : Option (Fin 128) :=
  if h : j.root.type = JSMN_PRIMITIVE ∧ (value on j).toNat < 128 then some ⟨(value on j).toNat, h.2⟩
  else none

theorem taken_index {countof : Nat} {c : Byte} (l : Line countof c) {j : Json} (hj : j.root ∈ l.root.pre)
    (h : Straight l.on j) : taken l.on j = index l.on j := by
  unfold taken index
  by_cases ht : j.root.type = JSMN_PRIMITIVE
  · have hvalue := value_number l hj ht
    unfold Straight at h
    cases hn : number l.on j with
    | none =>
      rw [hn, Option.elim_none] at hvalue
      rw [dif_neg fun hc => absurd hc.2 (by rw [hvalue]; decide)]
      rfl
    | some n =>
      rw [hn, Option.elim_some] at hvalue
      rw [Option.bind_some]
      by_cases hidx : 0 ≤ n ∧ n.toNat < 128
      · have hval : (value l.on j).toNat = n.toNat := by rw [hvalue, wrapped_small hidx.1 (by omega)]
        rw [dif_pos hidx, dif_pos ⟨ht, by omega⟩]
        exact congrArg some (Fin.ext hval)
      · rw [dif_neg hidx, dif_neg]
        rintro ⟨-, hlt⟩
        rw [hvalue] at hlt
        have hpos := h n hn hlt
        refine hidx ⟨hpos, ?_⟩
        by_cases hbig : n.toNat < 2 ^ 64 - 1
        · rw [wrapped_small hpos hbig] at hlt
          exact hlt
        · -- too large a number is not taken for an index
          have hnot : wrapped n = NOT_A_PRIM := by
            unfold wrapped
            split
            · rfl
            · rename_i hsmall
              unfold ulongMax at hsmall
              have hmax : n = 2 ^ 64 - 1 := by omega
              rw [hmax]
              rfl
          rw [hnot] at hlt
          exact absurd hlt (by decide)
  · have hnone : number l.on j = none := if_neg ht
    rw [hnone, dif_neg fun hc => ht hc.1]
    rfl

/-! ## One line -/

section
variable {on : List Byte} {ts : List jsmntok_t} (old : (c : Cell) → c.Ans)

theorem eval_nth {k : Nat} {t : jsmntok_t} (h : ts[k]? = some t) :
    (toks k).eval (memory on ts old) = t :=
  eval_known (run_nth h) old

variable (ts) in
theorem eval_value {j : Json} (h : Within on j.root) :
    (toktoprim j.root).eval (memory on ts old) = value on j :=
  eval_known (run_toktoprim h) old

end

theorem eval_dispatch {code : prim_t} (m : Message code) (p : Processor) (metr : tv_t) (n : Nat)
    (old : (c : Cell) → c.Ans) :
    (dispatch p metr n).eval (memory m.on m.root.pre old) =
      if code = 32 then (((subscr p n).eval (memory m.on m.root.pre old)).1, ⟨0, []⟩)
      else if code = 33 then (((subscd p n).eval (memory m.on m.root.pre old)).1, ⟨0, []⟩)
      else if code = 36 then (p, ⟨0, ((events p metr n).eval (memory m.on m.root.pre old)).out⟩)
      else (p, ⟨0, []⟩) := by
  have h0 : m.root.pre[0]? = some m.head := by
    rw [m.shape, pre_node]
    rfl
  have h1 : m.root.pre[1]? = some m.first := by
    rw [m.shape, pre_node, pres_cons, pre_node]
    rfl
  have hcode := eval_value m.root.pre old (j := .node m.first []) (m.within _ (List.mem_of_getElem? h1))
  have hvalue := value_number m.toLine (j := .node m.first []) (List.mem_of_getElem? h1) m.first_number
  rw [hvalue, m.first_code, Option.elim_some, wrapped_toNat] at hcode
  unfold dispatch
  rw [Query.eval_bind, eval_nth old h0, if_neg (not_not.mpr m.head_array), Query.eval_bind,
    eval_nth old h1, if_neg (not_not.mpr m.first_number), Query.eval_bind, eval_nth old h1,
    Query.eval_bind]
  change Query.eval _ (if (toktoprim m.first).eval _ = 32 then _ else _) = _
  rw [root_node] at hcode
  rw [hcode]
  split
  · rw [Query.eval_bind]
    rfl
  split
  · rw [Query.eval_bind]
    rfl
  split
  · rw [Query.eval_bind]
    rfl
  · rfl

section
variable (p : Processor) (old : (c : Cell) → c.Ans)

theorem procln_message {code : prim_t} (m : Message code) :
    procln p old m.text =
      (dispatch p m.stamp.tv m.root.pre.length).eval (memory m.on m.root.pre old) :=
  procln_line p old m.toLine

theorem taken_none {on : List Byte} {j : Json} (h : taken on j = none)
    (ht : j.root.type = JSMN_PRIMITIVE) (hlt : (value on j).toNat < 128) : False := by
  unfold taken at h
  rw [dif_pos ⟨ht, hlt⟩] at h
  cases h

theorem taken_some {on : List Byte} {j : Json} {i : Fin 128} (h : taken on j = some i) :
    j.root.type = JSMN_PRIMITIVE ∧ ∃ hlt : (value on j).toNat < 128, i = ⟨(value on j).toNat, hlt⟩ := by
  unfold taken at h
  split at h
  · rename_i hj
    exact ⟨hj.1, hj.2, (Option.some.inj h).symm⟩
  · cases h

theorem run_start {on : List Byte} (ts : List jsmntok_t) {t : jsmntok_t} (h : Within on t) :
    Query.run (known on ts) (bytes t.ptr (if t.len < 16 then t.len else 15)) =
      some ((span on t).take 15) := by
  have hord := h.ordered
  have hin := h.inside
  have hmin : (if t.len < 16 then t.len else 15) = min 15 (t.end_ - t.start) := by
    rw [len_within h]
    split <;> omega
  unfold span
  rw [hmin, ptr_within h, run_bytes _ _ (by omega), List.take_take,
    List.drop_append_of_le_length (by omega), List.take_append_of_le_length]
  rw [List.length_drop]
  omega

theorem procln_request_none (r : Request) (hi : taken r.on r.i = none) :
    procln p old r.text = (p, ⟨0, []⟩) := by
  have hpre : r.root.pre = r.head :: r.first :: r.i.root :: (pres r.i.kids ++ (r.opts.pre ++ [r.ins])) := by
    rw [r.shape, r.elements]
    simp [pre_eq r.i]
  have h2 : r.root.pre[2]? = some r.i.root := by
    rw [hpre]
    rfl
  have hvalue := eval_value r.root.pre old (r.within _ (List.mem_of_getElem? h2))
  have hsubscr : ((subscr p r.root.pre.length).eval (memory r.on r.root.pre old)).1 = p := by
    unfold subscr
    split
    · rfl
    rw [Query.eval_bind, eval_nth old h2]
    split
    · rfl
    rename_i htype
    rw [Query.eval_bind]
    split
    · rfl
    rw [Query.eval_bind, eval_nth old h2, Query.eval_bind, hvalue,
      dif_neg (fun hlt => taken_none hi (not_not.mp htype) hlt)]
    rfl
  rw [procln_message, eval_dispatch, if_pos rfl]
  change (((subscr p r.root.pre.length).eval (memory r.on r.root.pre old)).1, _) = _
  rw [hsubscr]

theorem procln_request_some (r : Request) (i : Fin 128) (hi : taken r.on r.i = some i)
    (hopts : r.opts.kids = []) :
    procln p old r.text = (⟨update p.subids i 0,
      update p.subins i (Bitfin2b.strtoins (p.subins i) ((span r.on r.ins).take 15))⟩, ⟨0, []⟩) := by
  obtain ⟨htype, hlt, rfl⟩ := taken_some hi
  have hpre : r.root.pre = [r.head, r.first, r.i.root, r.opts.root, r.ins] := by
    rw [r.shape, r.elements]
    simp [pre_eq r.i, pre_eq r.opts, r.i_leaf htype, hopts]
  have h2 : r.root.pre[2]? = some r.i.root := by
    rw [hpre]
    rfl
  have h4 : r.root.pre[4]? = some r.ins := by
    rw [hpre]
    rfl
  have hvalue := eval_value r.root.pre old (r.within _ (List.mem_of_getElem? h2))
  have hname := eval_known (run_start r.root.pre (r.within _ (List.mem_of_getElem? h4))) old
  have hsubscr : ((subscr p r.root.pre.length).eval (memory r.on r.root.pre old)).1 =
      ⟨update p.subids ⟨_, hlt⟩ 0, update p.subins ⟨_, hlt⟩
        (Bitfin2b.strtoins (p.subins ⟨_, hlt⟩) ((span r.on r.ins).take 15))⟩ := by
    unfold subscr
    rw [if_neg (by rw [hpre]; simp), Query.eval_bind, eval_nth old h2, if_neg (not_not.mpr htype),
      Query.eval_bind, eval_nth old h4, if_neg (not_not.mpr r.ins_string), Query.eval_bind,
      eval_nth old h2, Query.eval_bind, hvalue, dif_pos hlt, Query.eval_bind, eval_nth old h4,
      Query.eval_bind, hname]
    rfl
  rw [procln_message, eval_dispatch, if_pos rfl]
  change (((subscr p r.root.pre.length).eval (memory r.on r.root.pre old)).1, _) = _
  rw [hsubscr]

theorem procln_confirm (c : Confirmation) :
    procln p old c.text =
      (match taken c.on c.i with
        | none => p
        | some i =>
          if c.s.root.type = JSMN_PRIMITIVE ∧ deref (p.subins i).raw ≠ 0 then
            ⟨update p.subids i (value c.on c.s), p.subins⟩
          else p, ⟨0, []⟩) := by
  have hsubscd : ((subscd p c.root.pre.length).eval (memory c.on c.root.pre old)).1 =
      match taken c.on c.i with
        | none => p
        | some i =>
          if c.s.root.type = JSMN_PRIMITIVE ∧ deref (p.subins i).raw ≠ 0 then
            ⟨update p.subids i (value c.on c.s), p.subins⟩
          else p := by
    have hlen : ¬ c.root.pre.length ≤ 3 := by
      rw [c.shape, c.elements]
      simp only [pre_node, pres_cons, pre_eq c.i, pre_eq c.s, List.length_cons, List.length_append]
      omega
    have h2 : c.root.pre[2]? = some c.i.root := by
      rw [c.shape, c.elements]
      simp [pre_eq c.i]
    have hvalue := eval_value c.root.pre old (c.within _ (List.mem_of_getElem? h2))
    unfold subscd
    rw [if_neg hlen, Query.eval_bind, eval_nth old h2]
    cases hi : taken c.on c.i with
    | none =>
      split
      · rfl
      rename_i htype
      rw [Query.eval_bind]
      split
      · rfl
      rw [Query.eval_bind, eval_nth old h2, Query.eval_bind, hvalue, Query.eval_bind, Query.eval_bind,
        dif_neg (fun hlt => taken_none hi (not_not.mp htype) hlt)]
      rfl
    | some i =>
      obtain ⟨htype, hlt, rfl⟩ := taken_some hi
      have h3 : c.root.pre[3]? = some c.s.root := by
        rw [c.shape, c.elements]
        simp [pre_eq c.i, pre_eq c.s, c.i_leaf htype]
      have hid := eval_value c.root.pre old (c.within _ (List.mem_of_getElem? h3))
      rw [if_neg (not_not.mpr htype), Query.eval_bind, eval_nth old h3]
      by_cases hs : c.s.root.type = JSMN_PRIMITIVE
      · rw [if_neg (not_not.mpr hs), Query.eval_bind, eval_nth old h2, Query.eval_bind, hvalue,
          Query.eval_bind, eval_nth old h3, Query.eval_bind, hid, dif_pos hlt]
        simp only
        by_cases hraw : deref (p.subins ⟨(value c.on c.i).toNat, hlt⟩).raw = 0
        · rw [if_pos hraw, if_neg (fun h => h.2 hraw)]
          rfl
        · rw [if_neg hraw, if_pos ⟨hs, hraw⟩]
          rfl
      · rw [if_pos hs]
        simp only
        rw [if_neg (fun h => hs h.1)]
        rfl
  rw [procln_message, eval_dispatch, if_neg (by decide), if_pos rfl]
  change (((subscd p c.root.pre.length).eval (memory c.on c.root.pre old)).1, _) = _
  rw [hsubscd]


/-! ## Events -/

theorem only_labelled {lab record : List Byte} (h : lab <+: record) : ∀ r ∈ [record], lab <+: r := by
  intro r hr
  rw [List.mem_singleton.mp hr]
  exact h

theorem none_labelled (lab : List Byte) : ∀ r ∈ ([] : List (List Byte)), lab <+: r := by
  intro r hr
  cases hr

theorem amount_labelled (env : (c : Cell) → c.Ans) (lab buf : List Byte) (hbuf : lab <+: buf)
    (hx : hx_t) (eot i : Nat) : ∀ r ∈ ((amount buf hx eot i).eval env).1, lab <+: r := by
  unfold amount
  simp only [Query.eval_bind, apply_ite (Query.eval env), Query.eval_pure, eval_memncpy, apply_ite Prod.fst]
  split
  · split
    · exact none_labelled lab
    · exact only_labelled ((hbuf.trans (List.prefix_append ..)).trans (List.prefix_append ..))
  · split
    · exact only_labelled ((hbuf.trans (List.prefix_append ..)).trans (List.prefix_append ..))
    · exact none_labelled lab

theorem event_labelled (env : (c : Cell) → c.Ans) (lab : List Byte) (eot i : Nat) :
    ∀ r ∈ ((event lab eot i).eval env).1, lab <+: r := by
  have hentry : ∀ hx j, ∀ r ∈ ((entry lab hx eot j).eval env).1, lab <+: r := by
    intro hx j
    unfold entry
    simp only [Query.eval_bind, apply_ite (Query.eval env), Query.eval_pure, eval_memncpy,
      apply_ite Prod.fst, List.append_assoc]
    split
    · exact none_labelled lab
    split
    · exact none_labelled lab
    split
    · exact none_labelled lab
    split
    · exact none_labelled lab
    · exact amount_labelled env lab _ (List.prefix_append ..) hx eot _
  have htra0 : ∀ j, ∀ r ∈ ((tra0 lab j).eval env).1, lab <+: r := by
    intro j
    unfold tra0
    simp only [Query.eval_bind, apply_ite (Query.eval env), Query.eval_pure, eval_memncpy,
      apply_ite Prod.fst, List.append_assoc]
    split
    · exact none_labelled lab
    split
    · exact none_labelled lab
    split
    · exact none_labelled lab
    split
    · exact none_labelled lab
    · exact only_labelled (List.prefix_append ..)
  unfold event
  rw [Query.eval_bind, Query.eval_bind]
  split
  · exact none_labelled lab
  rw [Query.eval_bind, Query.eval_bind]
  dsimp only
  split
  · exact hentry _ _
  split
  · exact hentry _ _
  split
  · exact htra0 _
  · exact none_labelled lab

theorem event_loop_labelled (env : (c : Cell) → c.Ans) (lab : List Byte) (n fuel i : Nat) :
    ∀ r ∈ (event_loop lab n fuel i).eval env, lab <+: r := by
  induction fuel generalizing i with
  | zero =>
    intro r hr
    cases hr
  | succ fuel ih =>
    unfold event_loop
    rw [Query.eval_bind]
    split
    · intro r hr
      simp only [Query.eval_bind, Query.eval_pure, List.mem_append] at hr
      rcases hr with hr | hr
      · exact event_labelled env lab _ _ r hr
      · exact ih _ r hr
    · intro r hr
      cases hr

theorem events_labelled (env : (c : Cell) → c.Ans) (metr : tv_t) (n : Nat) :
    ((events p metr n).eval env).out = [] ∨
      ((toks 2).eval env).type = JSMN_PRIMITIVE ∧
        ∃ i, find_sub p ((toktoprim ((toks 2).eval env)).eval env) = some i ∧
          ∀ r ∈ ((events p metr n).eval env).out, label p metr i <+: r := by
  unfold events
  split
  · exact Or.inl rfl
  rw [Query.eval_bind]
  split
  · exact Or.inl rfl
  rename_i htype
  rw [Query.eval_bind]
  split
  · exact Or.inl rfl
  rw [Query.eval_bind]
  split
  · exact Or.inl rfl
  rw [Query.eval_bind, Query.eval_bind]
  cases hfind : find_sub p ((toktoprim ((toks 2).eval env)).eval env) with
  | none => exact Or.inl rfl
  | some i =>
    refine Or.inr ⟨not_not.mp htype, i, rfl, ?_⟩
    simp only [Query.eval_bind, Query.eval_pure]
    exact event_loop_labelled env _ _ _ _

end

/-! ## Any lines -/

/-- The tables know what the messages said, but for entries that are 0 or no number. -/
structure Agree (p : Processor) (T : Table) : Prop where
  named : ∀ i e, T i = some e → Bitfin2b.instostr (p.subins i) = e.1
  unnamed : ∀ i, T i = none → deref (p.subins i).raw = 0
  unset : ∀ i, deref (p.subins i).raw = 0 → p.subids i = 0
  bound : ∀ i, p.subids i ≠ 0 → p.subids i ≠ NOT_A_PRIM → ∃ ins n, T i = some (ins, some n) ∧ wrapped n = p.subids i

@[simp] theorem update_same {α : Type} (f : Fin 128 → α) (i : Fin 128) (x : α) : update f i x i = x :=
  if_pos rfl

theorem update_other {α : Type} (f : Fin 128 → α) (i j : Fin 128) (x : α) (h : j ≠ i) :
    update f i x j = f j :=
  if_neg h

theorem agree_init : Agree init fun _ => none := by
  refine ⟨(fun i e h => by cases h), fun _ _ => rfl, fun _ _ => rfl, fun i h => absurd rfl h⟩

theorem Agree.rebind {p : Processor} {T : Table} (h : Agree p T) (i : Fin 128) (ids : Fin 128 → prim_t)
    (T' : Table) (hids : ∀ j, j ≠ i → ids j = p.subids j) (hT : ∀ j, j ≠ i → T' j = T j)
    (hname : (T' i).map Prod.fst = (T i).map Prod.fst)
    (hunset : deref (p.subins i).raw = 0 → ids i = 0)
    (hbound : ids i ≠ 0 → ids i ≠ NOT_A_PRIM → ∃ ins n, T' i = some (ins, some n) ∧ wrapped n = ids i) :
    Agree ⟨ids, p.subins⟩ T' := by
  refine ⟨?_, ?_, ?_, ?_⟩
  all_goals intro j
  all_goals by_cases hj : j = i
  · subst hj
    intro e he
    rw [he] at hname
    obtain ⟨e', he', heq⟩ := Option.map_eq_some_iff.mp hname.symm
    rw [← heq]
    exact h.named j e' he'
  · rw [hT j hj]
    exact h.named j
  · subst hj
    intro he
    rw [he] at hname
    exact h.unnamed j (Option.map_eq_none_iff.mp hname.symm)
  · rw [hT j hj]
    exact h.unnamed j
  · subst hj
    exact hunset
  · change deref (p.subins j).raw = 0 → ids j = 0
    rw [hids j hj]
    exact h.unset j
  · subst hj
    exact hbound
  · change ids j ≠ 0 → ids j ≠ NOT_A_PRIM → ∃ ins n, T' j = some (ins, some n) ∧ wrapped n = ids j
    rw [hids j hj, hT j hj]
    exact h.bound j

theorem agree_confirm {p : Processor} {T : Table} (h : Agree p T) (c : Confirmation)
    (old : (c : Cell) → c.Ans) (hplain : Straight c.on c.i) :
    Agree (procln p old c.text).1 (T.step (.confirm c)) := by
  have hindex : c.i.root ∈ c.root.pre := by
    rw [c.shape, c.elements]
    simp [pre_eq c.i]
  have hid : c.s.root ∈ c.root.pre := by
    rw [c.shape, c.elements]
    simp [pre_eq c.s]
  rw [procln_confirm, taken_index c.toLine hindex hplain]
  simp only [Table.step]
  cases hi : index c.on c.i with
  | none => exact h
  | some i =>
    simp only
    have hsame : ∀ n : Int, ((T i).map fun e => (e.1, some n)).map Prod.fst = (T i).map Prod.fst := by
      intro n
      rw [Option.map_map]
      rfl
    split
    · rename_i hacc
      obtain ⟨e, he⟩ := Option.ne_none_iff_exists'.mp fun hn => hacc.2 (h.unnamed i hn)
      have hvalue := value_number c.toLine hid hacc.1
      cases hnum : number c.on c.s with
      | none =>
        -- an id that is no number is kept, but nothing is bound to it
        rw [hnum, Option.elim_none] at hvalue
        refine h.rebind i _ T (fun j hj => update_other _ _ _ _ hj) (fun _ _ => rfl) rfl
          (fun hraw => absurd hraw hacc.2) fun _ hne => absurd ?_ hne
        rw [update_same]
        exact hvalue
      | some n =>
        rw [hnum, Option.elim_some] at hvalue
        refine h.rebind i _ _ (fun j hj => update_other _ _ _ _ hj) (fun j hj => update_other _ _ _ _ hj)
          ?_ (fun hraw => absurd hraw hacc.2) fun _ _ => ⟨e.1, n, ?_, ?_⟩
        · simp only [update_same]
          exact hsame n
        · simp only [update_same, he]
          rfl
        · rw [update_same]
          exact hvalue.symm
    · rename_i hrej
      cases hnum : number c.on c.s with
      | none => exact h
      | some n =>
        have hprim : c.s.root.type = JSMN_PRIMITIVE := by
          unfold number at hnum
          split at hnum
          · assumption
          · cases hnum
        have hraw : deref (p.subins i).raw = 0 := by
          by_contra hne
          exact hrej ⟨hprim, hne⟩
        refine h.rebind i p.subids _ (fun _ _ => rfl) (fun j hj => update_other _ _ _ _ hj) ?_
          (h.unset i) fun hne => absurd (h.unset i hraw) hne
        simp only [update_same]
        exact hsame n

theorem agree_step {p : Processor} {T : Table} (h : Agree p T) (f : Fed) (hplain : Plain p T f.input) :
    Agree (procln p f.old f.input.text).1 (T.step f.input) := by
  obtain ⟨input, old⟩ := f
  cases input with
  | request r =>
    have hindex : r.i.root ∈ r.root.pre := by
      rw [r.shape, r.elements]
      simp [pre_eq r.i]
    have htaken := taken_index r.toLine hindex hplain.1
    cases hi : index r.on r.i with
    | none =>
      change Agree (procln p old r.text).1 (match index r.on r.i with | some i => _ | none => T)
      rw [procln_request_none p old r (htaken.trans hi), hi]
      exact h
    | some i =>
      have hopts : r.opts.kids = [] := hplain.2 (by rw [hi]; exact Option.some_ne_none i)
      change Agree (procln p old r.text).1 (match index r.on r.i with | some i => _ | none => T)
      rw [procln_request_some p old r i (htaken.trans hi) hopts, hi]
      refine ⟨?_, ?_, ?_, ?_⟩
      all_goals intro j
      all_goals by_cases hj : j = i
      · subst hj
        intro e he
        simp only [update_same, Option.some.injEq] at he ⊢
        rw [← he]
        exact Bitfin2b.instostr_strtoins _ _ (List.length_take_le ..)
      · simp only [update_other _ _ _ _ hj]
        exact h.named j
      · subst hj
        intro he
        simp at he
      · simp only [update_other _ _ _ _ hj]
        exact h.unnamed j
      · subst hj
        intro _
        exact update_same ..
      · simp only [update_other _ _ _ _ hj]
        exact h.unset j
      · subst hj
        intro hne
        simp at hne
      · simp only [update_other _ _ _ _ hj]
        exact h.bound j
  | confirm c => exact agree_confirm h c old hplain
  | event e =>
    change Agree (procln p old e.text).1 T
    rw [procln_message, eval_dispatch, if_neg (by decide), if_neg (by decide), if_pos rfl]
    exact h

theorem after_concat (h : List Fed) (f : Fed) :
    after (h ++ [f]) = (procln (after h) f.old f.input.text).1 := by
  unfold after
  rw [List.foldl_concat]

theorem table_concat (h : List Fed) (f : Fed) : table (h ++ [f]) = (table h).step f.input := by
  unfold table
  rw [List.foldl_concat]

theorem agree_run (h : List Fed) (hplain : Always (fun pre f => Plain (after pre) (table pre) f.input) h) :
    Agree (after h) (table h) := by
  induction h using List.reverseRecOn with
  | nil => exact agree_init
  | append_singleton h f ih =>
    obtain ⟨hpre, hf⟩ := (always_concat ..).mp hplain
    rw [after_concat, table_concat]
    exact agree_step (ih hpre) f hf

theorem quiet (p : Processor) (old : (c : Cell) → c.Ans) {code : prim_t} (m : Message code)
    (hcode : code = 32 ∨ code = 33) : (procln p old m.text).2 = ⟨0, []⟩ := by
  rw [procln_message, eval_dispatch]
  rcases hcode with h | h
  · rw [if_pos h]
  · rw [if_neg (by rw [h]; decide), if_pos h]

theorem attributed_step {p : Processor} {T : Table} (h : Agree p T) (f : Fed) (hplain : Plain p T f.input) :
    Attributed T f.input (procln p f.old f.input.text).2.out := by
  obtain ⟨input, old⟩ := f
  cases input with
  | request r =>
    have hquiet := quiet p old r.toMessage (Or.inl rfl)
    simp only [Attributed, Input.text]
    rw [hquiet]
  | confirm c =>
    have hquiet := quiet p old c.toMessage (Or.inr rfl)
    simp only [Attributed, Input.text]
    rw [hquiet]
  | event e =>
    have h2 : e.root.pre[2]? = some e.s.root := by
      rw [e.shape, e.elements]
      simp [pre_eq e.s]
    have hproc : (procln p old e.text).2.out = ((events p e.stamp.tv e.root.pre.length).eval
        (memory e.on e.root.pre old)).out := by
      rw [procln_message, eval_dispatch, if_neg (by decide), if_neg (by decide), if_pos rfl]
    simp only [Attributed, Input.text]
    rw [hproc]
    intro hout
    rcases events_labelled p (memory e.on e.root.pre old) e.stamp.tv e.root.pre.length with
      hnone | ⟨htype, i, hfind, hlab⟩
    · exact absurd hnone hout
    · rw [eval_nth old h2] at htype hfind
      rw [eval_value _ old (e.within _ (List.mem_of_getElem? h2))] at hfind
      have hid : p.subids i = value e.on e.s := by
        unfold find_sub at hfind
        have hd := List.find?_some hfind
        exact of_decide_eq_true hd
      have hmem := List.mem_of_getElem? h2
      have hvalue := value_number e.toLine hmem htype
      obtain ⟨hvalid, hzero, hsame⟩ := hplain htype
      rw [hvalue] at hid
      have hvalid : (number e.on e.s).elim NOT_A_PRIM wrapped ≠ NOT_A_PRIM := fun hn => hvalid hn i (hid.trans hn)
      obtain ⟨n, hn⟩ : ∃ n, number e.on e.s = some n := by
        refine Option.ne_none_iff_exists'.mp fun hnone => hvalid ?_
        rw [hnone]
        rfl
      rw [hn, Option.elim_some] at hvalue hid hvalid
      obtain ⟨ins, hins⟩ : ∃ ins, T i = some (ins, some n) := by
        by_cases h0 : p.subids i = 0
        · have hn0 : n = 0 := wrapped_zero (hid.symm.trans h0)
          rw [hn0] at hn hid ⊢
          rw [hvalue, hn0] at hfind
          exact hzero hn i hfind
        · obtain ⟨ins, n', hins, hwrap⟩ := h.bound i h0 (by rw [hid]; exact hvalid)
          exact ⟨ins, by rw [hins, hsame n i ins n' hn hins (hwrap.trans hid)]⟩
      refine ⟨i, n, ins, hn, hins, ?_⟩
      unfold label at hlab
      rw [h.named i _ hins] at hlab
      exact hlab

/-- **Subscription bookkeeping**: as long as the lines are plain, records come of events whose id is bound, under
the name of its instrument. -/
theorem attributed (h : List Fed) (hplain : Always (fun pre f => Plain (after pre) (table pre) f.input) h) :
    Always (fun pre f => Attributed (table pre) f.input
      (procln (after pre) f.old f.input.text).2.out) h := by
  induction h using List.reverseRecOn with
  | nil => exact always_nil _
  | append_singleton h f ih =>
    obtain ⟨hpre, hf⟩ := (always_concat ..).mp hplain
    exact (always_concat ..).mpr ⟨ih hpre, attributed_step (agree_run h hpre) f hf⟩

/-! ## Three lines -/

def message_root (on : List Byte) (rest : List Json) : Json :=
  .node (nth_token on 0) (.node (nth_token on 1) [] :: rest)

/-- What there is to check about a line. -/
def message_checked (code : prim_t) (on : List Byte) (rest : List Json) : Prop :=
  (deref on = chr '[' ∧
    jsmn_parse countof on = (((message_root on rest).pre.length : Int), (message_root on rest).pre) ∧
    (message_root on rest).nested jsmntok_t.start jsmntok_t.end_ = true ∧
    (message_root on rest).root.end_ ≤ on.length ∧ on.length < 2 ^ 63) ∧
  (nth_token on 0).type = JSMN_ARRAY ∧ (nth_token on 1).type = JSMN_PRIMITIVE ∧
    number on (.node (nth_token on 1) []) = some (code.toNat : Int)

instance (code : prim_t) (on : List Byte) (rest : List Json) : Decidable (message_checked code on rest) := by
  unfold message_checked
  infer_instance

def message (code : prim_t) (on : List Byte) (rest : List Json) (h : message_checked code on rest) :
    Message code where
  stamp := Bitfin2b.noon
  on := on
  root := message_root on rest
  begins := h.1.1
  parsed := h.1.2.1
  nested := h.1.2.2.1
  inside := h.1.2.2.2.1
  short := h.1.2.2.2.2
  head := nth_token on 0
  first := nth_token on 1
  rest := rest
  shape := rfl
  head_array := h.2.1
  first_number := h.2.2.1
  first_code := h.2.2.2

def btc_request : Request :=
  let on := ascii "[32,7,\x7b\x7d,\"BTC_ETH\"]\n"
  { message 32 on [leaf on 2, leaf on 3, leaf on 4] (by decide +kernel) with
    i := leaf on 2
    opts := leaf on 3
    ins := nth_token on 4
    elements := rfl
    i_leaf := fun _ => rfl
    ins_string := by decide +kernel }

def btc_confirmation : Confirmation :=
  let on := ascii "[33,7,12]\n"
  { message 33 on [leaf on 2, leaf on 3] (by decide +kernel) with
    i := leaf on 2
    s := leaf on 3
    elements := rfl
    i_leaf := fun _ => rfl }

def trade_text (id : String) : List Byte :=
  ascii "[36," ++ ascii id ++ ascii ",1,\x7b\x7d,[\x7b\"type\":\"newTrade\",\"data\":" ++
    ascii "\x7b\"amount\":\"1\",\"date\":\"d\",\"rate\":\"2\"\x7d\x7d],\x7b\x7d]\n"

def trade_more (on : List Byte) : List Json :=
  [leaf on 3, leaf on 4, .node (nth_token on 5) [.node (nth_token on 6) [leaf on 7, leaf on 8, leaf on 9,
    .node (nth_token on 10) [leaf on 11, leaf on 12, leaf on 13, leaf on 14, leaf on 15, leaf on 16]]],
    leaf on 17]

def trade (id : String)
    (h : message_checked 36 (trade_text id) (leaf (trade_text id) 2 :: trade_more (trade_text id))) :
    Event36 :=
  { message 36 (trade_text id) (leaf (trade_text id) 2 :: trade_more (trade_text id)) h with
    s := leaf (trade_text id) 2
    more := trade_more (trade_text id)
    elements := rfl }

def zero_trade : Event36 := trade "0" (by decide +kernel)

/-- An id of 0, which nobody confirmed, is that of every entry that is not set. -/
theorem zero_misattributed :
    ¬ Attributed (table []) (.event zero_trade) (procln (after []) blank zero_trade.text).2.out := by
  intro h
  obtain ⟨i, v, ins, -, hbound, -⟩ := h (by decide +kernel)
  cases hbound

def twelve : Event36 := trade "12" (by decide +kernel)

theorem straight_seven {on : List Byte} {j : Json} (h : number on j = some 7) : Straight on j := by
  intro n hn _
  obtain rfl : 7 = n := Option.some.inj (h.symm.trans hn)
  decide

theorem attributed_three :
    Always (fun pre f => Attributed (table pre) f.input (procln (after pre) f.old f.input.text).2.out)
      [⟨.request btc_request, blank⟩, ⟨.confirm btc_confirmation, blank⟩, ⟨.event twelve, blank⟩] := by
  apply attributed
  have hplain : Always (fun pre f => Plain (after pre) (table pre) f.input)
      ((([] ++ [⟨.request btc_request, blank⟩]) ++ [⟨.confirm btc_confirmation, blank⟩]) ++
        [⟨.event twelve, blank⟩]) := by
    refine (always_concat ..).mpr ⟨(always_concat ..).mpr ⟨(always_concat ..).mpr ⟨always_nil _, ?_⟩, ?_⟩, ?_⟩
    · exact ⟨straight_seven (by decide +kernel), fun _ => rfl⟩
    · exact straight_seven (by decide +kernel)
    · have hid : number twelve.on twelve.s = some 12 := by decide +kernel
      have hbound : ∀ i ins n',
          table ([] ++ [⟨.request btc_request, blank⟩] ++ [⟨.confirm btc_confirmation, blank⟩]) i =
          some (ins, some n') → n' = 12 := by
        intro i ins n' hi
        have hall : ∀ i, ((table ([] ++ [⟨.request btc_request, blank⟩] ++
            [⟨.confirm btc_confirmation, blank⟩]) i).bind Prod.snd).all (· = 12) = true := by decide +kernel
        have := hall i
        rw [hi] at this
        simpa using this
      intro _
      refine ⟨fun hnot => absurd hnot (by rw [hid]; decide), fun hzero => absurd (hid.symm.trans hzero) (by decide), ?_⟩
      intro n i ins n' hn hi _
      rw [hbound i ins n' hi]
      exact Option.some.inj (hid.symm.trans hn)
  exact hplain

end Coins.Quotes.Plx2b
