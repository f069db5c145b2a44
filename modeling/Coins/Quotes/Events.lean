import Mathlib.Data.List.Forall2
import Coins.Quotes.Plx2b
import Coins.Quotes.Channels

/-!
# The events of `plx2b`

An event line of a subscription that is known comes out as one record for each of its events, in order.
-/

open Coins.Numeral Coins.Questions Coins.Forest

namespace Coins.Quotes.Plx2b

open jsmntype_t

/-- The tag, the rate and the amount that an event tells. -/
structure Told where
  tag : List Byte
  rate : List Byte
  amount : List Byte

def row (lab : List Byte) (t : Told) : List Byte :=
  lab ++ t.tag ++ [tab] ++ t.rate ++ [tab] ++ t.amount ++ [nl]

/-- An event as it is sent. -/
inductive Tells (on : List Byte) : Json → Told → Prop
  | modify {e kt vt kd d k₁ side k₂ rate k₃ amt : jsmntok_t} (he : e.type = JSMN_OBJECT)
      (hkt : span on kt = ascii "type") (hvt : span on vt = ascii "orderBookModify")
      (hkd : span on kd = ascii "data") (hd : d.type = JSMN_OBJECT) (h₁ : span on k₁ = ascii "type")
      (hside : span on side = ascii "bid" ∨ span on side = ascii "ask")
      (h₂ : span on k₂ = ascii "rate") (h₃ : span on k₃ = ascii "amount") :
      Tells on (.node e [.node kt [], .node vt [], .node kd [], .node d [.node k₁ [], .node side [],
        .node k₂ [], .node rate [], .node k₃ [], .node amt []]])
        ⟨span on side ++ ascii "2", span on rate, span on amt⟩
  | remove {e kt vt kd d k₁ side k₂ rate : jsmntok_t} (he : e.type = JSMN_OBJECT)
      (hkt : span on kt = ascii "type") (hvt : span on vt = ascii "orderBookRemove")
      (hkd : span on kd = ascii "data") (hd : d.type = JSMN_OBJECT) (h₁ : span on k₁ = ascii "type")
      (hside : span on side = ascii "bid" ∨ span on side = ascii "ask")
      (h₂ : span on k₂ = ascii "rate") :
      Tells on (.node e [.node kt [], .node vt [], .node kd [], .node d [.node k₁ [], .node side [],
        .node k₂ [], .node rate []]]) ⟨span on side ++ ascii "2", span on rate, ascii "0"⟩
  | trade {e kt vt kd d k₁ amt k₂ date k₃ rate : jsmntok_t} (more : List Json)
      (he : e.type = JSMN_OBJECT) (hkt : span on kt = ascii "type")
      (hvt : span on vt = ascii "newTrade") (hkd : span on kd = ascii "data")
      (hd : d.type = JSMN_OBJECT) (h₁ : span on k₁ = ascii "amount") (h₂ : span on k₂ = ascii "date")
      (h₃ : span on k₃ = ascii "rate") :
      Tells on (.node e [.node kt [], .node vt [], .node kd [], .node d (.node k₁ [] :: .node amt [] ::
        .node k₂ [] :: .node date [] :: .node k₃ [] :: .node rate [] :: more)])
        ⟨ascii "tra0", span on rate, span on amt⟩

section
variable {on : List Byte} {ts : List jsmntok_t} {lab : List Byte}

theorem run_event {i eot : Nat} {e kt vt : jsmntok_t} {rest : List jsmntok_t}
    (hdrop : ts.drop i = e :: kt :: vt :: rest) (ikt : Within on kt) (ivt : Within on vt)
    (hkt : span on kt = ascii "type") :
    Query.run (known on ts) (event lab eot i) =
      Query.run (known on ts)
        (if hash (span on vt) = hx_modi then entry lab (hash (span on vt)) eot (i + 2)
        else if hash (span on vt) = hx_dele then entry lab (hash (span on vt)) eot (i + 2)
        else if hash (span on vt) = hx_mtch then tra0 lab (i + 2)
        else pure ([], i + 2)) := by
  unfold event
  rw [Query.run_then _ (run_at hdrop 1 rfl), Query.run_then _ (run_key ikt hkt (by decide)),
    if_neg Bool.false_ne_true, Query.run_then _ (run_at hdrop 2 rfl), Query.run_then _ (run_text ivt)]

theorem run_entry {i eot : Nat} {hx : hx_t} {vt kd d k₁ side k₂ rate : jsmntok_t}
    {rest : List jsmntok_t} (hdrop : ts.drop i = vt :: kd :: d :: k₁ :: side :: k₂ :: rate :: rest)
    (ikd : Within on kd) (i₁ : Within on k₁) (iside : Within on side) (i₂ : Within on k₂)
    (irate : Within on rate) (hkd : span on kd = ascii "data") (hd : d.type = JSMN_OBJECT)
    (h₁ : span on k₁ = ascii "type")
    (hside : span on side = ascii "bid" ∨ span on side = ascii "ask")
    (h₂ : span on k₂ = ascii "rate") (buf : List Byte)
    (hbuf : buf = lab ++ span on side ++ [chr '2', tab] ++ span on rate ++ [tab]) :
    Query.run (known on ts) (entry lab hx eot i) =
      if buf.length ≤ 256 then Query.run (known on ts) (amount buf hx eot (i + 7)) else none := by
  have hthree : Query.run (known on ts) (bytes side.ptr 3) = some (span on side) := by
    have hlen : (span on side).length = 3 := by
      rcases hside with hs | hs <;> rw [hs] <;> rfl
    have htext : Query.run (known on ts) (text side) = some (span on side) := run_text iside
    unfold text at htext
    rw [len_within iside, ← span_length iside, hlen] at htext
    exact htext
  unfold entry
  rw [Query.run_then _ (run_at hdrop 1 rfl), Query.run_then _ (run_key ikd hkd (by decide)),
    if_neg Bool.false_ne_true, Query.run_then _ (run_at hdrop 2 rfl), if_neg (not_not.mpr hd),
    Query.run_then _ (run_at hdrop 3 rfl), Query.run_then _ (run_key i₁ h₁ (by decide)),
    if_neg Bool.false_ne_true, Query.run_then _ (run_at hdrop 4 rfl), Query.run_then _ hthree,
    run_memncpy_then, run_memncpy_then, Query.run_then _ (run_at hdrop 5 rfl),
    Query.run_then _ (run_key i₂ h₂ (by decide)), if_neg Bool.false_ne_true,
    Query.run_then _ (run_at hdrop 6 rfl), Query.run_then _ (run_text irate), run_memncpy_then,
    run_memncpy_then, room_room (List.prefix_append ..), room_room (List.prefix_append ..),
    room_room (List.prefix_append ..), ← hbuf]

theorem run_amount {i eot : Nat} {hx : hx_t} {k₃ amt : jsmntok_t} {rest : List jsmntok_t} (buf : List Byte)
    (hdrop : ts.drop i = k₃ :: amt :: rest) (i₃ : Within on k₃) (iamt : Within on amt)
    (h₃ : span on k₃ = ascii "amount") (hlt : k₃.start < eot) :
    Query.run (known on ts) (amount buf hx eot i) =
      if (buf ++ span on amt ++ [nl]).length ≤ 256 then some ([buf ++ span on amt ++ [nl]], i + 1)
      else none := by
  unfold amount
  rw [Query.run_then _ (run_here hdrop), if_pos hlt, Query.run_then _ (run_here hdrop),
    Query.run_then _ (run_key i₃ h₃ (by decide)), if_neg Bool.false_ne_true,
    Query.run_then _ (run_at hdrop 1 rfl), Query.run_then _ (run_text iamt), run_memncpy_then,
    run_memncpy_then, room_room (List.prefix_append ..)]
  rfl

theorem run_no_amount {i eot : Nat} {next : jsmntok_t} {rest : List jsmntok_t} (buf : List Byte)
    (hdrop : ts.drop i = next :: rest) (hge : eot ≤ next.start) :
    Query.run (known on ts) (amount buf hx_dele eot i) =
      if (buf ++ ascii "0" ++ [nl]).length ≤ 256 then some ([buf ++ ascii "0" ++ [nl]], i) else none := by
  unfold amount
  rw [Query.run_then _ (run_here hdrop), if_neg (by omega), if_pos rfl, run_memncpy_then,
    run_memncpy_then, room_room (List.prefix_append ..)]
  rfl

theorem run_tra0 {i : Nat} {vt kd d k₁ amt k₂ date k₃ rate : jsmntok_t} {rest : List jsmntok_t}
    (hdrop : ts.drop i = vt :: kd :: d :: k₁ :: amt :: k₂ :: date :: k₃ :: rate :: rest)
    (ikd : Within on kd) (i₁ : Within on k₁) (iamt : Within on amt) (i₃ : Within on k₃)
    (irate : Within on rate) (hkd : span on kd = ascii "data")
    (hd : d.type = JSMN_OBJECT) (h₁ : span on k₁ = ascii "amount") (h₃ : span on k₃ = ascii "rate") :
    Query.run (known on ts) (tra0 lab i) =
      if (row lab ⟨ascii "tra0", span on rate, span on amt⟩).length ≤ 256 then
        some ([row lab ⟨ascii "tra0", span on rate, span on amt⟩], i + 2)
      else none := by
  unfold tra0
  rw [Query.run_then _ (run_at hdrop 1 rfl), Query.run_then _ (run_key ikd hkd (by decide)),
    if_neg Bool.false_ne_true, Query.run_then _ (run_at hdrop 2 rfl), if_neg (not_not.mpr hd),
    run_memncpy_then, run_memncpy_then, Query.run_then _ (run_at hdrop 7 rfl),
    Query.run_then _ (run_key i₃ h₃ (by decide)), if_neg Bool.false_ne_true,
    Query.run_then _ (run_at hdrop 8 rfl), Query.run_then _ (run_text irate), run_memncpy_then,
    run_memncpy_then, Query.run_then _ (run_at hdrop 3 rfl),
    Query.run_then _ (run_key i₁ h₁ (by decide)), if_neg Bool.false_ne_true,
    Query.run_then _ (run_at hdrop 4 rfl), Query.run_then _ (run_text iamt), run_memncpy_then,
    run_memncpy_then, room_room (List.prefix_append ..), room_room (List.prefix_append ..),
    room_room (List.prefix_append ..), room_room (List.prefix_append ..),
    room_room (List.prefix_append ..)]
  rfl

theorem tells_object {e : Json} {t : Told} (h : Tells on e t) :
    e.root.type = JSMN_OBJECT ∧ 9 ≤ e.pre.length := by
  cases h with
  | modify he => exact ⟨he, by simp⟩
  | remove he => exact ⟨he, by simp⟩
  | trade more he => exact ⟨he, by simp⟩

theorem words_ne : hx_dele ≠ hx_modi ∧ hx_mtch ≠ hx_modi ∧ hx_mtch ≠ hx_dele := by
  decide +kernel

variable (lab)

/-- **One event**: its record if there is room, and the cursor somewhere in the event. -/
theorem run_told {i : Nat} {e : Json} {t : Told} (htell : Tells on e t) {next : jsmntok_t}
    {rest : List jsmntok_t} (hdrop : ts.drop i = e.pre ++ next :: rest)
    (hin : ∀ t ∈ e.pre, Within on t) (hnested : e.nested jsmntok_t.start jsmntok_t.end_ = true)
    (hnext : e.root.end_ ≤ next.start) :
    ∃ j, i < j ∧ j ≤ i + e.pre.length ∧
      Query.run (known on ts) (event lab e.root.end_ i) =
        if (row lab t).length ≤ 256 then some ([row lab t], j) else none := by
  obtain ⟨hdm, htm, htd⟩ := words_ne
  cases htell with
  | @modify e kt vt kd d k₁ side k₂ rate k₃ amt he hkt hvt hkd hd h₁ hside h₂ h₃ =>
    have hlt : k₃.start < e.end_ := by
      obtain ⟨-, hle, hlt⟩ := nestedAll_mem _ _ _ (nested_kids _ hnested) k₃ (by simp [Branch.kids])
      exact Nat.lt_of_le_of_lt hle hlt
    have hword : hash (span on vt) = hx_modi := by
      rw [hvt]
      rfl
    simp only [pre_node, pres_cons, pres_nil, List.append_nil, List.cons_append, List.nil_append]
      at hdrop hin
    have hdata : ts.drop (i + 2) = vt :: kd :: d :: k₁ :: side :: k₂ :: rate :: k₃ :: amt :: next :: rest :=
      drop_more (l := [e, kt]) hdrop
    have hamount : ts.drop (i + 2 + 7) = k₃ :: amt :: next :: rest :=
      drop_more (l := [vt, kd, d, k₁, side, k₂, rate]) hdata
    refine ⟨i + 2 + 7 + 1, by omega, by simp, ?_⟩
    change Query.run (known on ts) (event lab e.end_ i) = _
    rw [run_event hdrop (hin kt (by simp)) (hin vt (by simp)) hkt, hword, if_pos (Eq.refl hx_modi),
      run_entry hdata (hin kd (by simp)) (hin k₁ (by simp)) (hin side (by simp)) (hin k₂ (by simp))
        (hin rate (by simp)) hkd hd h₁ hside h₂ _ rfl,
      run_amount _ hamount (hin k₃ (by simp)) (hin amt (by simp)) h₃ hlt,
      room_room ((List.prefix_append _ _).trans (List.prefix_append _ _)), row]
    simp only [List.append_assoc]
    rfl
  | @remove e kt vt kd d k₁ side k₂ rate he hkt hvt hkd hd h₁ hside h₂ =>
    have hword : hash (span on vt) = hx_dele := by
      rw [hvt]
      rfl
    simp only [pre_node, pres_cons, pres_nil, List.append_nil, List.cons_append, List.nil_append]
      at hdrop hin
    have hdata : ts.drop (i + 2) = vt :: kd :: d :: k₁ :: side :: k₂ :: rate :: next :: rest :=
      drop_more (l := [e, kt]) hdrop
    have hamount : ts.drop (i + 2 + 7) = next :: rest :=
      drop_more (l := [vt, kd, d, k₁, side, k₂, rate]) hdata
    change e.end_ ≤ next.start at hnext
    refine ⟨i + 2 + 7, by omega, by simp, ?_⟩
    change Query.run (known on ts) (event lab e.end_ i) = _
    rw [run_event hdrop (hin kt (by simp)) (hin vt (by simp)) hkt, hword, if_neg hdm,
      if_pos (Eq.refl hx_dele),
      run_entry hdata (hin kd (by simp)) (hin k₁ (by simp)) (hin side (by simp)) (hin k₂ (by simp))
        (hin rate (by simp)) hkd hd h₁ hside h₂ _ rfl,
      run_no_amount _ hamount hnext,
      room_room ((List.prefix_append _ _).trans (List.prefix_append _ _)), row]
    simp only [List.append_assoc]
    rfl
  | @trade e kt vt kd d k₁ amt k₂ date k₃ rate more he hkt hvt hkd hd h₁ h₂ h₃ =>
    have hword : hash (span on vt) = hx_mtch := by
      rw [hvt]
      rfl
    simp only [pre_node, pres_cons, pres_nil, List.append_nil, List.cons_append, List.nil_append]
      at hdrop hin
    have hdata : ts.drop (i + 2) =
        vt :: kd :: d :: k₁ :: amt :: k₂ :: date :: k₃ :: rate :: (pres more ++ next :: rest) :=
      drop_more (l := [e, kt]) hdrop
    refine ⟨i + 2 + 2, by omega, by simp; omega, ?_⟩
    change Query.run (known on ts) (event lab e.end_ i) = _
    rw [run_event hdrop (hin kt (by simp)) (hin vt (by simp)) hkt, hword, if_neg htm, if_neg htd,
      if_pos (Eq.refl hx_mtch), run_tra0 hdata (hin kd (by simp)) (hin k₁ (by simp)) (hin amt (by simp))
        (hin k₃ (by simp)) (hin rate (by simp)) hkd hd h₁ h₃]

/-- **All of them**, in order, if there is room for each. -/
theorem run_event_loop (hplaces : ts.length ≤ countof) {n : Nat} {next : jsmntok_t}
    {rest : List jsmntok_t} (hnext : n ≤ next.start) {evs : List Json} {told : List Told}
    (htold : List.Forall₂ (Tells on) evs told) (i l fuel : Nat)
    (hall : nestedAll jsmntok_t.start jsmntok_t.end_ l n evs = true)
    (hdrop : ts.drop i = pres evs ++ next :: rest) (hin : ∀ t ∈ pres evs, Within on t)
    (hfuel : evs.length < fuel) :
    Query.run (known on ts) (event_loop lab n fuel i) =
      if ∀ t ∈ told, (row lab t).length ≤ 256 then some (told.map (row lab)) else none := by
  induction htold generalizing i l fuel with
  | nil =>
    obtain ⟨fuel, rfl⟩ := Nat.exists_eq_succ_of_ne_zero (Nat.ne_of_gt hfuel)
    unfold event_loop
    rw [Query.run_then _ (run_here hdrop), if_neg (by omega), if_pos (by simp)]
    rfl
  | @cons e t evs told htell htold ih =>
    obtain ⟨fuel, rfl⟩ := Nat.exists_eq_succ_of_ne_zero (Nat.ne_of_gt (Nat.zero_lt_of_lt hfuel))
    obtain ⟨hlo, hhi, hnested, hrest⟩ := (nestedAll_cons ..).mp hall
    obtain ⟨b, bs, hbs, hb⟩ := nestedAll_next _ _ _ hrest (Nat.le_of_lt hhi) next rest hnext
    rw [pres_cons, List.append_assoc] at hdrop
    have hcut := hdrop
    rw [hbs] at hcut
    have hlater := drop_more hdrop
    have hhead : ts.drop i = e.root :: (pres e.kids ++ b :: bs) := by
      rw [hcut, pre_eq]
      rfl
    obtain ⟨j, hij, hj, hevent⟩ := run_told lab htell hcut
      (fun t ht => hin t (by simp [ht])) hnested hb
    have hcons := @List.forall_mem_cons _ (fun t => (row lab t).length ≤ 256) t told
    have hlen : e.pre.length ≤ ts.length := by
      have := congrArg List.length hcut
      rw [List.length_drop, List.length_append] at this
      omega
    unfold event_loop
    rw [Query.run_then _ (run_here hhead), if_pos (by have := nested_le e hnested; omega),
      Query.run_then _ (run_here hhead)]
    by_cases hfit : (row lab t).length ≤ 256
    · rw [if_pos hfit] at hevent
      rw [Query.run_then _ hevent,
        Query.run_then _ (run_ffw_tree hnested hcut hb hij hj (countof + 1) (by omega)), Query.run_bind,
        ih (i + e.pre.length) _ fuel hrest hlater (fun t ht => hin t (by simp [ht]))
          (by rw [List.length_cons] at hfuel; omega)]
      by_cases hall : ∀ t ∈ told, (row lab t).length ≤ 256
      · rw [if_pos hall, if_pos (hcons.mpr ⟨hfit, hall⟩)]
        rfl
      · rw [if_neg hall, if_neg (fun h => hall (hcons.mp h).2)]
        rfl
    · rw [if_neg hfit] at hevent
      rw [Query.run_bind, hevent, if_neg (fun h => hfit (hcons.mp h).1)]
      rfl

theorem run_toktoprim {t : jsmntok_t} (h : Within on t) :
    Query.run (known on ts) (toktoprim t) =
      some (strtoprim (on.drop t.start) (t.end_ - t.start)) := by
  unfold toktoprim
  rw [ptr_within h, Query.run_then _ (run_str_at _ (Nat.le_trans h.ordered h.inside)), len_within h]
  rfl

end

/-! ## Event lines -/

/-- `[36, s, p, {}, [e1, ..., en], {...}]` -/
structure EventLine extends Line countof (chr '[') where
  head : jsmntok_t
  code : jsmntok_t
  s : jsmntok_t
  p : jsmntok_t
  opts : jsmntok_t
  arr : jsmntok_t
  evs : List Json
  last : Json
  told : List Told
  shape : root = .node head [.node code [], .node s [], .node p [], .node opts [], .node arr evs, last]
  head_array : head.type = JSMN_ARRAY
  code_number : code.type = JSMN_PRIMITIVE
  code_event : strtoprim (on.drop code.start) (code.end_ - code.start) = 36
  s_number : s.type = JSMN_PRIMITIVE
  arr_array : arr.type = JSMN_ARRAY
  some_event : evs ≠ []
  tells : List.Forall₂ (Tells on) evs told

namespace EventLine

variable (l : EventLine)

/-- The subscription id. -/
def sub : prim_t := strtoprim (l.on.drop l.s.start) (l.s.end_ - l.s.start)

/-- What is printed when the instrument is the `i`-th. -/
def rows (p : Processor) (i : Fin 128) : List (List Byte) := l.told.map (row (label p l.stamp.tv i))

theorem run_events (p : Processor) (i : Fin 128) (hsub : find_sub p l.sub = some i) :
    Query.run (known l.on l.root.pre) (events p l.stamp.tv l.root.pre.length) =
      if ∀ t ∈ l.told, (row (label p l.stamp.tv i) t).length ≤ 256 then some ⟨0, l.rows p i⟩ else none := by
  obtain ⟨ev, evs, hevs⟩ := List.exists_cons_of_ne_nil l.some_event
  have hpre : l.root.pre = l.head :: l.code :: l.s :: l.p :: l.opts :: l.arr ::
      (pres l.evs ++ l.last.root :: pres l.last.kids) := by
    rw [l.shape]
    simp [← pre_eq]
  obtain ⟨hobject, hnine⟩ : ev.root.type = JSMN_OBJECT ∧ 9 ≤ ev.pre.length := by
    have htells := l.tells
    rw [hevs] at htells
    obtain ⟨t, told, h, -, -⟩ := List.forall₂_cons_left_iff.mp htells
    exact tells_object h
  have hlen : ¬ l.root.pre.length ≤ 8 := by
    rw [hpre, hevs]
    simp only [List.length_cons, List.length_append, pres_cons]
    omega
  have hfirst : l.root.pre[6]? = some ev.root := by
    rw [hpre, hevs, pres_cons, pre_eq]
    rfl
  have h2 : l.root.pre[2]? = some l.s := by
    rw [hpre]
    rfl
  have h5 : l.root.pre[5]? = some l.arr := by
    rw [hpre]
    rfl
  have hnested := l.nested
  simp only [l.shape, nested_node, nestedAll_cons, root_node] at hnested
  obtain ⟨-, -, -, -, -, -, -, -, -, -, -, -, -, -, -, ⟨-, hall⟩, hlast, -⟩ := hnested
  have hdrop : l.root.pre.drop 6 = pres l.evs ++ l.last.root :: pres l.last.kids := by
    rw [hpre]
    rfl
  have hfuel : l.evs.length < countof + 1 := by
    have hplaced := l.placed
    rw [hpre] at hplaced
    have := length_le_pres l.evs
    simp only [List.length_cons, List.length_append] at hplaced
    omega
  have hloop := run_event_loop (label p l.stamp.tv i) l.placed
    (Nat.le_of_lt hlast) l.tells 6 _ (countof + 1) hall hdrop
    (fun t ht => l.within t (by rw [hpre]; simp [ht])) hfuel
  unfold events
  rw [if_neg hlen, Query.run_then _ (run_nth h2), if_neg (not_not.mpr l.s_number),
    Query.run_then _ (run_nth h5), if_neg (not_not.mpr l.arr_array), Query.run_then _ (run_nth hfirst),
    if_neg (not_not.mpr hobject), Query.run_then _ (run_nth h2),
    Query.run_then _ (run_toktoprim (l.within _ (List.mem_of_getElem? h2)))]
  simp only [show find_sub p (strtoprim (l.on.drop l.s.start) (l.s.end_ - l.s.start)) = some i from hsub]
  rw [Query.run_then _ (run_nth h5), Query.run_bind, hloop]
  split <;> rfl

theorem run_dispatch (p : Processor) (i : Fin 128) (hsub : find_sub p l.sub = some i) :
    Query.run (known l.on l.root.pre) (dispatch p l.stamp.tv l.root.pre.length) =
      if ∀ t ∈ l.told, (row (label p l.stamp.tv i) t).length ≤ 256 then some (p, ⟨0, l.rows p i⟩)
      else none := by
  have h0 : l.root.pre[0]? = some l.head := by
    rw [l.shape, pre_node]
    rfl
  have h1 : l.root.pre[1]? = some l.code := by
    rw [l.shape, pre_node, pres_cons, pre_node]
    rfl
  unfold dispatch
  rw [Query.run_then _ (run_nth h0), if_neg (not_not.mpr l.head_array), Query.run_then _ (run_nth h1),
    if_neg (not_not.mpr l.code_number), Query.run_then _ (run_nth h1),
    Query.run_then _ (run_toktoprim (l.within _ (List.mem_of_getElem? h1))), l.code_event,
    if_neg (by decide), if_neg (by decide), if_pos (by decide), Query.run_bind, l.run_events p i hsub]
  split <;> rfl

/-- **Event transcription**: one record for each event, in order, if and only if there is room for each
of them in `buf`. -/
theorem transcribed (p : Processor) (i : Fin 128) (hsub : find_sub p l.sub = some i) :
    Decided l.on l.root.pre (dispatch p l.stamp.tv l.root.pre.length) (p, ⟨0, l.rows p i⟩) ↔
      ∀ r ∈ l.rows p i, r.length ≤ 256 := by
  rw [decided_iff, l.run_dispatch p i hsub, rows, List.forall_mem_map]
  split
  · rename_i hfit
    exact ⟨fun _ => hfit, fun _ => rfl⟩
  · rename_i hfit
    exact ⟨(fun h => by cases h), fun h => absurd h hfit⟩

end EventLine

/-! ## A rate of any length -/

def removal_text (rate : List Byte) : List Byte :=
  ascii "[36,7,1,\x7b\x7d,[\x7b\"type\":\"orderBookRemove\",\"data\":\x7b\"type\":\"bid\",\"rate\":\"" ++ rate ++
    ascii "\"\x7d\x7d],\x7b\x7d]\n"

def removal_event (on : List Byte) : Json :=
  let t := nth_token on
  .node (t 6) [.node (t 7) [], .node (t 8) [], .node (t 9) [],
    .node (t 10) [.node (t 11) [], .node (t 12) [], .node (t 13) [], .node (t 14) []]]

def removal_root (on : List Byte) : Json :=
  let t := nth_token on
  .node (t 0) [.node (t 1) [], .node (t 2) [], .node (t 3) [], .node (t 4) [],
    .node (t 5) [removal_event on], .node (t 15) []]

/-- What there is to check about such a line. -/
def removal_checked (on : List Byte) : Prop :=
  let t := nth_token on
  (deref on = chr '[' ∧ jsmn_parse countof on = (((removal_root on).pre.length : Int), (removal_root on).pre) ∧
    (removal_root on).nested jsmntok_t.start jsmntok_t.end_ = true ∧
    (removal_root on).root.end_ ≤ on.length ∧ on.length < 2 ^ 63) ∧
  ((t 0).type = JSMN_ARRAY ∧ (t 1).type = JSMN_PRIMITIVE ∧
    strtoprim (on.drop (t 1).start) ((t 1).end_ - (t 1).start) = 36 ∧ (t 2).type = JSMN_PRIMITIVE ∧
    (t 5).type = JSMN_ARRAY ∧ (t 6).type = JSMN_OBJECT) ∧
  span on (t 7) = ascii "type" ∧ span on (t 8) = ascii "orderBookRemove" ∧ span on (t 9) = ascii "data" ∧
    (t 10).type = JSMN_OBJECT ∧ span on (t 11) = ascii "type" ∧ span on (t 12) = ascii "bid" ∧
    span on (t 13) = ascii "rate"

instance (on : List Byte) : Decidable (removal_checked on) := by
  unfold removal_checked
  infer_instance

def removal (rate : List Byte) (h : removal_checked (removal_text rate)) : EventLine :=
  let on := removal_text rate
  let t := nth_token on
  { stamp := Bitfin2b.noon
    on := on
    root := removal_root on
    begins := h.1.1
    parsed := h.1.2.1
    nested := h.1.2.2.1
    inside := h.1.2.2.2.1
    short := h.1.2.2.2.2
    head := t 0
    code := t 1
    s := t 2
    p := t 3
    opts := t 4
    arr := t 5
    evs := [removal_event on]
    last := .node (t 15) []
    told := [⟨span on (t 12) ++ ascii "2", span on (t 14), ascii "0"⟩]
    shape := rfl
    head_array := h.2.1.1
    code_number := h.2.1.2.1
    code_event := h.2.1.2.2.1
    s_number := h.2.1.2.2.2.1
    arr_array := h.2.1.2.2.2.2.1
    some_event := by simp
    tells := by
      obtain ⟨-, ⟨-, -, -, -, -, he⟩, hkt, hvt, hkd, hd, h₁, hside, h₂⟩ := h
      exact .cons (.remove he hkt hvt hkd hd h₁ (Or.inl hside) h₂) .nil }

/-- A processor that has given the id 7 to the instrument 3. -/
def subscribed : Processor := { init with subids := update init.subids 3 7 }

def short_rate : EventLine := removal (ascii "1.5") (by decide +kernel)

def long_rate : EventLine := removal (List.replicate 300 (chr '1')) (by decide +kernel)

theorem transcribed_short :
    Decided short_rate.on short_rate.root.pre (dispatch subscribed short_rate.stamp.tv short_rate.root.pre.length)
        (subscribed, ⟨0, short_rate.rows subscribed 3⟩) ↔
      ∀ r ∈ short_rate.rows subscribed 3, r.length ≤ 256 :=
  short_rate.transcribed subscribed 3 (by decide +kernel)

/-- A rate of 300 digits is written behind the end of `buf`. -/
theorem long_rate_overflows :
    find_sub subscribed long_rate.sub = some 3 ∧
      ¬ Decided long_rate.on long_rate.root.pre (dispatch subscribed long_rate.stamp.tv long_rate.root.pre.length)
        (subscribed, ⟨0, long_rate.rows subscribed 3⟩) := by
  have hsub : find_sub subscribed long_rate.sub = some 3 := by decide +kernel
  have hlong : ¬ ∀ t ∈ long_rate.told, (row (label subscribed long_rate.stamp.tv 3) t).length ≤ 256 := by
    intro h
    exact absurd (h _ (List.mem_singleton.mpr rfl)) (by decide +kernel)
  refine ⟨hsub, fun h => ?_⟩
  rw [decided_iff, long_rate.run_dispatch subscribed 3 hsub, if_neg hlong] at h
  cases h

end Coins.Quotes.Plx2b
