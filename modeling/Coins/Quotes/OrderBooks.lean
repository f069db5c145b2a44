import Coins.Quotes.Btsp2b
import Coins.Quotes.Channels

/-!
# Order books

What `btsp2b` prints for a line with the members `event`, `data` and `channel`.
-/

open Coins.Numeral Coins.Questions Coins.Forest

namespace Coins.Quotes.Btsp2b

open jsmntype_t btsp_ins_t btsp_chan_t

/-! ## Lists -/

inductive Side
  | bids | asks
deriving DecidableEq

def Side.word : Side → List Byte
  | bids => ascii "bids"
  | asks => ascii "asks"

/-- A member of the data. -/
inductive Part
  | list (sd : Side) (k a : jsmntok_t) (vs : List Level)
  | other (k : jsmntok_t) (v : Json)

def Part.jsons : Part → List Json
  | list _ k a vs => [.node k [], .node a (vs.map Level.json)]
  | other k v => [.node k [], v]

/-- Lists of price and quantity under their word, and the words nowhere else. -/
def Part.Fine (on : List Byte) : Part → Prop
  | list sd k _ vs => span on k = sd.word ∧ ∀ v ∈ vs, v.a.type = JSMN_ARRAY ∧ v.more = []
  | other k v => ∀ t ∈ k :: v.pre, ∀ sd : Side, span on t ≠ sd.word

/-- No other text has the hash of a word. -/
def Clear (on : List Byte) (t : jsmntok_t) : Prop :=
  ∀ sd : Side, hash (span on t) = hash sd.word → span on t = sd.word

def Lists.at (ls : Lists) : Side → Nat × Nat
  | .bids => (ls.bid, ls.eob)
  | .asks => (ls.ask, ls.eoa)

def Lists.put (ls : Lists) (sd : Side) (i e : Nat) : Lists :=
  match sd with
  | .bids => { ls with bid := i, eob := e }
  | .asks => { ls with ask := i, eoa := e }

theorem at_put (ls : Lists) (sd : Side) (i e : Nat) (sd' : Side) :
    (ls.put sd i e).at sd' = if sd' = sd then (i, e) else ls.at sd' := by
  cases sd <;> cases sd' <;> rfl

section
variable {on : List Byte} {ts : List jsmntok_t}

/-- The levels of `w` begin behind this place, and something comes behind them. -/
def Found (ts : List jsmntok_t) (w : jsmntok_t × List Level) (p : Nat × Nat) : Prop :=
  p.2 = w.1.end_ ∧ ∃ b bs, ts.drop (p.1 + 1) = pres (w.2.map Level.json) ++ b :: bs ∧ w.1.end_ ≤ b.start

theorem run_lists_word {dend i fuel : Nat} {sd : Side} {k a : jsmntok_t} {l : List jsmntok_t}
    (hdrop : ts.drop i = k :: a :: l) (hk : Within on k) (hword : span on k = sd.word)
    (hlt : k.start < dend) (ls : Lists) :
    Query.run (known on ts) (lists dend (fuel + 1) ls i) =
      (Query.run (known on ts) (skip a.end_ (countof + 1) (i + 1))).bind fun j =>
        Query.run (known on ts) (lists dend fuel (ls.put sd (i + 1) a.end_) (j + 1)) := by
  have hne : hx_asks ≠ hx_bids := by decide +kernel
  conv => lhs; unfold lists
  rw [Query.run_then _ (run_here hdrop), if_pos hlt, Query.run_then _ (run_text hk), hword]
  dsimp only
  cases sd with
  | bids =>
    rw [if_pos (show hash Side.bids.word = hx_bids from rfl), Query.run_then _ (run_at hdrop 1 rfl), Query.run_bind]
    rfl
  | asks =>
    rw [if_neg (show ¬ hash Side.asks.word = hx_bids from hne),
      if_pos (show hash Side.asks.word = hx_asks from rfl), Query.run_then _ (run_at hdrop 1 rfl), Query.run_bind]
    rfl

theorem run_lists_plain {dend : Nat} (l : List jsmntok_t) (i fuel : Nat) (ls : Lists) {rest : List jsmntok_t}
    (hdrop : ts.drop i = l ++ rest) (hin : ∀ t ∈ l, Within on t) (hlt : ∀ t ∈ l, t.start < dend)
    (hclear : ∀ t ∈ l, Clear on t) (hplain : ∀ t ∈ l, ∀ sd : Side, span on t ≠ sd.word)
    (hfuel : l.length ≤ fuel) :
    Query.run (known on ts) (lists dend fuel ls i) =
      Query.run (known on ts) (lists dend (fuel - l.length) ls (i + l.length)) := by
  induction l generalizing i fuel with
  | nil => rfl
  | cons t l ih =>
    obtain ⟨fuel, rfl⟩ : ∃ f, fuel = f + 1 := ⟨fuel - 1, by rw [List.length_cons] at hfuel; omega⟩
    have hmem := List.mem_cons_self (a := t) (l := l)
    have hb : ¬ hash (span on t) = hx_bids := fun h => hplain t hmem .bids (hclear t hmem .bids h)
    have ha : ¬ hash (span on t) = hx_asks := fun h => hplain t hmem .asks (hclear t hmem .asks h)
    conv => lhs; unfold lists
    rw [Query.run_then _ (run_here hdrop), if_pos (hlt t hmem), Query.run_then _ (run_text (hin t hmem)),
      if_neg hb, if_neg ha, ih (i + 1) fuel (drop_more (l := [t]) hdrop)
        (fun t ht => hin t (List.mem_cons_of_mem _ ht)) (fun t ht => hlt t (List.mem_cons_of_mem _ ht))
        (fun t ht => hclear t (List.mem_cons_of_mem _ ht)) (fun t ht => hplain t (List.mem_cons_of_mem _ ht))
        (by rw [List.length_cons] at hfuel; omega), List.length_cons]
    congr 2 <;> omega

/-- A list is found where it is, and the search goes on behind it. -/
theorem run_list_part {dend i fuel : Nat} {sd : Side} {k a b : jsmntok_t} {vs : List Level} {bs : List jsmntok_t}
    (hcut : ts.drop i = [k] ++ ((Branch.node a (vs.map Level.json)).pre ++ b :: bs)) (hk : Within on k)
    (hword : span on k = sd.word) (hlt : k.start < dend)
    (hnested : (Branch.node a (vs.map Level.json)).nested jsmntok_t.start jsmntok_t.end_ = true)
    (hb : a.end_ ≤ b.start) (hplaces : ts.length ≤ countof) (ls : Lists) :
    let j := i + 1 + (Branch.node a (vs.map Level.json)).pre.length
    Query.run (known on ts) (lists dend (fuel + 1) ls i) =
        Query.run (known on ts) (lists dend fuel (ls.put sd (i + 1) a.end_) j) ∧
      ts.drop j = b :: bs ∧ Found ts (a, vs) (i + 1, a.end_) := by
  have harr : ts.drop (i + 1) = (Branch.node a (vs.map Level.json)).pre ++ b :: bs := drop_more hcut
  have hlevels : ts.drop (i + 1 + 1) = pres (vs.map Level.json) ++ b :: bs := by
    rw [pre_node] at harr
    exact drop_more (l := [a]) harr
  have hskip : Query.run (known on ts) (skip a.end_ (countof + 1) (i + 1)) = _ :=
    run_skip_tree hnested harr hb (countof + 1) (Nat.le_succ_of_le (Nat.le_trans (drop_fits harr) hplaces))
  refine ⟨?_, drop_more harr, rfl, b, bs, hlevels, hb⟩
  rw [run_lists_word (hcut.trans (by rw [pre_node]; rfl)) hk hword hlt, hskip, Option.bind_some]
  rw [show i + 1 + (Branch.node a (vs.map Level.json)).pre.length - 1 + 1 =
    i + 1 + (Branch.node a (vs.map Level.json)).pre.length by
      rw [pre_node, List.length_cons]; omega]

/-- The lists among the parts are found, and a side that has none is as it was. -/
def Gathered (ts : List jsmntok_t) (want : Side → jsmntok_t × List Level) (parts : List Part) (ls ls' : Lists) : Prop :=
  ∀ sd, Found ts (want sd) (ls'.at sd) ∨ (∀ k a vs, Part.list sd k a vs ∉ parts) ∧ ls'.at sd = ls.at sd

theorem Gathered.list {want : Side → jsmntok_t × List Level} {parts : List Part} {ls ls' : Lists} {sd : Side}
    {i e : Nat} (k a : jsmntok_t) (vs : List Level) (hfound : Found ts (want sd) (i, e))
    (h : Gathered ts want parts (ls.put sd i e) ls') : Gathered ts want (.list sd k a vs :: parts) ls ls' := by
  intro sd'
  rcases h sd' with h | ⟨hno, hat⟩
  · exact Or.inl h
  · rw [at_put] at hat
    by_cases hsd : sd' = sd
    · subst hsd
      rw [if_pos rfl] at hat
      rw [hat]
      exact Or.inl hfound
    · rw [if_neg hsd] at hat
      refine Or.inr ⟨fun k' a' vs' h => ?_, hat⟩
      rcases List.mem_cons.mp h with h | h
      · exact hsd (Part.list.inj h).1
      · exact hno k' a' vs' h

theorem Gathered.other {want : Side → jsmntok_t × List Level} {parts : List Part} {ls ls' : Lists} (k : jsmntok_t)
    (v : Json) (h : Gathered ts want parts ls ls') : Gathered ts want (.other k v :: parts) ls ls' := by
  refine fun sd => (h sd).imp id fun ⟨hno, hat⟩ => ⟨fun k' a' vs' h => ?_, hat⟩
  rcases List.mem_cons.mp h with h | h
  · cases h
  · exact hno k' a' vs' h

/-- **The lists**: each is found wherever it is among the members. -/
theorem run_lists {dend : Nat} {next : jsmntok_t} {rest : List jsmntok_t} (hnext : dend ≤ next.start)
    (hplaces : ts.length ≤ countof) (want : Side → jsmntok_t × List Level) (parts : List Part)
    (hfine : ∀ x ∈ parts, x.Fine on) (hwant : ∀ sd k a vs, Part.list sd k a vs ∈ parts → want sd = (a, vs))
    (i l fuel : Nat) (ls : Lists)
    (hall : nestedAll jsmntok_t.start jsmntok_t.end_ l dend (parts.flatMap Part.jsons) = true)
    (hdrop : ts.drop i = pres (parts.flatMap Part.jsons) ++ next :: rest)
    (hin : ∀ t ∈ pres (parts.flatMap Part.jsons), Within on t)
    (hclear : ∀ t ∈ pres (parts.flatMap Part.jsons), Clear on t)
    (hfuel : (pres (parts.flatMap Part.jsons)).length < fuel) :
    ∃ ls', Query.run (known on ts) (lists dend fuel ls i) = some ls' ∧ Gathered ts want parts ls ls' := by
  induction parts generalizing i l fuel ls with
  | nil =>
    obtain ⟨fuel, rfl⟩ := Nat.exists_eq_succ_of_ne_zero (Nat.ne_of_gt hfuel)
    refine ⟨ls, ?_, fun sd => Or.inr ⟨fun _ _ _ => List.not_mem_nil, rfl⟩⟩
    unfold lists
    rw [Query.run_then _ (run_here hdrop), if_neg (by omega)]
    rfl
  | cons x parts ih =>
    have hfine' : ∀ y ∈ parts, y.Fine on := fun y hy => hfine y (List.mem_cons_of_mem _ hy)
    have hwant' : ∀ sd k a vs, Part.list sd k a vs ∈ parts → want sd = (a, vs) :=
      fun sd k a vs h => hwant sd k a vs (List.mem_cons_of_mem _ h)
    have hlow := nestedAll_mem _ _ _ hall
    cases x with
    | list sd k a vs =>
      obtain ⟨hword, -⟩ := hfine _ (List.mem_cons_self ..)
      simp only [List.flatMap_cons, Part.jsons, List.cons_append, List.nil_append] at hall hdrop hin hclear hfuel hlow
      simp only [nestedAll_cons, root_node] at hall
      obtain ⟨-, -, -, -, hend, hnested, hrest⟩ := hall
      obtain ⟨b, bs, hbs, hb⟩ := nestedAll_next _ _ _ hrest (Nat.le_of_lt hend) next rest hnext
      have hcut : ts.drop i = [k] ++ ((Branch.node a (vs.map Level.json)).pre ++ b :: bs) := by
        rw [hdrop, ← hbs]
        simp
      obtain ⟨fuel, rfl⟩ := Nat.exists_eq_succ_of_ne_zero (Nat.ne_of_gt (Nat.zero_lt_of_lt hfuel))
      have hlt : k.start < dend := by
        have := hlow k (by simp)
        omega
      obtain ⟨hpart, hlater, hfound⟩ := run_list_part hcut (hin k (by simp)) hword hlt hnested hb hplaces ls
      obtain ⟨ls', hrun, hgathered⟩ := ih hfine' hwant' _ _ fuel (ls.put sd (i + 1) a.end_) hrest
        (hlater.trans hbs.symm) (fun t ht => hin t (by simp [ht])) (fun t ht => hclear t (by simp [ht]))
        (by simp only [pres_cons, List.length_append, pre_node, List.length_cons] at hfuel; omega)
      rw [← hwant sd k a vs (List.mem_cons_self ..)] at hfound
      exact ⟨ls', hpart.trans hrun, hgathered.list k a vs hfound⟩
    | other k v =>
      have hplain := hfine _ (List.mem_cons_self ..)
      simp only [List.flatMap_cons, Part.jsons, List.cons_append, List.nil_append] at hall hdrop hin hclear hfuel hlow
      simp only [nestedAll_cons, root_node] at hall
      obtain ⟨-, -, -, -, hend, hnested, hrest⟩ := hall
      have hcut : ts.drop i = (k :: v.pre) ++ (pres (parts.flatMap Part.jsons) ++ next :: rest) := by
        rw [hdrop]
        simp
      have hmem : ∀ t ∈ k :: v.pre, t ∈ pres (.node k [] :: v :: parts.flatMap Part.jsons) := by
        intro t ht
        rw [pres_cons, pres_cons, pre_node, pres_nil]
        rcases List.mem_cons.mp ht with rfl | ht <;> simp [*]
      have hfuel' : (k :: v.pre).length + (pres (parts.flatMap Part.jsons)).length < fuel := by
        simp only [pres_cons, pre_node, pres_nil, List.length_append, List.length_cons, List.length_nil]
          at hfuel ⊢
        omega
      obtain ⟨ls', hrun, hgathered⟩ := ih hfine' hwant' _ _ (fuel - (k :: v.pre).length) ls hrest
        (drop_more hcut) (fun t ht => hin t (by simp [ht])) (fun t ht => hclear t (by simp [ht]))
        (by omega)
      refine ⟨ls', ?_, hgathered.other k v⟩
      rw [run_lists_plain (k :: v.pre) i fuel ls hcut (fun t ht => hin t (hmem t ht))
        (fun t ht => by have := hlow t (hmem t ht); omega) (fun t ht => hclear t (hmem t ht)) hplain
        (by omega)]
      exact hrun

/-- **A side**: the levels of the list that was found, if there is room. -/
theorem run_found {lo hi : Nat} {parts : List Part} (hfine : ∀ x ∈ parts, x.Fine on)
    (hplaces : ts.length ≤ countof)
    (hall : nestedAll jsmntok_t.start jsmntok_t.end_ lo hi (parts.flatMap Part.jsons) = true)
    (hin : ∀ t ∈ pres (parts.flatMap Part.jsons), Within on t) {sd : Side} {k a : jsmntok_t}
    {vs : List Level} (hmem : Part.list sd k a vs ∈ parts) {p : Nat × Nat} (hfound : Found ts (a, vs) p)
    (lab : Byte → List Byte) (more lvl : Byte) :
    Query.run (known on ts) (side lab more p.2 (countof + 1) lvl (p.1 + 1)) =
      if ∀ r ∈ rows on lab more lvl vs, r.length ≤ 256 then some (rows on lab more lvl vs) else none := by
  obtain ⟨hend, b, bs, hdrop, hb⟩ := hfound
  dsimp only at hend hdrop hb
  have harr : Branch.node a (vs.map Level.json) ∈ parts.flatMap Part.jsons :=
    List.mem_flatMap.mpr ⟨_, hmem, by simp [Part.jsons]⟩
  have hnested := nestedAll_nested _ _ _ hall _ harr
  have hfit := Nat.lt_succ_of_le (Nat.le_trans (drop_fits hdrop) hplaces)
  rw [hend]
  refine run_side lab more hb vs (fun v hv => ?_) _ _ _ lvl ((nested_node ..).mp hnested).2 hdrop
    (fun t ht => hin t (mem_pres harr (by simp [ht]))) hfit
  obtain ⟨htype, hmore⟩ := (hfine _ hmem).2 v hv
  refine ⟨htype, fun t ht => ?_⟩
  rw [hmore, pres_nil] at ht
  cases ht

/-! ## Keys -/

/-- What the keys of the beef begin with. -/
def keys : List (List Byte) := [ascii "chan", ascii "even", ascii "data"]

theorem keys_four : ∀ w ∈ keys, w.length = 4 ∧ (0 : Byte) ∉ w := by
  decide

/-- No key of the beef. -/
def Inert (on : List Byte) (t : jsmntok_t) : Prop :=
  t.type = JSMN_STRING → ∀ w ∈ keys, ¬ w <+: on.drop t.start

/-- What the book, the difference or neither begins with. -/
inductive Kind
  | book | diff

def Kind.word : Kind → List Byte
  | book => ascii "order_book"
  | diff => ascii "diff_order_book"

def Kind.chan : Kind → btsp_chan_t
  | book => CHAN_BOOK
  | diff => CHAN_DIFF

/-- The last six bytes. -/
def last_six (name : List Byte) : List Byte := name.drop (name.length - 6)

/-- By the last six characters of the name of the channel. -/
def instrument (name : List Byte) : btsp_ins_t :=
  if last_six name ∈ [ascii "orders", ascii "trades", ascii "r_book"] then INS_BTCUSD
  else if last_six name = ascii "btceur" then INS_BTCEUR
  else if last_six name = ascii "eurusd" then INS_EURUSD
  else INS_UNK

/-- No other suffix has the hash of one of these. -/
def Distinct (name : List Byte) : Prop :=
  ∀ w ∈ [ascii "orders", ascii "trades", ascii "r_book", ascii "btceur", ascii "eurusd"],
    hash (last_six name) = hash w → last_six name = w

theorem suffix_instrument {name : List Byte} (h : Distinct name) :
    suffix_ins (hash (last_six name)) = instrument name := by
  have hiff : ∀ w ∈ [ascii "orders", ascii "trades", ascii "r_book", ascii "btceur", ascii "eurusd"],
      (hash (last_six name) = hash w ↔ last_six name = w) := by
    intro w hw
    exact ⟨h w hw, fun he => by rw [he]⟩
  simp only [List.forall_mem_cons, List.not_mem_nil, false_implies, implies_true, and_true] at hiff
  obtain ⟨horders, htrades, hr_book, hbtceur, heurusd⟩ := hiff
  unfold suffix_ins instrument
  simp only [hx_orders, hx_trades, hx_r_book, hx_btceur, hx_eurusd, horders, htrades, hr_book, hbtceur, heurusd,
    List.mem_cons, List.not_mem_nil, or_false]

theorem run_piece {p k n : Nat} {w : List Byte} (hpre : w <+: on.drop p) (hkn : k + n ≤ w.length)
    (hp : p ≤ on.length) :
    Query.run (known on ts) (bytes ((p : Int) + (k : Nat)) n) = some ((w.drop k).take n) := by
  have hlen := hpre.length_le
  rw [List.length_drop] at hlen
  obtain ⟨rest, hrest⟩ := hpre
  have hdrop : (on ++ [0]).drop (p + k) = w.drop k ++ (rest ++ [0]) := by
    rw [← List.drop_drop, List.drop_append_of_le_length (by omega), ← hrest, List.append_assoc,
      List.drop_append_of_le_length (by omega)]
  rw [← Int.natCast_add, run_bytes _ _ (by omega), hdrop, List.take_append_of_le_length]
  rw [List.length_drop]
  omega

theorem run_snarf_chan {t : jsmntok_t} (ht : Within on t) (kind : Kind) (suffix : List Byte)
    (hname : span on t = kind.word ++ suffix) :
    Query.run (known on ts) (snarf_chan t.ptr) = some kind.chan := by
  have hpre : kind.word ++ suffix <+: on.drop t.start := by
    rw [← hname]
    exact List.take_prefix ..
  have hword : kind.word <+: on.drop t.start := (List.prefix_append ..).trans hpre
  have hord := ht.ordered
  have hins := ht.inside
  have hin : t.start ≤ on.length := Nat.le_trans hord hins
  have hdiff : hash (ascii "diff") ≠ hx_live ∧ hash (ascii "orde") ≠ hx_live ∧ hash (ascii "orde") ≠ hx_diff := by
    decide +kernel
  unfold snarf_chan
  rw [ptr_within ht]
  cases kind with
  | book =>
    have hfour : Query.run (known on ts) (bytes ((t.start : Int) + (0 : Nat)) 4) = some (ascii "orde") :=
      run_piece hword (by decide) hin
    have hsix : Query.run (known on ts) (bytes ((t.start : Int) + 4) 6) = some (ascii "r_book") :=
      run_piece (k := 4) hword (by decide) hin
    rw [Int.natCast_zero, Int.add_zero] at hfour
    rw [Query.run_then _ hfour]
    dsimp only
    rw [if_neg (show ¬ hash (ascii "orde") = hx_live from hdiff.2.1),
      if_neg (show ¬ hash (ascii "orde") = hx_diff from hdiff.2.2),
      if_pos (show hash (ascii "orde") = hx_ords from rfl), Query.run_then _ hsix]
    rfl
  | diff =>
    have hfour : Query.run (known on ts) (bytes ((t.start : Int) + (0 : Nat)) 4) = some (ascii "diff") :=
      run_piece hword (by decide) hin
    have hsix : Query.run (known on ts) (bytes ((t.start : Int) + 9) 6) = some (ascii "r_book") :=
      run_piece (k := 9) hword (by decide) hin
    rw [Int.natCast_zero, Int.add_zero] at hfour
    rw [Query.run_then _ hfour]
    dsimp only
    rw [if_neg (show ¬ hash (ascii "diff") = hx_live from hdiff.1),
      if_pos (show hash (ascii "diff") = hx_diff from rfl), Query.run_then _ hsix]
    rfl

theorem run_snarf_ins {t : jsmntok_t} (ht : Within on t) (hlen : 6 ≤ (span on t).length)
    (hdistinct : Distinct (span on t)) :
    Query.run (known on ts) (snarf_ins t.ptr t.len) = some (instrument (span on t)) := by
  have hord := ht.ordered
  have hins := ht.inside
  have hspan := span_length ht
  have hpiece : Query.run (known on ts) (bytes ((t.start : Int) + ((span on t).length - 6 : Nat)) 6) =
      some (((span on t).drop ((span on t).length - 6)).take 6) :=
    run_piece (List.take_prefix ..) (show _ ≤ (span on t).length by omega) (Nat.le_trans hord hins)
  have hlast : ((span on t).drop ((span on t).length - 6)).take 6 = last_six (span on t) := by
    rw [last_six, List.take_of_length_le]
    rw [List.length_drop]
    omega
  have hat : (t.ptr + t.len - 6 : Int) = (t.start : Int) + ((span on t).length - 6 : Nat) := by
    rw [ptr_within ht, len_within ht]
    omega
  unfold snarf_ins
  rw [if_pos (by rw [len_within ht]; omega), hat, Query.run_then _ hpiece, hlast, ← suffix_instrument hdistinct]
  rfl

/-- A member of a line. -/
inductive Member
  | event (k : jsmntok_t) (v : Json)
  | data (k d : jsmntok_t) (parts : List Part)
  | channel (k c : jsmntok_t) (kind : Kind) (suffix : List Byte)

def Member.jsons : Member → List Json
  | event k v => [.node k [], v]
  | data k d parts => [.node k [], .node d (parts.flatMap Part.jsons)]
  | channel k c _ _ => [.node k [], .node c []]

def Member.Fine (on : List Byte) : Member → Prop
  | event k v => k.type = JSMN_STRING ∧ span on k = ascii "event" ∧ ∀ t ∈ pres v.kids, Inert on t
  | data k d _ => k.type = JSMN_STRING ∧ span on k = ascii "data" ∧ d.type = JSMN_OBJECT
  | channel k c kind suffix => k.type = JSMN_STRING ∧ span on k = ascii "channel" ∧ c.type = JSMN_STRING ∧
      span on c = kind.word ++ suffix ∧ Distinct (span on c)

variable (old : (c : Cell) → c.Ans)

/-- All that may be used. -/
def there (on : List Byte) (ts : List jsmntok_t) (old : (c : Cell) → c.Ans) : (c : Cell) → Option c.Ans :=
  Query.limited (legal countof) (memory on ts old)

theorem there_known (hplaces : ts.length ≤ countof) {α : Type} {q : Prog α} {a : α}
    (h : Query.run (known on ts) q = some a) : Query.run (there on ts old) q = some a :=
  run_legal hplaces old h

theorem there_bytes (p : Int) (n : Nat) :
    Query.run (there on ts old) (bytes p n) = some ((bytes p n).eval (memory on ts old)) := by
  refine (Query.run_limited ..).mpr ⟨rfl, fun c hc => ?_⟩
  obtain ⟨q, rfl⟩ := asked_bytes _ _ _ c hc
  rfl

theorem hash_key {t : jsmntok_t} (ht : Within on t) {w : List Byte} (hw : w ∈ keys) (hpre : w <+: span on t) :
    hash ((bytes t.ptr 4).eval (memory on ts old)) = hash w := by
  obtain ⟨hlen, hzero⟩ := keys_four w hw
  exact (hash_four old ht hlen hzero).mpr (hpre.trans (List.take_prefix ..))

theorem run_pair_inert (hplaces : ts.length ≤ countof) {i : Nat} {t : jsmntok_t} {l : List jsmntok_t}
    (hdrop : ts.drop i = t :: l) (ht : Within on t) (hinert : Inert on t) (beef : Beef) :
    Query.run (there on ts old) (pair beef i) = some (beef, i) := by
  unfold pair
  rw [Query.run_then _ (there_known old hplaces (run_here hdrop))]
  by_cases htype : t.type = JSMN_STRING
  · have hno : ∀ w ∈ keys, ¬ hash ((bytes t.ptr 4).eval (memory on ts old)) = hash w := by
      intro w hw h
      obtain ⟨hlen, hzero⟩ := keys_four w hw
      exact hinert htype w hw ((hash_four old ht hlen hzero).mp h)
    have hchan : ¬ hash ((bytes t.ptr 4).eval (memory on ts old)) = hx_chan := hno _ (by decide)
    have hevnt : ¬ hash ((bytes t.ptr 4).eval (memory on ts old)) = hx_evnt := hno _ (by decide)
    have hdata : ¬ hash ((bytes t.ptr 4).eval (memory on ts old)) = hx_data := hno _ (by decide)
    rw [if_neg (not_not.mpr htype), Query.run_then _ (there_bytes ..)]
    dsimp only
    rw [if_neg hchan, if_neg hevnt, if_neg hdata]
    rfl
  · rw [if_pos htype]
    rfl

theorem run_pair_channel (hplaces : ts.length ≤ countof) {i : Nat} {k c : jsmntok_t} {l : List jsmntok_t}
    (hdrop : ts.drop i = k :: c :: l) (hk : Within on k) (hc : Within on c) {kind : Kind}
    {suffix : List Byte} (hfine : (Member.channel k c kind suffix).Fine on) (beef : Beef) :
    Query.run (there on ts old) (pair beef i) =
      some ({ beef with ch := kind.chan, ins := instrument (kind.word ++ suffix) }, i + 1) := by
  obtain ⟨htype, hkey, hstring, hname, hdistinct⟩ := hfine
  have hchan : hash ((bytes k.ptr 4).eval (memory on ts old)) = hx_chan :=
    hash_key old hk (w := ascii "chan") (by decide) (by rw [hkey]; decide)
  have hsix : 6 ≤ (span on c).length := by
    rw [hname, List.length_append]
    cases kind <;> exact Nat.le_add_right_of_le (by decide)
  unfold pair
  rw [Query.run_then _ (there_known old hplaces (run_here hdrop)), if_neg (not_not.mpr htype),
    Query.run_then _ (there_bytes ..)]
  dsimp only
  rw [if_pos hchan, Query.run_then _ (there_known old hplaces (run_at hdrop 1 rfl)), if_pos hstring,
    Query.run_then _ (there_known old hplaces (run_snarf_chan hc kind suffix hname)),
    Query.run_then _ (there_known old hplaces (run_snarf_ins hc hsix hdistinct)), hname]
  rfl

theorem run_pair_event (hplaces : ts.length ≤ countof) {i : Nat} {k v : jsmntok_t} {l : List jsmntok_t}
    (hdrop : ts.drop i = k :: v :: l) (hk : Within on k) (hv : Within on v) (htype : k.type = JSMN_STRING)
    (hkey : span on k = ascii "event") (beef : Beef) :
    ∃ ev, Query.run (there on ts old) (pair beef i) = some ({ beef with ev := ev }, i + 1) := by
  have hne : hx_evnt ≠ hx_chan := by decide +kernel
  have hevnt : hash ((bytes k.ptr 4).eval (memory on ts old)) = hx_evnt :=
    hash_key old hk (w := ascii "even") (by decide) (by rw [hkey]; decide)
  unfold pair
  rw [Query.run_then _ (there_known old hplaces (run_here hdrop)), if_neg (not_not.mpr htype),
    Query.run_then _ (there_bytes ..)]
  dsimp only
  rw [if_neg (by rw [hevnt]; exact hne), if_pos hevnt,
    Query.run_then _ (there_known old hplaces (run_at hdrop 1 rfl))]
  by_cases hstring : v.type = JSMN_STRING
  · rw [if_pos hstring, Query.run_then _ (there_known old hplaces (run_text hv))]
    exact ⟨_, rfl⟩
  · rw [if_neg hstring]
    exact ⟨beef.ev, rfl⟩

theorem run_pair_data (hplaces : ts.length ≤ countof) {i : Nat} {k d b : jsmntok_t} {kids : List Json}
    {bs : List jsmntok_t} (hdrop : ts.drop i = [k] ++ ((Branch.node d kids).pre ++ b :: bs))
    (hk : Within on k) (htype : k.type = JSMN_STRING) (hkey : span on k = ascii "data")
    (hobject : d.type = JSMN_OBJECT)
    (hnested : (Branch.node d kids).nested jsmntok_t.start jsmntok_t.end_ = true) (hb : d.end_ ≤ b.start)
    (beef : Beef) :
    Query.run (there on ts old) (pair beef i) =
      some ({ beef with dbeg := i + 2, dend := d.end_ }, i + 1 + (pres kids).length) := by
  have hne : hx_data ≠ hx_chan ∧ hx_data ≠ hx_evnt := by decide +kernel
  have hdata : hash ((bytes k.ptr 4).eval (memory on ts old)) = hx_data :=
    hash_key old hk (w := ascii "data") (by decide) (hkey ▸ List.prefix_refl _)
  have hval := drop_more hdrop
  have hlen := Nat.le_succ_of_le (Nat.le_trans (drop_fits hval) hplaces)
  have hskip : Query.run (known on ts) (skip d.end_ (countof + 1) (i + 1)) = _ :=
    run_skip_tree hnested hval hb (countof + 1) hlen
  rw [pre_node] at hdrop
  unfold pair
  rw [Query.run_then _ (there_known old hplaces (run_here hdrop)), if_neg (not_not.mpr htype),
    Query.run_then _ (there_bytes ..)]
  dsimp only
  rw [if_neg (by rw [hdata]; exact hne.1), if_neg (by rw [hdata]; exact hne.2), if_pos hdata,
    Query.run_then _ (there_known old hplaces (run_at hdrop 1 rfl)), if_pos hobject,
    Query.run_then _ (there_known old hplaces hskip), pre_node]
  rfl

theorem run_fill_inert (hplaces : ts.length ≤ countof) (l : List jsmntok_t) (r i fuel : Nat) (beef : Beef)
    {rest : List jsmntok_t} (hdrop : ts.drop i = l ++ rest) (hin : ∀ t ∈ l, Within on t)
    (hinert : ∀ t ∈ l, Inert on t) (hr : i + l.length ≤ r) (hfuel : l.length ≤ fuel) :
    Query.run (there on ts old) (fill r fuel beef i) =
      Query.run (there on ts old) (fill r (fuel - l.length) beef (i + l.length)) := by
  induction l generalizing i fuel with
  | nil => rfl
  | cons t l ih =>
    rw [List.length_cons] at hr hfuel
    obtain ⟨fuel, rfl⟩ : ∃ f, fuel = f + 1 := ⟨fuel - 1, by omega⟩
    conv => lhs; unfold fill
    rw [if_pos (by omega), Query.run_then _ (run_pair_inert old hplaces hdrop (hin t (List.mem_cons_self ..))
      (hinert t (List.mem_cons_self ..)) beef)]
    dsimp only
    rw [ih (i + 1) fuel (drop_more (l := [t]) hdrop) (fun t ht => hin t (List.mem_cons_of_mem _ ht))
      (fun t ht => hinert t (List.mem_cons_of_mem _ ht)) (by omega) (by omega), List.length_cons]
    congr 2 <;> omega

/-- The members `parts` of `d` begin at the place in the beef, and something comes behind them. -/
def Begins (ts : List jsmntok_t) (d : jsmntok_t) (parts : List Part) (beef : Beef) : Prop :=
  beef.dend = d.end_ ∧
    ∃ b bs, ts.drop beef.dbeg = pres (parts.flatMap Part.jsons) ++ b :: bs ∧ d.end_ ≤ b.start

theorem run_fill_step {r i fuel : Nat} {beef beef' : Beef} {j : Nat} (hi : i < r)
    (hpair : Query.run (there on ts old) (pair beef i) = some (beef', j)) :
    Query.run (there on ts old) (fill r (fuel + 1) beef i) =
      Query.run (there on ts old) (fill r fuel beef' (j + 1)) := by
  conv => lhs; unfold fill
  rw [if_pos hi, Query.run_then _ hpair]

/-- What is known of channel and data after a member. -/
def Noted (ts : List jsmntok_t) (wc : btsp_chan_t × btsp_ins_t) (wd : jsmntok_t × List Part)
    (members : List Member) (beef beef' : Beef) : Prop :=
  ((beef'.ch, beef'.ins) = wc ∨
    (∀ k c kind suffix, Member.channel k c kind suffix ∉ members) ∧ beef'.ch = beef.ch ∧ beef'.ins = beef.ins) ∧
  (Begins ts wd.1 wd.2 beef' ∨
    (∀ k d parts, Member.data k d parts ∉ members) ∧ beef'.dbeg = beef.dbeg ∧ beef'.dend = beef.dend)

theorem noted_cons {wc : btsp_chan_t × btsp_ins_t} {wd : jsmntok_t × List Part} {x : Member}
    {members : List Member} {beef beef₁ beef' : Beef} (h : Noted ts wc wd [x] beef beef₁)
    (h' : Noted ts wc wd members beef₁ beef') : Noted ts wc wd (x :: members) beef beef' := by
  obtain ⟨hc, hd⟩ := h
  obtain ⟨hc', hd'⟩ := h'
  constructor
  · rcases hc' with hc' | ⟨hno', hch, hins⟩
    · exact Or.inl hc'
    · rw [hch, hins]
      rcases hc with hc | ⟨hno, hsame⟩
      · exact Or.inl hc
      · refine Or.inr ⟨fun k c kind suffix hmem => ?_, hsame⟩
        rcases List.mem_cons.mp hmem with rfl | hmem
        · exact hno _ _ _ _ (List.mem_singleton.mpr rfl)
        · exact hno' _ _ _ _ hmem
  · rcases hd' with hd' | ⟨hno', hbeg, hend⟩
    · exact Or.inl hd'
    · unfold Begins
      rw [hbeg, hend]
      rcases hd with hd | ⟨hno, hsame⟩
      · exact Or.inl hd
      · refine Or.inr ⟨fun k d parts hmem => ?_, hsame⟩
        rcases List.mem_cons.mp hmem with rfl | hmem
        · exact hno _ _ _ (List.mem_singleton.mpr rfl)
        · exact hno' _ _ _ hmem

/-- **One member**: the loop is behind it then. -/
theorem run_fill_member (hplaces : ts.length ≤ countof) {wc : btsp_chan_t × btsp_ins_t}
    {wd : jsmntok_t × List Part} {x : Member} (hfine : x.Fine on)
    (hwc : ∀ k c kind suffix, x = Member.channel k c kind suffix →
      wc = (kind.chan, instrument (kind.word ++ suffix)))
    (hwd : ∀ k d parts, x = Member.data k d parts → wd = (d, parts)) {b : jsmntok_t} {bs : List jsmntok_t}
    {r i fuel : Nat} (beef : Beef) (hdrop : ts.drop i = pres x.jsons ++ b :: bs)
    (hb : ∀ j ∈ x.jsons, j.root.end_ ≤ b.start)
    (hnested : ∀ j ∈ x.jsons, j.nested jsmntok_t.start jsmntok_t.end_ = true)
    (hin : ∀ t ∈ pres x.jsons, Within on t) (hr : i + (pres x.jsons).length ≤ r)
    (hfuel : (pres x.jsons).length ≤ fuel) :
    ∃ fuel' beef₁, fuel ≤ fuel' + (pres x.jsons).length ∧ Noted ts wc wd [x] beef beef₁ ∧
      Query.run (there on ts old) (fill r fuel beef i) =
        Query.run (there on ts old) (fill r fuel' beef₁ (i + (pres x.jsons).length)) := by
  cases x with
  | event k v =>
    obtain ⟨htype, hkey, hinert⟩ := hfine
    have hjsons : pres (Member.event k v).jsons = k :: v.root :: pres v.kids := by
      rw [Member.jsons, pres_cons, pres_cons, pres_nil, pre_node, pre_eq v]
      simp
    rw [hjsons] at hdrop hin hr hfuel ⊢
    simp only [List.length_cons] at hr hfuel ⊢
    obtain ⟨fuel, rfl⟩ : ∃ f, fuel = f + 1 := ⟨fuel - 1, by omega⟩
    obtain ⟨ev, hpair⟩ := run_pair_event old hplaces hdrop (hin _ (by simp)) (hin _ (by simp)) htype hkey beef
    have hrest : ts.drop (i + 1 + 1) = pres v.kids ++ b :: bs := drop_more (l := [k, v.root]) hdrop
    refine ⟨fuel - (pres v.kids).length, { beef with ev := ev }, by omega,
      ⟨Or.inr ⟨by simp, rfl, rfl⟩, Or.inr ⟨by simp, rfl, rfl⟩⟩, ?_⟩
    rw [run_fill_step old (by omega) hpair, run_fill_inert old hplaces (pres v.kids) r (i + 1 + 1) fuel _ hrest
      (fun t ht => hin t (by simp [ht])) hinert (by omega) (by omega),
      show i + 1 + 1 + (pres v.kids).length = i + ((pres v.kids).length + 1 + 1) by omega]
  | data k d parts =>
    obtain ⟨htype, hkey, hobject⟩ := hfine
    have hcut : ts.drop i = [k] ++ ((Branch.node d (parts.flatMap Part.jsons)).pre ++ b :: bs) := by
      rw [hdrop]
      simp [Member.jsons]
    have hjsons : pres (Member.data k d parts).jsons = k :: d :: pres (parts.flatMap Part.jsons) := by
      simp [Member.jsons]
    have hmem : Branch.node d (parts.flatMap Part.jsons) ∈ (Member.data k d parts).jsons := by
      simp [Member.jsons]
    rw [hjsons] at hin hr hfuel ⊢
    simp only [List.length_cons] at hr hfuel ⊢
    obtain ⟨fuel, rfl⟩ : ∃ f, fuel = f + 1 := ⟨fuel - 1, by omega⟩
    have hpair := run_pair_data old hplaces hcut (hin _ (by simp)) htype hkey hobject (hnested _ hmem)
      (hb _ hmem) beef
    have hbegin : ts.drop (i + 2) = pres (parts.flatMap Part.jsons) ++ b :: bs := by
      rw [pre_node] at hcut
      exact drop_more (l := [k, d]) hcut
    refine ⟨fuel, { beef with dbeg := i + 2, dend := d.end_ }, by omega, ⟨Or.inr ⟨by simp, rfl, rfl⟩, Or.inl ?_⟩, ?_⟩
    · rw [hwd k d parts rfl]
      exact ⟨rfl, b, bs, hbegin, hb _ hmem⟩
    · rw [run_fill_step old (by omega) hpair, show i + 1 + (pres (parts.flatMap Part.jsons)).length + 1 =
        i + ((pres (parts.flatMap Part.jsons)).length + 1 + 1) by omega]
  | channel k c kind suffix =>
    have hjsons : pres (Member.channel k c kind suffix).jsons = [k, c] := by
      simp [Member.jsons]
    rw [hjsons] at hdrop hin hr hfuel ⊢
    simp only [List.length_cons, List.length_nil] at hr hfuel ⊢
    obtain ⟨fuel, rfl⟩ : ∃ f, fuel = f + 1 := ⟨fuel - 1, by omega⟩
    have hpair := run_pair_channel old hplaces hdrop (hin _ (by simp)) (hin _ (by simp)) hfine beef
    refine ⟨fuel, { beef with ch := kind.chan, ins := instrument (kind.word ++ suffix) }, by omega,
      ⟨Or.inl (hwc k c kind suffix rfl).symm, Or.inr ⟨by simp, rfl, rfl⟩⟩, ?_⟩
    rw [run_fill_step old (by omega) hpair]

/-- **The beef**: what the channel and the data are, wherever they are among the members. -/
theorem run_fill (hplaces : ts.length ≤ countof) {h : Nat} {s : jsmntok_t} (hs : h ≤ s.start)
    (wc : btsp_chan_t × btsp_ins_t) (wd : jsmntok_t × List Part) (members : List Member)
    (hfine : ∀ x ∈ members, x.Fine on)
    (hwc : ∀ k c kind suffix, Member.channel k c kind suffix ∈ members →
      wc = (kind.chan, instrument (kind.word ++ suffix)))
    (hwd : ∀ k d parts, Member.data k d parts ∈ members → wd = (d, parts)) (r i l fuel : Nat) (beef : Beef)
    (hlh : l ≤ h) (hall : nestedAll jsmntok_t.start jsmntok_t.end_ l h (members.flatMap Member.jsons) = true)
    (hdrop : ts.drop i = pres (members.flatMap Member.jsons) ++ [s])
    (hin : ∀ t ∈ pres (members.flatMap Member.jsons), Within on t)
    (hr : i + (pres (members.flatMap Member.jsons)).length = r)
    (hfuel : (pres (members.flatMap Member.jsons)).length ≤ fuel) :
    ∃ beef', Query.run (there on ts old) (fill r fuel beef i) = some beef' ∧
      Noted ts wc wd members beef beef' := by
  induction members generalizing i l fuel beef with
  | nil =>
    refine ⟨beef, ?_, Or.inr ⟨fun _ _ _ _ => List.not_mem_nil, rfl, rfl⟩,
      Or.inr ⟨fun _ _ _ => List.not_mem_nil, rfl, rfl⟩⟩
    have hend : ¬ i < r := by
      rw [List.flatMap_nil, pres_nil] at hr
      exact Nat.not_lt.mpr (Nat.le_of_eq hr.symm)
    cases fuel with
    | zero => rfl
    | succ fuel =>
      unfold fill
      rw [if_neg hend]
      rfl
  | cons x members ih =>
    have hnested := nestedAll_nested _ _ _ hall
    rw [List.flatMap_cons] at hall hdrop hin hr hfuel hnested
    rw [pres_append] at hdrop hin hr hfuel
    rw [List.append_assoc] at hdrop
    rw [List.length_append] at hr hfuel
    obtain ⟨m, -, hmh, hm, hrest⟩ := nestedAll_split _ _ hlh _ _ hall
    obtain ⟨b, bs, hbs, hb⟩ := nestedAll_next _ _ _ hrest hmh s [] hs
    have hfirst : (pres x.jsons).length ≤ fuel := by omega
    obtain ⟨fuel', beef₁, hfuel', hnoted, hrun⟩ := run_fill_member old hplaces (hfine x (List.mem_cons_self ..))
      (fun k c kind suffix hx => hwc k c kind suffix (hx ▸ List.mem_cons_self ..))
      (fun k d parts hx => hwd k d parts (hx ▸ List.mem_cons_self ..)) beef (hbs ▸ hdrop)
      (fun j hj => Nat.le_trans (hm j hj) hb) (fun j hj => hnested j (List.mem_append_left _ hj))
      (fun t ht => hin t (List.mem_append_left _ ht)) (r := r) (by omega) hfirst
    obtain ⟨beef', hrun', hnoted'⟩ := ih (fun y hy => hfine y (List.mem_cons_of_mem _ hy))
      (fun k c kind suffix h => hwc k c kind suffix (List.mem_cons_of_mem _ h))
      (fun k d parts h => hwd k d parts (List.mem_cons_of_mem _ h)) (i + (pres x.jsons).length) m fuel' beef₁
      hmh hrest (drop_more hdrop) (fun t ht => hin t (List.mem_append_right _ ht)) (by omega) (by omega)
    exact ⟨beef', hrun.trans hrun', noted_cons hnoted hnoted'⟩

end

/-! ## Lines -/

/-- `{"event":..., "data":{members}, "channel":name}` with its members in any order, and bids and asks
among those of the data. -/
structure BookLine extends Line countof (chr '{') where
  head : jsmntok_t
  members : List Member
  ek : jsmntok_t
  ev : Json
  dk : jsmntok_t
  d : jsmntok_t
  parts : List Part
  ck : jsmntok_t
  c : jsmntok_t
  kind : Kind
  suffix : List Byte
  bk : jsmntok_t
  ba : jsmntok_t
  bids : List Level
  ak : jsmntok_t
  aa : jsmntok_t
  asks : List Level
  others : List Part
  shape : root = .node head (members.flatMap Member.jsons)
  head_object : head.type = JSMN_OBJECT
  any_order : members.Perm [.event ek ev, .data dk d parts, .channel ck c kind suffix]
  either_order : parts.Perm (.list .bids bk ba bids :: .list .asks ak aa asks :: others)
  no_list : ∀ x ∈ others, ∃ k v, x = .other k v
  members_fine : ∀ x ∈ members, x.Fine on
  parts_fine : ∀ x ∈ parts, x.Fine on
  clear : ∀ t ∈ pres (parts.flatMap Part.jsons), Clear on t
  fewer : root.pre.length < countof

namespace BookLine

variable (l : BookLine)

/-- A record for each bid and one for each ask, the first ones of a book at level 1. -/
def out : List (List Byte) :=
  let ins := instrument (l.kind.word ++ l.suffix)
  let lvl := match l.kind with
    | .book => chr '1'
    | .diff => chr '2'
  rows l.on (label l.stamp.tv ins (chr 'B')) (chr '2') lvl l.bids ++
    rows l.on (label l.stamp.tv ins (chr 'A')) (chr '2') lvl l.asks

theorem list_mem {sd : Side} {k a : jsmntok_t} {vs : List Level} (h : Part.list sd k a vs ∈ l.parts) :
    (a, vs) = match sd with
      | .bids => (l.ba, l.bids)
      | .asks => (l.aa, l.asks) := by
  have h := l.either_order.mem_iff.mp h
  simp only [List.mem_cons, Part.list.injEq] at h
  rcases h with ⟨rfl, -, rfl, rfl⟩ | ⟨rfl, -, rfl, rfl⟩ | h
  · rfl
  · rfl
  · obtain ⟨k', v, h⟩ := l.no_list _ h
    cases h

theorem pre_line : l.root.pre = l.head :: pres (l.members.flatMap Member.jsons) := by
  rw [l.shape, pre_node]

theorem nested_line : nestedAll jsmntok_t.start jsmntok_t.end_ l.head.start l.head.end_
    (l.members.flatMap Member.jsons) = true := by
  have h := l.nested
  rw [l.shape] at h
  exact ((nested_node ..).mp h).2

theorem data_mem : Branch.node l.d (l.parts.flatMap Part.jsons) ∈ l.members.flatMap Member.jsons :=
  List.mem_flatMap.mpr ⟨_, l.any_order.mem_iff.mpr (List.mem_cons_of_mem _ (List.mem_cons_self ..)),
    by simp [Member.jsons]⟩

theorem within_parts (t : jsmntok_t) (ht : t ∈ pres (l.parts.flatMap Part.jsons)) : Within l.on t := by
  refine l.within t ?_
  rw [l.pre_line]
  refine List.mem_cons_of_mem _ (mem_pres l.data_mem ?_)
  rw [pre_node]
  exact List.mem_cons_of_mem _ ht

section
variable {l} {s : jsmntok_t}

/-- **The lists** of the beef are printed, bids first, if there is room. -/
theorem run_book {beef : Beef} (hbegins : Begins (l.root.pre ++ [s]) l.d l.parts beef)
    (hins : beef.ins = instrument (l.kind.word ++ l.suffix)) (hch : beef.ch = l.kind.chan)
    (hfits : ∀ r ∈ l.out, r.length ≤ 256) :
    Query.run (known l.on (l.root.pre ++ [s])) (book l.stamp.tv beef) = some ⟨0, l.out⟩ := by
  obtain ⟨hend, b, bs, hdrop, hb⟩ := hbegins
  have hplaces : (l.root.pre ++ [s]).length ≤ countof := by
    have := l.fewer
    rw [List.length_append, List.length_singleton]
    omega
  have hdata := nestedAll_nested _ _ _ l.nested_line _ l.data_mem
  have hall := ((nested_node ..).mp hdata).2
  have hbids := l.either_order.mem_iff.mpr (List.mem_cons_self ..)
  have hasks := l.either_order.mem_iff.mpr (List.mem_cons_of_mem _ (List.mem_cons_self ..))
  have hfuel := Nat.lt_succ_of_le (Nat.le_trans (drop_fits hdrop) hplaces)
  obtain ⟨ls, hlists, hfound⟩ := run_lists hb hplaces
    (fun | .bids => (l.ba, l.bids) | .asks => (l.aa, l.asks)) l.parts l.parts_fine
    (fun sd k a vs h => by have := l.list_mem h; cases sd <;> exact this.symm) beef.dbeg _ (countof + 1)
    ⟨0, 0, 0, 0⟩ hall hdrop l.within_parts l.clear hfuel
  have hbid := (hfound .bids).resolve_right fun h => h.1 _ _ _ hbids
  have hask := (hfound .asks).resolve_right fun h => h.1 _ _ _ hasks
  unfold out at hfits ⊢
  rw [← hins] at hfits ⊢
  have hlvl : (match l.kind with | .book => chr '1' | .diff => chr '2') =
      if beef.ch = CHAN_BOOK then chr '1' else chr '2' := by
    rw [hch]
    cases l.kind <;> rfl
  dsimp only at hfits ⊢
  rw [hlvl] at hfits ⊢
  have hbidrun := run_found l.parts_fine hplaces hall l.within_parts hbids hbid
    (label l.stamp.tv beef.ins (chr 'B')) (chr '2') (if beef.ch = CHAN_BOOK then chr '1' else chr '2')
  have haskrun := run_found l.parts_fine hplaces hall l.within_parts hasks hask
    (label l.stamp.tv beef.ins (chr 'A')) (chr '2') (if beef.ch = CHAN_BOOK then chr '1' else chr '2')
  rw [if_pos fun r hr => hfits r (List.mem_append_left _ hr)] at hbidrun
  rw [if_pos fun r hr => hfits r (List.mem_append_right _ hr)] at haskrun
  dsimp only [Lists.at] at hbidrun haskrun
  unfold book
  rw [hend, Query.run_then _ hlists]
  dsimp only
  rw [Query.run_then _ hbidrun, Query.run_then _ haskrun]
  rfl

/-- **With room for the records**: a finaliser, and the records of the lists. -/
theorem run_process (hs : s.start = npos) (old : (c : Cell) → c.Ans) (hfits : ∀ r ∈ l.out, r.length ≤ 256) :
    Query.run (there l.on (l.root.pre ++ [s]) old) (process l.stamp.tv l.root.pre.length) =
      some ⟨0, l.out⟩ := by
  have hplaces : (l.root.pre ++ [s]).length ≤ countof := by
    have := l.fewer
    rw [List.length_append, List.length_singleton]
    omega
  have hshort := l.short
  have hinside := l.inside
  have hroot : l.root.root = l.head := by
    rw [l.shape, root_node]
  rw [hroot] at hinside
  have hfirst : (l.root.pre ++ [s])[0]? = some l.head := by
    rw [l.pre_line]
    rfl
  have hlast : (l.root.pre ++ [s])[l.root.pre.length]? = some s := by
    rw [List.getElem?_append_right (Nat.le_refl _), Nat.sub_self]
    rfl
  have hdrop : (l.root.pre ++ [s]).drop 1 = pres (l.members.flatMap Member.jsons) ++ [s] := by
    rw [l.pre_line]
    rfl
  have hlen : 1 + (pres (l.members.flatMap Member.jsons)).length = l.root.pre.length := by
    rw [l.pre_line, List.length_cons, Nat.add_comm]
  have hmem := fun x => l.any_order.mem_iff (a := x)
  have hord := l.nested
  rw [l.shape, nested_node] at hord
  obtain ⟨beef, hfill, hch, hbegins⟩ := run_fill old hplaces
    (show l.head.end_ ≤ s.start by rw [hs]; unfold npos; omega)
    (l.kind.chan, instrument (l.kind.word ++ l.suffix)) (l.d, l.parts) l.members l.members_fine
    (fun k c kind suffix h => by
      have h := (hmem _).mp h
      simp only [List.mem_cons, List.not_mem_nil, or_false, reduceCtorEq, false_or, Member.channel.injEq] at h
      rw [h.2.2.1, h.2.2.2])
    (fun k d parts h => by
      have h := (hmem _).mp h
      simp only [List.mem_cons, List.not_mem_nil, or_false, reduceCtorEq, false_or, Member.data.injEq] at h
      rw [h.2.1, h.2.2])
    l.root.pre.length 1 _ l.root.pre.length ⟨CHAN_UNK, INS_UNK, 0, 0, 0⟩ hord.1 l.nested_line hdrop
    (fun t ht => l.within t (by rw [l.pre_line]; exact List.mem_cons_of_mem _ ht)) hlen (by omega)
  have hchannel := hch.resolve_right fun h => h.1 l.ck l.c l.kind l.suffix ((hmem _).mpr (by simp))
  have hdata := hbegins.resolve_right fun h => h.1 l.dk l.d l.parts ((hmem _).mpr (by simp))
  obtain ⟨hchan, hins⟩ := Prod.mk.inj hchannel
  have hbook := there_known old hplaces (run_book hdata hins hchan hfits)
  unfold process
  rw [Query.run_then _ (there_known old hplaces (run_nth hfirst)), if_neg (not_not.mpr l.head_object),
    Query.run_then _ (there_known old hplaces (run_nth hlast)), Query.run_then _ hfill, hchan]
  cases hkind : l.kind <;> exact hbook

end

end BookLine

/-! ## One bid and one ask -/

def xbt_text (front name back : List Byte) : List Byte :=
  ascii "\x7b" ++ front ++ ascii "\"data\":\x7b\"bids\":[[\"1\",\"2\"]],\"asks\":[[\"3\",\"4\"]]\x7d,\"channel\":\"" ++
    name ++ ascii "\"" ++ back ++ ascii "\x7d\n"

def xbt_on : List Byte := xbt_text (ascii "\"event\":\"data\",") (ascii "order_book") []

def xbt_parts (on : List Byte) : List Part :=
  let t := nth_token on
  [.list .bids (t 5) (t 6) [⟨t 7, t 8, t 9, []⟩], .list .asks (t 10) (t 11) [⟨t 12, t 13, t 14, []⟩]]

def xbt_members (on : List Byte) : List Member :=
  let t := nth_token on
  [.event (t 1) (leaf on 2), .data (t 3) (t 4) (xbt_parts on), .channel (t 15) (t 16) .book []]

def xbt_root : Json := .node (nth_token xbt_on 0) ((xbt_members xbt_on).flatMap Member.jsons)

theorem xbt_fine : ∀ x ∈ xbt_members xbt_on, x.Fine xbt_on := by
  intro x hx
  simp only [xbt_members, List.mem_cons, List.not_mem_nil, or_false] at hx
  rcases hx with rfl | rfl | rfl
  · exact ⟨by decide +kernel, by decide +kernel, fun t ht => by cases ht⟩
  · exact ⟨by decide +kernel, by decide +kernel, by decide +kernel⟩
  · exact ⟨by decide +kernel, by decide +kernel, by decide +kernel, by decide +kernel,
      by unfold Distinct; decide +kernel⟩

theorem xbt_parts_fine : ∀ x ∈ xbt_parts xbt_on, x.Fine xbt_on := by
  intro x hx
  simp only [xbt_parts, List.mem_cons, List.not_mem_nil, or_false] at hx
  rcases hx with rfl | rfl
  · refine ⟨by decide +kernel, fun v hv => ?_⟩
    rw [List.mem_singleton.mp hv]
    exact ⟨by decide +kernel, rfl⟩
  · refine ⟨by decide +kernel, fun v hv => ?_⟩
    rw [List.mem_singleton.mp hv]
    exact ⟨by decide +kernel, rfl⟩

theorem xbt_clear : ∀ t ∈ pres ((xbt_parts xbt_on).flatMap Part.jsons), Clear xbt_on t := by
  have hall : ∀ t ∈ pres ((xbt_parts xbt_on).flatMap Part.jsons),
      (hash (span xbt_on t) = hash (ascii "bids") → span xbt_on t = ascii "bids") ∧
      (hash (span xbt_on t) = hash (ascii "asks") → span xbt_on t = ascii "asks") := by
    decide +kernel
  intro t ht sd
  cases sd
  · exact (hall t ht).1
  · exact (hall t ht).2

def xbt_line : BookLine where
  stamp := Bitfin2b.noon
  on := xbt_on
  root := xbt_root
  begins := by decide +kernel
  parsed := by decide +kernel
  nested := by decide +kernel
  inside := by decide +kernel
  short := by decide +kernel
  head := nth_token xbt_on 0
  members := xbt_members xbt_on
  ek := nth_token xbt_on 1
  ev := leaf xbt_on 2
  dk := nth_token xbt_on 3
  d := nth_token xbt_on 4
  parts := xbt_parts xbt_on
  ck := nth_token xbt_on 15
  c := nth_token xbt_on 16
  kind := .book
  suffix := []
  bk := nth_token xbt_on 5
  ba := nth_token xbt_on 6
  bids := [⟨nth_token xbt_on 7, nth_token xbt_on 8, nth_token xbt_on 9, []⟩]
  ak := nth_token xbt_on 10
  aa := nth_token xbt_on 11
  asks := [⟨nth_token xbt_on 12, nth_token xbt_on 13, nth_token xbt_on 14, []⟩]
  others := []
  shape := rfl
  head_object := by decide +kernel
  any_order := List.Perm.refl _
  either_order := List.Perm.refl _
  no_list := fun x hx => by cases hx
  members_fine := xbt_fine
  parts_fine := xbt_parts_fine
  clear := xbt_clear
  fewer := by decide +kernel

/-- What these lines would print under an instrument. -/
def xbt_records (ins : btsp_ins_t) : List (List Byte) :=
  [label Bitfin2b.noon.tv ins (chr 'B') (chr '1') ++ ascii "1\t2\n",
    label Bitfin2b.noon.tv ins (chr 'A') (chr '1') ++ ascii "3\t4\n"]

end Coins.Quotes.Btsp2b
