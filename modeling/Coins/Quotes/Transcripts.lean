import Coins.Quotes.Channels
import Coins.Quotes.Trt2b

/-!
# Transcripts

What `trt2b` prints for the order books and changes that the exchange sends, as JSON with any gaps.
-/

open Coins.Numeral Coins.Questions Coins.Forest

namespace Coins.Quotes.Trt2b

open jsmntype_t

/-! ## Messages -/

/-- A level, whatever its members are called. -/
structure Quote where
  pk : List Byte
  price : Scalar
  ak : List Byte
  amount : Scalar

def Quote.data (q : Quote) : Data := .group .brace (.object [(q.pk, q.price.data), (q.ak, q.amount.data)])

def Quote.row (hdr : List Byte) (q : Quote) : List Byte := hdr ++ q.price.text ++ [tab] ++ q.amount.text ++ [nl]

/-- An order book, or the change of one level, with what may come behind. -/
inductive Event
  | book (ask_key : List Byte) (asks : List Quote) (bid_key : List Byte) (bids : List Quote)
      (others : List (List Byte × Data))
  | diff (side_key : List Byte) (side : Scalar) (q : Quote) (others : List (List Byte × Data))

def list (qs : List Quote) : Data := .group .square (.array (qs.map Quote.data))

def Event.word : Event → List Byte
  | book .. => ascii "orderbook"
  | diff .. => ascii "orderbook_diff"

def Event.members : Event → List (List Byte × Data)
  | book ak asks bk bids others => (ak, list asks) :: (bk, list bids) :: others
  | diff sk side q others => (sk, side.data) :: (q.pk, q.price.data) :: (q.ak, q.amount.data) :: others

/-- `{"event":..., "data":{...}, ..., "channel":name}` -/
structure Message where
  event : Event
  more : List (List Byte × Data)
  name : Scalar

def Message.data (m : Message) : Data :=
  .group .brace (.object ((ascii "event", .quoted m.event.word) ::
    (ascii "data", .group .brace (.object m.event.members)) :: (m.more ++ [(ascii "channel", m.name.data)])))

/-- In front of every record. -/
def Message.hdr (rt : tv_t) (m : Message) : List Byte := tvtostr rt ++ [tab] ++ m.name.text ++ [tab]

/-- A record that empties the book, and one for each ask and each bid; or one with the change. -/
def Message.records (rt : tv_t) (m : Message) : List (List Byte) :=
  match m.event with
  | .book _ asks _ bids _ =>
    (m.hdr rt ++ ascii "clr0\t\t\n") ::
      (asks.map (Quote.row (m.hdr rt ++ ascii "ask2\t")) ++ bids.map (Quote.row (m.hdr rt ++ ascii "bid2\t")))
  | .diff _ side q _ => [q.row (m.hdr rt ++ side.text ++ ascii "2\t")]

/-! ## Levels -/

section
variable {on : List Byte} {ts : List jsmntok_t}

theorem shows_quote {q : Quote} {t : Json} (h : Depicts on q.data t) :
    ∃ o pk p ak a, t = .node o [.node pk [], .node p [], .node ak [], .node a []] ∧ span on p = q.price.text ∧
      span on a = q.amount.text := by
  cases h with
  | group _ _ hkids =>
    cases hkids with
    | member _ _ hp hrest =>
      cases hrest with
      | member _ _ ha hnil =>
        cases hnil
        obtain ⟨p, rfl, hpspan⟩ := shows_scalar hp
        obtain ⟨a, rfl, haspan⟩ := shows_scalar ha
        exact ⟨_, _, p, _, a, rfl, hpspan, haspan⟩

theorem shows_length {ds : List Data} {kids : List Json} (h : DepictsAll on (.array ds) kids) :
    kids.length = ds.length := by
  induction ds generalizing kids with
  | nil =>
    cases h
    rfl
  | cons d ds ih =>
    cases h with
    | item _ hts => exact congrArg (· + 1) (ih hts)

theorem run_row (hdr : List Byte) {q : Quote} {j : Nat} {o pk p ak a : jsmntok_t} {l : List jsmntok_t}
    (hdrop : ts.drop j = o :: pk :: p :: ak :: a :: l) (hp : Within on p) (ha : Within on a)
    (hpspan : span on p = q.price.text) (haspan : span on a = q.amount.text) :
    Query.run (known on ts) (row hdr j) = if (q.row hdr).length ≤ 256 then some (q.row hdr) else none := by
  unfold row
  rw [Query.run_then _ (run_at hdrop 2 rfl), Query.run_then _ (run_text hp), hpspan]
  refine run_copy (by simp [Quote.row]) (run_copy (by simp [Quote.row]) ?_)
  rw [Query.run_then _ (run_at hdrop 4 rfl), Query.run_then _ (run_text ha), haspan]
  exact run_copy (by simp [Quote.row]) (run_memncpy ..)

/-- **A list**: a record for each level, if there is room. -/
theorem run_levels (hdr : List Byte) {n : Nat} {next : jsmntok_t} {rest : List jsmntok_t} (hnext : n ≤ next.start)
    (qs : List Quote) (kids : List Json) (l j fuel : Nat) (hshows : DepictsAll on (.array (qs.map Quote.data)) kids)
    (hall : nestedAll jsmntok_t.start jsmntok_t.end_ l n kids = true) (hdrop : ts.drop j = pres kids ++ next :: rest)
    (hin : ∀ t ∈ pres kids, Within on t) (hfuel : qs.length ≤ fuel) :
    Query.run (known on ts) (levels hdr n ts.length fuel j) =
      if ∀ r ∈ qs.map (Quote.row hdr), r.length ≤ 256 then some (qs.map (Quote.row hdr), j + (pres kids).length)
        else none := by
  have hlt : j < ts.length := by
    have hlen := congrArg List.length hdrop
    rw [List.length_drop, List.length_append, List.length_cons] at hlen
    omega
  induction qs generalizing kids l j fuel with
  | nil =>
    cases hshows
    rw [pres_nil, List.nil_append] at hdrop
    rw [List.map_nil, if_pos (fun _ hr => by cases hr), pres_nil]
    cases fuel with
    | zero => rfl
    | succ fuel =>
      unfold levels
      rw [if_pos hlt, Query.run_then _ (run_here hdrop), if_neg (Nat.not_lt.mpr hnext)]
      rfl
  | cons q qs ih =>
    obtain ⟨fuel, rfl⟩ := Nat.exists_eq_succ_of_ne_zero (Nat.ne_of_gt (Nat.lt_of_lt_of_le (Nat.succ_pos _) hfuel))
    cases hshows with
    | @item _ _ _ kids ht hts =>
      obtain ⟨o, pk, p, ak, a, rfl, hpspan, haspan⟩ := shows_quote ht
      obtain ⟨hlo, hhi, hnested, hrest⟩ := (nestedAll_cons ..).mp hall
      have hstart : o.start < n := by
        have := nested_le _ hnested
        rw [root_node] at this hhi
        omega
      simp only [pres_cons, pre_node, pres_nil, List.cons_append, List.nil_append] at hdrop hin
      have hlater : ts.drop (j + 5) = pres kids ++ next :: rest := drop_more (l := [o, pk, p, ak, a]) hdrop
      have hlt' : j + 5 < ts.length := by
        have hlen := congrArg List.length hlater
        rw [List.length_drop, List.length_append, List.length_cons] at hlen
        omega
      have hnexts := ih kids _ (j + 5) fuel hts hrest hlater (fun t ht => hin t (by simp [ht]))
        (Nat.le_of_succ_le_succ hfuel) hlt'
      have hfit := @List.forall_mem_cons _ (fun r => r.length ≤ 256) (q.row hdr) (qs.map (Quote.row hdr))
      unfold levels
      rw [if_pos hlt, Query.run_then _ (run_here hdrop), if_pos hstart, Query.run_bind,
        run_row hdr hdrop (hin _ (by simp)) (hin _ (by simp)) hpspan haspan, List.map_cons]
      by_cases hq : (q.row hdr).length ≤ 256
      · rw [if_pos hq, Option.bind_some, Query.run_bind, hnexts]
        by_cases hqs : ∀ r ∈ qs.map (Quote.row hdr), r.length ≤ 256
        · rw [if_pos hqs, if_pos (hfit.mpr ⟨hq, hqs⟩)]
          have hend : j + (pres (.node o [.node pk [], .node p [], .node ak [], .node a []] :: kids)).length =
              j + 5 + (pres kids).length := by
            simp only [pres_cons, pre_node, pres_nil, List.cons_append, List.nil_append, List.length_cons]
            omega
          rw [hend]
          rfl
        · rw [if_neg hqs, if_neg (fun h => hqs (hfit.mp h).2)]
          rfl
      · rw [if_neg hq, if_neg (fun h => hq (hfit.mp h).1)]
        rfl

/-! ## Lines -/

theorem shows_last {ms : List (List Byte × Data)} {m : List Byte × Data} {kids : List Json}
    (h : DepictsAll on (.object (ms ++ [m])) kids) :
    ∃ front k t, kids = front ++ [.node k [], t] ∧ span on k = m.1 ∧ Depicts on m.2 t := by
  induction ms generalizing kids with
  | nil =>
    cases h with
    | member _ hclosed ht hts =>
      cases hts
      exact ⟨[], _, _, rfl, hclosed.span, ht⟩
  | cons x ms ih =>
    cases h with
    | @member _ _ _ kx tx ts _ _ _ hts =>
      obtain ⟨front, k, t, rfl, hspan, ht⟩ := ih hts
      exact ⟨.node kx [] :: tx :: front, k, t, rfl, hspan, ht⟩

/-- The tokens of a message. -/
structure Stands (on : List Byte) (m : Message) (ts : List jsmntok_t) where
  o : jsmntok_t
  ek : jsmntok_t
  e : jsmntok_t
  dk : jsmntok_t
  d : jsmntok_t
  dkids : List Json
  mkids : List Json
  ck : jsmntok_t
  c : jsmntok_t
  tokens : ts = o :: ek :: e :: dk :: d :: (pres dkids ++ pres (mkids ++ [.node ck [], .node c []]))
  object : o.type = JSMN_OBJECT
  string : ek.type = JSMN_STRING
  event : span on ek = ascii "event"
  word : span on e = m.event.word
  data : span on dk = ascii "data"
  members : DepictsAll on (.object m.event.members) dkids
  channel : span on ck = ascii "channel"
  name : span on c = m.name.text
  inner : nestedAll jsmntok_t.start jsmntok_t.end_ d.start d.end_ dkids = true
  outer : nestedAll jsmntok_t.start jsmntok_t.end_ d.end_ o.end_ (mkids ++ [.node ck [], .node c []]) = true
  within : ∀ t ∈ ts, Within on t

theorem stands {m : Message} {t : Json} (hshows : Depicts on m.data t)
    (hnested : t.nested jsmntok_t.start jsmntok_t.end_ = true) (hin : ∀ a ∈ t.pre, Within on a) :
    Nonempty (Stands on m t.pre) := by
  cases hshows with
  | @group _ _ o kids htype _ hkids =>
    cases hkids with
    | @member _ _ _ ek e kids _ hevent he hkids =>
      cases hkids with
      | @member _ _ _ dk d kids _ hdata hd hkids =>
        cases he with
        | @quoted _ e _ hword =>
          cases hd with
          | @group _ _ d dkids _ _ hdkids =>
            obtain ⟨mkids, ck, c, rfl, hchannel, hc⟩ := shows_last hkids
            obtain ⟨c, rfl, hname⟩ := shows_scalar hc
            simp only [nested_node, nestedAll_cons, nestedAll_nil, and_true, root_node] at hnested
            obtain ⟨-, -, -, -, -, -, -, -, -, -, -, -, ⟨-, hinner⟩, houter⟩ := hnested
            exact ⟨⟨o, ek, e, dk, d, dkids, mkids, ck, c, by simp, htype, hevent.type, hevent.span, hword.span,
              hdata.span,
              hdkids, hchannel, hname, hinner, houter, hin⟩⟩

namespace Stands

variable {m : Message} (st : Stands on m ts)

/-- Its tokens in front of the last two. -/
def front : List jsmntok_t := st.o :: st.ek :: st.e :: st.dk :: st.d :: (pres st.dkids ++ pres st.mkids)

theorem front_tokens : ts = st.front ++ [st.ck, st.c] := by
  refine st.tokens.trans ?_
  rw [front, pres_append]
  simp

theorem run_last : Query.run (known on ts) (tok_at (ts.length - 1)) = some st.c := by
  have hlen := congrArg List.length st.front_tokens
  rw [List.length_append, List.length_cons, List.length_singleton] at hlen
  have hlast : tok_at (ts.length - 1) = toks (st.front.length + 1) := by
    unfold tok_at toks
    congr 2
    omega
  rw [hlast, run_toks, congrArg (·[st.front.length + 1]?) st.front_tokens]
  simp

theorem run_channel : Query.run (known on ts) (tok_at (ts.length - 2)) = some st.ck := by
  have hlen := congrArg List.length st.front_tokens
  rw [List.length_append, List.length_cons, List.length_singleton] at hlen
  have hlast : tok_at (ts.length - 2) = toks st.front.length := by
    unfold tok_at toks
    congr 2
    omega
  rw [hlast, run_toks, congrArg (·[st.front.length]?) st.front_tokens]
  simp

theorem run_get_tok {t : jsmntok_t} (ht : Within on t) {w : List Byte} (hspan : span on t = w) :
    Query.run (known on ts) (get_tok t) = some (hash w) := by
  unfold get_tok
  rw [Query.run_then _ (run_text ht), hspan]
  rfl

theorem token_within {t : jsmntok_t} (ht : t ∈ st.front ++ [st.ck, st.c]) : Within on t :=
  st.within t ((congrArg (t ∈ ·) st.front_tokens).mpr ht)

theorem run_heading (st : Stands on m ts) (rt : tv_t) : Query.run (known on ts) (heading rt ts.length) =
    if (m.hdr rt).length ≤ 256 then some (m.hdr rt) else none := by
  unfold heading
  rw [Query.run_then _ st.run_last, Query.run_then _ (run_text (st.token_within (by simp))), st.name]
  exact run_copy (by simp [Message.hdr]) (run_memncpy ..)

theorem drop_members {l r : List jsmntok_t} (hl : pres st.dkids = l ++ r) :
    ts.drop (5 + l.length) = r ++ (pres st.mkids ++ [st.ck, st.c]) := by
  rw [Nat.add_comm]
  refine (congrArg (List.drop (l.length + 5)) st.tokens).trans ?_
  rw [hl, pres_append]
  simp

theorem next_outer : ∃ x xs, pres st.mkids ++ [st.ck, st.c] = x :: xs ∧ st.d.end_ ≤ x.start := by
  have houter := st.outer
  cases hm : st.mkids with
  | nil =>
    rw [hm, List.nil_append, nestedAll_cons] at houter
    exact ⟨st.ck, [st.c], by simp, Nat.le_of_lt houter.1⟩
  | cons t l =>
    rw [hm, List.cons_append, nestedAll_cons] at houter
    exact ⟨t.root, pres t.kids ++ (pres l ++ [st.ck, st.c]), by rw [pres_cons, pre_eq]; simp, Nat.le_of_lt houter.1⟩

/-- Where the lists of a book are, and what the loops make of them. -/
theorem run_sides {m : Message} {ka kb : List Byte} {asks bids : List Quote} {others : List (List Byte × Data)}
    (hm : m.event = .book ka asks kb bids others) (st : Stands on m ts) (hdr hdr' : List Byte) :
    ∃ a b n k, Query.run (known on ts) (toks 6) = some a ∧ Query.run (known on ts) (toks (n + 1)) = some b ∧
      Query.run (known on ts) (levels hdr a.end_ ts.length ts.length 7) =
        (if ∀ r ∈ asks.map (Quote.row hdr), r.length ≤ 256 then some (asks.map (Quote.row hdr), n) else none) ∧
      Query.run (known on ts) (levels hdr' b.end_ ts.length ts.length (n + 2)) =
        if ∀ r ∈ bids.map (Quote.row hdr'), r.length ≤ 256 then some (bids.map (Quote.row hdr'), k) else none := by
  have hmem := st.members
  have hinner := st.inner
  rw [hm] at hmem
  generalize hd : st.dkids = dkids at hmem hinner
  obtain ⟨x, xs, hxs, hx⟩ := st.next_outer
  cases hmem with
  | @member _ _ _ kt at_ _ _ _ ha hmem =>
    cases hmem with
    | @member _ _ _ bt bl okids _ _ hb _ =>
      cases ha with
      | @group _ _ a akids _ _ hasks =>
        cases hb with
        | @group _ _ b bkids _ _ hbids =>
          simp only [nestedAll_cons, nested_node, root_node, nestedAll_nil, and_true] at hinner
          obtain ⟨-, -, -, hlta, hlta', ⟨hlea, hasks'⟩, hltb, -, -, -, hltb', ⟨hleb, hbids'⟩, hothers⟩ := hinner
          have hall : pres st.dkids = [kt, a] ++ (pres akids ++ (bt :: b :: (pres bkids ++ pres okids))) := by
            rw [hd]
            simp
          have hall' : pres st.dkids = (kt :: a :: (pres akids ++ [bt, b])) ++ (pres bkids ++ pres okids) := by
            rw [hall]
            simp
          have hasksat : ts.drop 7 = pres akids ++ bt ::
              (b :: (pres bkids ++ pres okids ++ (pres st.mkids ++ [st.ck, st.c]))) :=
            (st.drop_members hall).trans (by simp)
          have hbidsat : ts.drop (7 + (pres akids).length + 2) = pres bkids ++ (pres okids ++ x :: xs) := by
            have hat := st.drop_members hall'
            rw [hxs, List.append_assoc] at hat
            rw [← hat]
            congr 1
            simp only [List.length_cons, List.length_append, List.length_nil]
            omega
          obtain ⟨y, ys, hys, hy⟩ := nestedAll_next okids b.end_ st.d.end_ hothers (by omega) x xs hx
          rw [hys] at hbidsat
          have hin : ∀ t ∈ pres st.dkids, Within on t := fun t ht => st.token_within (by simp [front, ht])
          rw [hall] at hin
          have hdata : Query.run (known on ts) (toks 6) = some a := by
            have hat := st.drop_members (l := []) (r := [kt, a] ++ _) hall
            exact run_at hat 1 rfl
          have hbook : Query.run (known on ts) (toks (7 + (pres akids).length + 1)) = some b := by
            have hat := drop_more (l := pres akids) hasksat
            exact run_at hat 1 rfl
          have hmany : ∀ (qs : List Quote) kids, DepictsAll on (.array (qs.map Quote.data)) kids →
              (pres kids).length ≤ ts.length → qs.length ≤ ts.length := by
            intro qs kids hshows hle
            have hlen := shows_length hshows
            have hkids := length_le_pres kids
            rw [List.length_map] at hlen
            omega
          exact ⟨a, b, _, _, hdata, hbook,
            run_levels hdr (Nat.le_of_lt hltb) asks akids a.start 7 ts.length hasks hasks' hasksat
              (fun t ht => hin t (by simp [ht])) (hmany _ _ hasks (drop_fits hasksat)),
            run_levels hdr' hy bids bkids b.start _ ts.length hbids hbids' hbidsat
              (fun t ht => hin t (by simp [ht])) (hmany _ _ hbids (drop_fits hbidsat))⟩

/-- **A book**. -/
theorem run_obk {m : Message} {ka kb : List Byte} {asks bids : List Quote} {others : List (List Byte × Data)}
    (hm : m.event = .book ka asks kb bids others) (st : Stands on m ts) (rt : tv_t) :
    Query.run (known on ts) (proc_obk rt ts.length) =
      if ∀ r ∈ m.records rt, r.length ≤ 256 then some ⟨0, m.records rt⟩ else none := by
  obtain ⟨a, b, n, k, hdata, hbook, hask, hbid⟩ :=
    run_sides hm st (m.hdr rt ++ ascii "ask2\t") (m.hdr rt ++ ascii "bid2\t")
  unfold proc_obk
  rw [Query.run_then _ st.run_channel, Query.run_then _ (run_get_tok (st.token_within (by simp)) st.channel),
    if_neg (fun h => h rfl), Query.run_bind, st.run_heading]
  have hrecords : m.records rt = (m.hdr rt ++ ascii "clr0\t\t\n") ::
      (asks.map (Quote.row (m.hdr rt ++ ascii "ask2\t")) ++ bids.map (Quote.row (m.hdr rt ++ ascii "bid2\t"))) := by
    unfold Message.records
    rw [hm]
  rw [hrecords]
  simp only [List.forall_mem_cons, List.forall_mem_append]
  by_cases hclr : (m.hdr rt ++ ascii "clr0\t\t\n").length ≤ 256
  · have hlong : ∀ w : List Byte, w.length ≤ 7 → (m.hdr rt ++ w).length ≤ 256 := by
      intro w hw
      rw [List.length_append] at hclr ⊢
      exact Nat.le_trans (Nat.add_le_add_left hw _) hclr
    rw [if_pos (Nat.le_trans (by simp) hclr), Option.bind_some, run_memncpy_then, if_pos hclr, run_memncpy_then,
      if_pos (hlong _ (by decide)), Query.run_then _ hdata, Query.run_bind, hask]
    by_cases hasksfit : ∀ r ∈ asks.map (Quote.row (m.hdr rt ++ ascii "ask2\t")), r.length ≤ 256
    · rw [if_pos hasksfit, Option.bind_some, run_memncpy_then, if_pos (hlong _ (by decide))]
      dsimp only
      rw [Query.run_then _ hbook, Query.run_bind, hbid]
      by_cases hbidsfit : ∀ r ∈ bids.map (Quote.row (m.hdr rt ++ ascii "bid2\t")), r.length ≤ 256
      · rw [if_pos hbidsfit, if_pos ⟨hclr, hasksfit, hbidsfit⟩]
        rfl
      · rw [if_neg hbidsfit, if_neg (fun h => hbidsfit h.2.2)]
        rfl
    · rw [if_neg hasksfit, if_neg (fun h => hasksfit h.2.1)]
      rfl
  · have hnone : ¬ ((m.hdr rt ++ ascii "clr0\t\t\n").length ≤ 256 ∧
        (∀ r ∈ asks.map (Quote.row (m.hdr rt ++ ascii "ask2\t")), r.length ≤ 256) ∧
        ∀ r ∈ bids.map (Quote.row (m.hdr rt ++ ascii "bid2\t")), r.length ≤ 256) := fun h => hclr h.1
    rw [if_neg hnone]
    by_cases hhdr : (m.hdr rt).length ≤ 256
    · rw [if_pos hhdr, Option.bind_some, run_memncpy_then, if_neg hclr]
    · rw [if_neg hhdr]
      rfl

/-- **A change**. -/
theorem run_odf {m : Message} {sk : List Byte} {side : Scalar} {q : Quote} {others : List (List Byte × Data)}
    (hm : m.event = .diff sk side q others) (st : Stands on m ts) (rt : tv_t) :
    Query.run (known on ts) (proc_odf rt ts.length) =
      if ∀ r ∈ m.records rt, r.length ≤ 256 then some ⟨0, m.records rt⟩ else none := by
  have hmem := st.members
  rw [hm] at hmem
  generalize hd : st.dkids = dkids at hmem
  cases hmem with
  | @member _ _ _ kt _ _ _ _ hs hmem =>
    cases hmem with
    | @member _ _ _ pt _ _ _ _ hp hmem =>
      cases hmem with
      | @member _ _ _ qt _ okids _ _ ha _ =>
        obtain ⟨s, rfl, hsspan⟩ := shows_scalar hs
        obtain ⟨p, rfl, hpspan⟩ := shows_scalar hp
        obtain ⟨a, rfl, haspan⟩ := shows_scalar ha
        have hall : pres st.dkids = [] ++ (kt :: s :: pt :: p :: qt :: a :: pres okids) := by
          rw [hd]
          simp
        have hat := st.drop_members hall
        have hin : ∀ t ∈ pres st.dkids, Within on t := fun t ht => st.token_within (by simp [front, ht])
        rw [hall] at hin
        have hrecords : m.records rt = [q.row (m.hdr rt ++ side.text ++ ascii "2\t")] := by
          unfold Message.records
          rw [hm]
        have hside : Query.run (known on ts) (toks 6) = some s := run_at hat 1 rfl
        have hprice : Query.run (known on ts) (toks 8) = some p := run_at hat 3 rfl
        have hamount : Query.run (known on ts) (toks 10) = some a := run_at hat 5 rfl
        unfold proc_odf
        rw [hrecords, Query.run_then _ st.run_channel,
          Query.run_then _ (run_get_tok (st.token_within (by simp)) st.channel),
          if_neg (fun h => h rfl)]
        simp only [List.forall_mem_singleton]
        refine run_way (st.run_heading rt) (by simp [Quote.row]) ?_
        rw [Query.run_then _ hside, Query.run_then _ (run_text (hin s (by simp))), hsspan]
        refine run_copy (by simp [Quote.row]) (run_copy (by simp [Quote.row]) ?_)
        rw [Query.run_then _ hprice, Query.run_then _ (run_text (hin p (by simp))), hpspan]
        refine run_copy (by simp [Quote.row]) (run_copy (by simp [Quote.row]) ?_)
        rw [Query.run_then _ hamount, Query.run_then _ (run_text (hin a (by simp))), haspan]
        exact run_copy (by simp [Quote.row]) (run_memncpy_then ..)

theorem run_process {m : Message} (st : Stands on m ts) (rt : tv_t) :
    Query.run (known on ts) (process rt ts.length) =
      if ∀ r ∈ m.records rt, r.length ≤ 256 then some ⟨0, m.records rt⟩ else none := by
  have h0 : Query.run (known on ts) (toks 0) = some st.o := run_nth ((congrArg (·[0]?) st.tokens).trans rfl)
  have h1 : Query.run (known on ts) (toks 1) = some st.ek := run_nth ((congrArg (·[1]?) st.tokens).trans rfl)
  have h2 : Query.run (known on ts) (toks 2) = some st.e := run_nth ((congrArg (·[2]?) st.tokens).trans rfl)
  have h3 : Query.run (known on ts) (toks 3) = some st.dk := run_nth ((congrArg (·[3]?) st.tokens).trans rfl)
  have hne : hx_odf ≠ hx_obk := by decide +kernel
  unfold process
  rw [Query.run_then _ h0, if_neg (not_not.mpr st.object), Query.run_then _ h1, if_neg (not_not.mpr st.string),
    Query.run_then _ h1, Query.run_then _ (run_get_tok (st.token_within (by simp [front])) st.event),
    if_neg (fun h => h rfl),
    Query.run_then _ h3, Query.run_then _ (run_get_tok (st.token_within (by simp [front])) st.data),
    if_neg (fun h => h rfl),
    Query.run_then _ h2, Query.run_then _ (run_get_tok (st.token_within (by simp [front])) st.word)]
  cases hm : m.event with
  | book ka asks kb bids others =>
    rw [if_pos (show hash (Event.book ka asks kb bids others).word = hx_obk from rfl)]
    exact run_obk hm st rt
  | diff sk side q others =>
    rw [if_neg (show ¬ hash (Event.diff sk side q others).word = hx_obk from hne),
      if_pos (show hash (Event.diff sk side q others).word = hx_odf from rfl)]
    exact run_odf hm st rt

end Stands

end

/-! ## JSON -/

theorem procln_converted : procln = converted countof Bracket.brace.opening process := rfl

theorem accesses_touched : accesses = touched countof Bracket.brace.opening process := rfl

/-- **A message is transcribed**, whatever its gaps are, what else it has and what was there before, and nothing but the
line and its tokens is looked at, if and only if its records have room. Without room for the tokens it is refused. -/
theorem message_transcribed (stamp : Stamp) (m : Message) (v : Value) (after : Gap) (hv : v.data = m.data)
    (hlen : (v.text ++ after.bytes).length < 2 ^ 63) :
    let on := v.text ++ after.bytes
    let line := stamp.text ++ tab :: on
    if v.count ≤ countof then
      (∀ old, procln old line = ⟨0, m.records stamp.tv⟩ ∧
        ∀ c ∈ accesses old line, (known on (v.tree 0 0 npos).pre c).isSome = true) ↔
          ∀ r ∈ m.records stamp.tv, r.length ≤ 256
    else ∀ old, procln old line = ⟨-1, []⟩ ∧ accesses old line = [] := by
  have hshows : Depicts (v.text ++ after.bytes) m.data (v.tree 0 0 npos) := by
    rw [← hv]
    exact v.shows 0 0 npos after.bytes rfl
  obtain ⟨st⟩ := stands hshows (v.nested 0 0 npos) (v.within after.bytes hlen)
  rw [procln_converted, accesses_touched]
  exact converted_value countof stamp v after hv (Nat.lt_trans hlen (by decide)) process (st.run_process stamp.tv)

def diff_words : List (List Byte) :=
  [ascii "event", ascii "orderbook_diff", ascii "data", ascii "side", ascii "BID", ascii "price", ascii "1",
    ascii "amount", ascii "2", ascii "channel", ascii "X"]

theorem word_fine (i : Nat) : ∀ b ∈ diff_words.getD i [], b ≠ 0 ∧ b ≠ chr '"' ∧ b ≠ chr '\\' := by
  have hall : ∀ w ∈ [] :: diff_words, ∀ b ∈ w, b ≠ 0 ∧ b ≠ chr '"' ∧ b ≠ chr '\\' := by decide +kernel
  rw [List.getD_eq_getElem?_getD]
  cases hi : diff_words[i]? with
  | none => exact hall _ (List.mem_cons_self ..)
  | some w => exact hall w (List.mem_cons_of_mem _ (List.mem_of_getElem? hi))

/-- `{"event":"orderbook_diff","data":{"side":"BID","price":"1","amount":"2"},"channel":"X"}` -/
def diff : Value :=
  .group .brace no_gap (.more (string_member (ascii "event") (ascii "orderbook_diff") (word_fine 0) (word_fine 1))
    no_gap
    (.more (.member ⟨ascii "data", chars_plain _ (word_fine 2)⟩ no_gap no_gap (.group .brace no_gap
        (.more (string_member (ascii "side") (ascii "BID") (word_fine 3) (word_fine 4)) no_gap
        (.more (string_member (ascii "price") (ascii "1") (word_fine 5) (word_fine 6)) no_gap
        (.one (string_member (ascii "amount") (ascii "2") (word_fine 7) (word_fine 8)))))) no_gap) no_gap
    (.one (string_member (ascii "channel") (ascii "X") (word_fine 9) (word_fine 10)))))

def diff_message : Message where
  event := .diff (ascii "side") ⟨true, ascii "BID"⟩
    ⟨ascii "price", ⟨true, ascii "1"⟩, ascii "amount", ⟨true, ascii "2"⟩⟩ []
  more := []
  name := ⟨true, ascii "X"⟩

theorem message_transcribed_diff :
    (fun old => procln old (Bitfin2b.noon.text ++ tab :: (diff.text ++ no_gap.bytes))) =
      fun _ => ⟨0, diff_message.records Bitfin2b.noon.tv⟩ := by
  have h := message_transcribed Bitfin2b.noon diff_message diff no_gap rfl (by decide +kernel)
  dsimp only at h
  rw [if_pos (by decide +kernel)] at h
  exact funext fun old => (h.mpr (by decide +kernel) old).1

end Coins.Quotes.Trt2b
