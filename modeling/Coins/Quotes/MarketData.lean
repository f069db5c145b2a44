import Coins.Quotes.Channels
import Coins.Quotes.Hit2b
import Coins.Quotes.Sentinel

/-!
# Market data

What `hit2b` prints for a line with a symbol and, behind it, arrays of bids, asks and trades. The cursor
is left behind the size of the last entry that was printed, and the scan goes on from there.
-/

open Coins.Numeral Coins.Questions Coins.Forest

namespace Coins.Quotes.Hit2b

open jsmntype_t hit_side_t

/-- `{"price":..., "size":...}`, and what else there is. -/
structure Entry where
  e : jsmntok_t
  pk : jsmntok_t
  p : jsmntok_t
  sk : jsmntok_t
  q : jsmntok_t
  more : List Json

def Entry.json (x : Entry) : Json :=
  .node x.e (.node x.pk [] :: .node x.p [] :: .node x.sk [] :: .node x.q [] :: x.more)

structure Entry.Fine (on : List Byte) (x : Entry) : Prop where
  object : x.e.type = JSMN_OBJECT
  price : x.pk.type = JSMN_STRING ∧ span on x.pk = ascii "price"
  size : x.sk.type = JSMN_STRING ∧ span on x.sk = ascii "size"
  key : ∀ t ∈ (pres x.more).head?, t.type = JSMN_STRING

def word : hit_side_t → List Byte
  | SIDE_BID => ascii "bid"
  | SIDE_ASK => ascii "ask"
  | SIDE_TRA => ascii "trade"

/-- A member of the market data. -/
inductive Member
  | list (sd : hit_side_t) (k a : jsmntok_t) (es : List Entry)
  | other (k : jsmntok_t) (v : Json)

namespace Member

def jsons : Member → List Json
  | list _ k a es => [.node k [], .node a (es.map Entry.json)]
  | other k v => [.node k [], v]

def Fine (on : List Byte) : Member → Prop
  | list sd k a es => (k.type = JSMN_STRING ∧ span on k = word sd) ∧
      (a.type = JSMN_ARRAY ∧ a.size = es.length) ∧ ∀ x ∈ es, x.Fine on
  | other _ _ => True

end Member

/-! ## What the scan takes for what -/

def words : List (List Byte) := [ascii "sym", ascii "bid", ascii "ask", ascii "tra"]

section
variable (on : List Byte)

/-- The bytes that are hashed. -/
def three (t : jsmntok_t) : List Byte := ((on ++ [0]).drop t.start).take 3

/-- A string that begins with one of the words. -/
def Takes (t : jsmntok_t) : Prop := t.type = JSMN_STRING ∧ three on t ∈ words

/-- What has to be behind such a string for something to come of it. -/
def wanted (t : jsmntok_t) : jsmntype_t := if three on t = ascii "sym" then JSMN_STRING else JSMN_ARRAY

/-- Such a string takes the token behind it along, whatever that is. Nothing comes of it unless it is what
is wanted. -/
def Quiet : List jsmntok_t → Prop
  | [] => True
  | [t] => ¬ Takes on t
  | t :: u :: l => (Takes on t → u.type ≠ wanted on t ∧ Quiet l) ∧ (¬ Takes on t → Quiet (u :: l))

instance decidableTakes (t : jsmntok_t) : Decidable (Takes on t) := inferInstanceAs (Decidable (_ ∧ _))

instance decidableQuiet : (l : List jsmntok_t) → Decidable (Quiet on l)
  | [] => isTrue trivial
  | [t] => inferInstanceAs (Decidable (¬ Takes on t))
  | t :: u :: l =>
    have := decidableQuiet l
    have := decidableQuiet (u :: l)
    inferInstanceAs (Decidable ((Takes on t → u.type ≠ wanted on t ∧ Quiet on l) ∧ (¬ Takes on t → Quiet on (u :: l))))

/-- A token with three bytes to hash, which have the hash of a word only if they are the word. -/
structure Seen (t : jsmntok_t) : Prop where
  within : Within on t
  near : t.start + 3 ≤ on.length + 1
  distinct : ∀ w ∈ words, hash (three on t) = hash w → three on t = w

end

/-- The entries that are printed: none behind the first with further members. -/
def kept : List Entry → List Entry
  | [] => []
  | x :: xs => if x.more = [] then x :: kept xs else [x]

theorem kept_prefix (es : List Entry) : kept es <+: es := by
  induction es with
  | nil => exact List.prefix_refl _
  | cons x es ih =>
    rw [kept]
    split
    · exact (List.prefix_cons_inj x).mpr ih
    · exact (List.prefix_cons_inj x).mpr (List.nil_prefix)

theorem kept_eq (es : List Entry) : kept es = es ↔ ∀ x ∈ es.dropLast, x.more = [] := by
  induction es with
  | nil => exact iff_of_true rfl fun x hx => by cases hx
  | cons x es ih =>
    rw [kept]
    cases es with
    | nil =>
      refine iff_of_true ?_ fun y hy => by cases hy
      split <;> rfl
    | cons y ys =>
      rw [List.dropLast_cons_cons, List.forall_mem_cons, ← ih]
      by_cases hnil : x.more = []
      · simp [hnil]
      · simp [hnil]

/-- The tokens of an array that the scan goes on with. The array is left at the first further member, and
if there should have been another entry, behind the key of that. -/
def left : List Entry → List jsmntok_t
  | [] => []
  | x :: xs =>
    if x.more = [] then left xs
    else if xs = [] then pres x.more
    else (pres x.more ++ pres (xs.map Entry.json)).tail

section
variable {on : List Byte} {ts : List jsmntok_t}

theorem run_three {t : jsmntok_t} (h : Seen on t) :
    Query.run (known on ts) (bytes t.ptr 3) = some (three on t) := by
  rw [ptr_within h.within, run_bytes _ _ h.near]
  rfl

theorem run_turn {i : Nat} {t : jsmntok_t} {l : List jsmntok_t} (hdrop : ts.drop i = t :: l) (h : Seen on t)
    (hstring : t.type = JSMN_STRING) (rstp : Bool) (buf : List Byte) :
    Query.run (known on ts) (turn rstp buf i) =
      if three on t = ascii "sym" then Query.run (known on ts) (symbol rstp buf (i + 1))
      else if three on t = ascii "bid" then Query.run (known on ts) (array buf SIDE_BID (i + 1))
      else if three on t = ascii "ask" then Query.run (known on ts) (array buf SIDE_ASK (i + 1))
      else if three on t = ascii "tra" then Query.run (known on ts) (array buf SIDE_TRA (i + 1))
      else some ⟨[], buf, i⟩ := by
  have hword : ∀ w ∈ words, hash (three on t) = hash w ↔ three on t = w :=
    fun w hw => ⟨h.distinct w hw, fun he => by rw [he]⟩
  have hsym : hash (three on t) = hx_sym ↔ _ := hword (ascii "sym") (by decide)
  have hbid : hash (three on t) = hx_bid ↔ _ := hword (ascii "bid") (by decide)
  have hask : hash (three on t) = hx_ask ↔ _ := hword (ascii "ask") (by decide)
  have htra : hash (three on t) = hx_tra ↔ _ := hword (ascii "tra") (by decide)
  unfold turn
  rw [Query.run_then _ (run_here hdrop), if_neg (not_not.mpr hstring), Query.run_then _ (run_three h)]
  simp only [hsym, hbid, hask, htra]
  repeat' split
  all_goals rfl

theorem run_turn_plain {i : Nat} {t : jsmntok_t} {l : List jsmntok_t} (hdrop : ts.drop i = t :: l)
    (h : Seen on t) (hno : ¬ Takes on t) (rstp : Bool) (buf : List Byte) :
    Query.run (known on ts) (turn rstp buf i) = some ⟨[], buf, i⟩ := by
  by_cases hstring : t.type = JSMN_STRING
  · have hwords : three on t ∉ words := fun hw => hno ⟨hstring, hw⟩
    simp only [words, List.mem_cons, List.not_mem_nil, or_false, not_or] at hwords
    obtain ⟨hsym, hbid, hask, htra⟩ := hwords
    rw [run_turn hdrop h hstring, if_neg hsym, if_neg hbid, if_neg hask, if_neg htra]
  · unfold turn
    rw [Query.run_then _ (run_here hdrop), if_pos hstring]
    rfl

theorem run_turn_taken {i : Nat} {t u : jsmntok_t} {l : List jsmntok_t} (hdrop : ts.drop i = t :: u :: l)
    (h : Seen on t) (ht : Takes on t) (hu : u.type ≠ wanted on t) (rstp : Bool) (buf : List Byte) :
    Query.run (known on ts) (turn rstp buf i) = some ⟨[], buf, i + 1⟩ := by
  have hnext : Query.run (known on ts) (toks (i + 1)) = some u := run_at hdrop 1 rfl
  have hwords := ht.2
  simp only [words, List.mem_cons, List.not_mem_nil, or_false] at hwords
  rw [run_turn hdrop h ht.1]
  unfold wanted at hu
  by_cases hsym : three on t = ascii "sym"
  · rw [if_pos hsym] at hu ⊢
    unfold symbol
    rw [Query.run_then _ hnext, if_neg hu]
    rfl
  · rw [if_neg hsym] at hu ⊢
    have hlist : ∀ sd, Query.run (known on ts) (array buf sd (i + 1)) = some ⟨[], buf, i + 1⟩ := by
      intro sd
      unfold array
      rw [Query.run_then _ hnext, if_neg hu]
      rfl
    simp only [hlist]
    rcases hwords.resolve_left hsym with hw | hw | hw <;> rw [hw] <;> rfl

/-! ## Stretches -/

theorem map_nothing (o : Option (List (List Byte))) : (o.map fun out => [] ++ out) = o := by
  cases o <;> rfl

section
variable {rstp : Bool} {r : Nat} (hr : ts.length = r)
include hr

variable (on rstp) in
theorem run_scan {i fuel : Nat} {t : jsmntok_t} {l : List jsmntok_t} (hdrop : ts.drop i = t :: l)
    (hfuel : r ≤ i + fuel) (buf : List Byte) : ∃ fuel', fuel = fuel' + 1 ∧
      Query.run (known on ts) (scan rstp r fuel buf i) = (Query.run (known on ts) (turn rstp buf i)).bind fun x =>
        (Query.run (known on ts) (scan rstp r fuel' x.buf (x.i + 1))).map (x.out ++ ·) := by
  have hlt : i < r := by
    have := congrArg List.length hdrop
    rw [List.length_drop, List.length_cons] at this
    omega
  obtain ⟨fuel, rfl⟩ : ∃ f, fuel = f + 1 := ⟨fuel - 1, by omega⟩
  refine ⟨fuel, rfl, ?_⟩
  conv => lhs; unfold scan
  rw [if_pos hlt, Query.run_bind]
  congr 1
  funext x
  rw [Query.run_bind]
  cases Query.run (known on ts) (scan rstp r fuel x.buf (x.i + 1)) <;> rfl

theorem run_scan_plain {i fuel : Nat} {t : jsmntok_t} {l : List jsmntok_t} (hdrop : ts.drop i = t :: l)
    (h : Seen on t) (hno : ¬ Takes on t) (hfuel : r ≤ i + (fuel + 1)) (buf : List Byte) :
    Query.run (known on ts) (scan rstp r (fuel + 1) buf i) =
      Query.run (known on ts) (scan rstp r fuel buf (i + 1)) := by
  obtain ⟨fuel', hsucc, hrun⟩ := run_scan on rstp hr hdrop hfuel buf
  obtain rfl := Nat.succ.inj hsucc
  rw [hrun, run_turn_plain hdrop h hno, Option.bind_some]
  exact map_nothing _

variable (rstp) in
theorem run_quiet (l : List jsmntok_t) {rest : List jsmntok_t} (hquiet : Quiet on l) (hseen : ∀ t ∈ l, Seen on t)
    (i fuel : Nat) (hdrop : ts.drop i = l ++ rest) (hfuel : r ≤ i + fuel) (buf : List Byte) :
    ∃ fuel', r ≤ i + l.length + fuel' ∧ Query.run (known on ts) (scan rstp r fuel buf i) =
      Query.run (known on ts) (scan rstp r fuel' buf (i + l.length)) := by
  induction l using Quiet.induct generalizing i fuel with
  | case1 => exact ⟨fuel, hfuel, rfl⟩
  | case2 t =>
    obtain ⟨fuel, rfl, -⟩ := run_scan on rstp hr hdrop hfuel buf
    exact ⟨fuel, by rw [List.length_singleton]; omega,
      run_scan_plain hr hdrop (hseen t (List.mem_cons_self ..)) hquiet hfuel buf⟩
  | case3 t u l ih_taken ih =>
    obtain ⟨fuel, rfl, hrun⟩ := run_scan on rstp hr hdrop hfuel buf
    have hnext : ts.drop (i + 1) = u :: l ++ rest := drop_more (l := [t]) hdrop
    have hlater : ∀ v ∈ u :: l, Seen on v := fun v hv => hseen v (List.mem_cons_of_mem _ hv)
    have ht := hseen t (List.mem_cons_self ..)
    by_cases htakes : Takes on t
    · -- the scan is behind both
      obtain ⟨hu, hl⟩ := hquiet.1 htakes
      have hlen : i + (t :: u :: l).length = i + 1 + 1 + l.length := by
        simp only [List.length_cons]
        omega
      obtain ⟨fuel', hfuel', hih⟩ := ih_taken hl (fun v hv => hlater v (List.mem_cons_of_mem _ hv)) (i + 1 + 1) fuel
        (drop_more (l := [t, u]) hdrop) (by omega)
      rw [hlen]
      refine ⟨fuel', hfuel', ?_⟩
      rw [← hih, hrun, run_turn_taken hdrop ht htakes hu, Option.bind_some]
      exact map_nothing _
    · have hlen : i + (t :: u :: l).length = i + 1 + (u :: l).length := by
        rw [List.length_cons]
        omega
      rw [hlen]
      obtain ⟨fuel', hfuel', hih⟩ := ih (hquiet.2 htakes) hlater (i + 1) fuel hnext (by omega)
      exact ⟨fuel', hfuel', (run_scan_plain hr hdrop ht htakes hfuel buf).trans hih⟩

end

/-! ## Arrays -/

def row (hdr : List Byte) (on : List Byte) (x : Entry) : List Byte :=
  hdr ++ span on x.p ++ [tab] ++ span on x.q ++ [nl]

theorem run_entry {x : Entry} (hfine : x.Fine on) {i : Nat} {l : List jsmntok_t}
    (hdrop : ts.drop (i + 1) = x.e :: x.pk :: x.p :: x.sk :: x.q :: l)
    (hin : ∀ t ∈ [x.pk, x.p, x.sk, x.q], Within on t) (hdr : List Byte) (n : Nat) :
    Query.run (known on ts) (entries hdr (n + 1) i) =
      if (row hdr on x).length ≤ 256 then
        (Query.run (known on ts) (entries hdr n (i + 5))).map fun e => (row hdr on x :: e.1, e.2)
      else none := by
  have he : Query.run (known on ts) (toks (i + 1)) = some x.e := run_here hdrop
  have hpk : Query.run (known on ts) (toks (i + 2)) = some x.pk := run_at hdrop 1 rfl
  have hp : Query.run (known on ts) (toks (i + 3)) = some x.p := run_at hdrop 2 rfl
  have hsk : Query.run (known on ts) (toks (i + 4)) = some x.sk := run_at hdrop 3 rfl
  have hq : Query.run (known on ts) (toks (i + 5)) = some x.q := run_at hdrop 4 rfl
  have hprice : Query.run (known on ts) (memcmp_at x.pk.ptr (ascii "price")) = some false :=
    run_key (hin x.pk (by simp)) hfine.price.2 (by decide)
  have hsize : Query.run (known on ts) (memcmp_at x.sk.ptr (ascii "size")) = some false :=
    run_key (hin x.sk (by simp)) hfine.size.2 (by decide)
  have hptext : Query.run (known on ts) (text x.p) = some (span on x.p) := run_text (hin x.p (by simp))
  have hqtext : Query.run (known on ts) (text x.q) = some (span on x.q) := run_text (hin x.q (by simp))
  conv => lhs; unfold entries
  rw [Query.run_then _ he, if_neg (not_not.mpr hfine.object), Query.run_then _ hpk,
    if_neg (not_not.mpr hfine.price.1), Query.run_then _ hpk, Query.run_then _ hprice,
    if_neg Bool.false_ne_true, Query.run_then _ hp, Query.run_then _ hptext, run_memncpy_then, run_memncpy_then,
    Query.run_then _ hsk, if_neg (not_not.mpr hfine.size.1), Query.run_then _ hsk, Query.run_then _ hsize,
    if_neg Bool.false_ne_true, Query.run_then _ hq, Query.run_then _ hqtext, run_memncpy_then, run_memncpy_then]
  have hrow : hdr ++ span on x.p ++ [tab] ++ span on x.q ++ [nl] = row hdr on x := rfl
  rw [room_room (List.prefix_append ..), room_room (List.prefix_append ..), room_room (List.prefix_append ..), hrow]
  congr 1
  rw [Query.run_bind]
  cases Query.run (known on ts) (entries hdr n (i + 5)) <;> rfl

theorem run_entries (hdr : List Byte) (es : List Entry) (hfine : ∀ x ∈ es, x.Fine on) (i : Nat)
    {rest : List jsmntok_t} (hdrop : ts.drop (i + 1) = pres (es.map Entry.json) ++ rest)
    (hin : ∀ t ∈ pres (es.map Entry.json), Within on t) :
    ∃ i', ts.drop (i' + 1) = left es ++ rest ∧ i ≤ i' ∧ Query.run (known on ts) (entries hdr es.length i) =
      if ∀ x ∈ kept es, (row hdr on x).length ≤ 256 then some ((kept es).map (row hdr on), i') else none := by
  induction es generalizing i with
  | nil => exact ⟨i, hdrop, Nat.le_refl i, by simp [entries, kept]⟩
  | cons x es ih =>
    simp only [List.map_cons, Entry.json, pres_cons, pre_node, pres_nil, List.nil_append, List.cons_append]
      at hdrop hin
    have hone := run_entry (hfine x (List.mem_cons_self ..)) hdrop
      (fun t ht => hin t (by simp only [List.mem_cons, List.not_mem_nil, or_false] at ht ⊢; tauto)) hdr es.length
    have hmore : ts.drop (i + 5 + 1) = pres x.more ++ (pres (es.map Entry.json) ++ rest) := by
      rw [List.append_assoc] at hdrop
      exact drop_more (l := [x.e, x.pk, x.p, x.sk, x.q]) hdrop
    rw [List.length_cons, hone]
    by_cases hnil : x.more = []
    · rw [hnil, pres_nil, List.nil_append] at hmore
      obtain ⟨i', hleft, hle, hrun⟩ := ih (fun y hy => hfine y (List.mem_cons_of_mem _ hy)) (i + 5) hmore
        (fun t ht => hin t (by simp [ht]))
      refine ⟨i', ?_, by omega, ?_⟩
      · rw [left, if_pos hnil]
        exact hleft
      · rw [hrun, kept, if_pos hnil]
        simp only [List.forall_mem_cons, List.map_cons]
        by_cases hx : (row hdr on x).length ≤ 256
        · simp only [hx, true_and, if_true]
          split <;> rfl
        · simp only [hx, false_and, if_false]
    · have hkept : kept (x :: es) = [x] := by rw [kept, if_neg hnil]
      simp only [hkept, List.forall_mem_singleton]
      cases es with
      | nil =>
        refine ⟨i + 5, ?_, by omega, ?_⟩
        · rw [left, if_neg hnil, if_pos rfl]
          exact hmore
        · rfl
      | cons y ys =>
        -- a string comes instead of the next entry
        obtain ⟨t, l, hl⟩ : ∃ t l, pres x.more = t :: l := by
          obtain ⟨v, vs, hv⟩ := List.exists_cons_of_ne_nil hnil
          exact ⟨v.root, pres v.kids ++ pres vs, by rw [hv, pres_cons, pre_eq, List.cons_append]⟩
        have hstring := (hfine x (List.mem_cons_self ..)).key t (by rw [hl]; rfl)
        rw [hl] at hmore
        refine ⟨i + 6, ?_, by omega, ?_⟩
        · rw [left, if_neg hnil, if_neg (List.cons_ne_nil y ys), hl, List.cons_append, List.tail_cons,
            List.append_assoc]
          exact drop_more (l := [t]) hmore
        · have hbreak : Query.run (known on ts) (entries hdr (y :: ys).length (i + 5)) = some ([], i + 6) := by
            rw [List.length_cons]
            unfold entries
            rw [Query.run_then _ (run_here hmore), if_pos (by rw [hstring]; decide)]
            rfl
          rw [hbreak]
          rfl

/-- What is in front of the price. -/
def header (buf : List Byte) (sd : hit_side_t) : List Byte := buf ++ sides sd ++ [tab]

/-- There is room for the records of an array. -/
def Room (on buf : List Byte) (sd : hit_side_t) (es : List Entry) : Prop :=
  (header buf sd).length ≤ 256 ∧ ∀ x ∈ es, (row (header buf sd) on x).length ≤ 256

instance decidableRoom (on buf : List Byte) (sd : hit_side_t) (es : List Entry) : Decidable (Room on buf sd es) :=
  inferInstanceAs (Decidable (_ ∧ _))

theorem three_of_span {t : jsmntok_t} {w : List Byte} (hspan : span on t = w) (hw : 3 ≤ w.length) :
    three on t = w.take 3 := by
  have hpre : w <+: on.drop t.start := by
    rw [← hspan]
    exact List.take_prefix ..
  have hlen : t.start ≤ on.length := by
    have := hpre.length_le
    rw [List.length_drop] at this
    omega
  obtain ⟨l, hl⟩ := hpre
  unfold three
  rw [List.drop_append_of_le_length hlen, ← hl, List.append_assoc, List.take_append_of_le_length hw]

/-- **An array** under its word. -/
theorem run_list {sd : hit_side_t} {k a : jsmntok_t} {es : List Entry} (hfine : (Member.list sd k a es).Fine on)
    (hk : Seen on k) {i : Nat} {rest : List jsmntok_t}
    (hdrop : ts.drop i = k :: a :: (pres (es.map Entry.json) ++ rest))
    (hin : ∀ t ∈ pres (es.map Entry.json), Within on t) (rstp : Bool) (buf : List Byte) :
    ∃ i', ts.drop (i' + 1) = left es ++ rest ∧ i ≤ i' ∧ Query.run (known on ts) (turn rstp buf i) =
      if Room on buf sd (kept es) then some ⟨(kept es).map (row (header buf sd) on), buf, i'⟩ else none := by
  obtain ⟨⟨hstring, hword⟩, ⟨harray, hsize⟩, hes⟩ := hfine
  obtain ⟨i', hleft, hle, hrun⟩ := run_entries (header buf sd) es hes (i + 1)
    (drop_more (l := [k, a]) hdrop) hin
  refine ⟨i', hleft, by omega, ?_⟩
  have ha : Query.run (known on ts) (toks (i + 1)) = some a := run_at hdrop 1 rfl
  have hturn : Query.run (known on ts) (turn rstp buf i) = Query.run (known on ts) (array buf sd (i + 1)) := by
    have hlen : 3 ≤ (word sd).length := by cases sd <;> decide
    rw [run_turn hdrop hk hstring, three_of_span hword hlen]
    cases sd <;> rfl
  rw [hturn]
  unfold array arr
  rw [Query.run_then _ ha, if_pos harray, Query.run_bind, run_memncpy_then, run_memncpy_then,
    Query.run_then _ ha, hsize, room_room (List.prefix_append ..)]
  change Option.bind (if (header buf sd).length ≤ 256 then
    Query.run (known on ts) (entries (header buf sd) es.length (i + 1)) else none) _ = _
  rw [hrun]
  unfold Room
  by_cases hhdr : (header buf sd).length ≤ 256
  · simp only [hhdr, true_and, if_true]
    split <;> rfl
  · simp only [hhdr, false_and, if_false]
    rfl

theorem left_mem {es : List Entry} {t : jsmntok_t} (ht : t ∈ left es) : t ∈ pres (es.map Entry.json) := by
  induction es with
  | nil => exact ht
  | cons x es ih =>
    simp only [List.map_cons, Entry.json, pres_cons, pre_node, List.mem_cons, List.mem_append]
    rw [left] at ht
    split at ht
    · exact Or.inr (ih ht)
    · split at ht
      · exact Or.inl (Or.inr (Or.inr (Or.inr (Or.inr (Or.inr (by simp [ht]))))))
      · have h := List.mem_append.mp (List.mem_of_mem_tail ht)
        rcases h with h | h
        · exact Or.inl (Or.inr (Or.inr (Or.inr (Or.inr (Or.inr (by simp [h]))))))
        · exact Or.inr h

end

/-! ## Members -/

namespace Member

/-- The tokens of a member that the scan goes on with. -/
def scanned : Member → List jsmntok_t
  | list _ _ _ es => left es
  | other k v => k :: v.pre

/-- No entry but the last has further members. -/
def Whole : Member → Prop
  | list _ _ _ es => ∀ x ∈ es.dropLast, x.more = []
  | other _ _ => True

/-- The records, if `es` is printed of an array's entries `es`. -/
def records (on buf : List Byte) (printed : List Entry → List Entry) : Member → List (List Byte)
  | list sd _ _ es => (printed es).map (row (header buf sd) on)
  | other _ _ => []

def HasRoom (on buf : List Byte) (printed : List Entry → List Entry) : Member → Prop
  | list sd _ _ es => Room on buf sd (printed es)
  | other _ _ => True

instance decidableHasRoom (on buf : List Byte) (printed : List Entry → List Entry) (x : Member) :
    Decidable (x.HasRoom on buf printed) :=
  match x with
  | list sd _ _ es => decidableRoom on buf sd (printed es)
  | other _ _ => isTrue trivial

end Member

section
variable {on : List Byte} {ts : List jsmntok_t} {rstp : Bool} {r : Nat}

variable (on rstp) in
/-- **The members**: the records of the arrays, up to the first entry with further members. -/
theorem run_members (hr : ts.length = r) (xs : List Member) (hfine : ∀ x ∈ xs, x.Fine on)
    (hquiet : ∀ x ∈ xs, Quiet on x.scanned) (hseen : ∀ t ∈ pres (xs.flatMap Member.jsons), Seen on t)
    (i fuel : Nat) {rest : List jsmntok_t} (hdrop : ts.drop i = pres (xs.flatMap Member.jsons) ++ rest)
    (hfuel : r ≤ i + fuel) (buf : List Byte) :
    ∃ fuel' i', r ≤ i' + fuel' ∧ ts.drop i' = rest ∧ Query.run (known on ts) (scan rstp r fuel buf i) =
      if ∀ x ∈ xs, x.HasRoom on buf kept then
        (Query.run (known on ts) (scan rstp r fuel' buf i')).map (xs.flatMap (Member.records on buf kept) ++ ·)
      else none := by
  induction xs generalizing i fuel with
  | nil => exact ⟨fuel, i, hfuel, hdrop, by simp⟩
  | cons x xs ih =>
    have hfine' : ∀ y ∈ xs, y.Fine on := fun y hy => hfine y (List.mem_cons_of_mem _ hy)
    have hquiet' : ∀ y ∈ xs, Quiet on y.scanned := fun y hy => hquiet y (List.mem_cons_of_mem _ hy)
    have hx := hquiet x (List.mem_cons_self ..)
    rw [List.flatMap_cons, pres_append] at hdrop hseen
    have hseen' : ∀ t ∈ pres (xs.flatMap Member.jsons), Seen on t := fun t ht => hseen t (List.mem_append_right _ ht)
    cases x with
    | other k v =>
      have hjsons : pres (Member.other k v).jsons = k :: v.pre := by simp [Member.jsons]
      rw [hjsons] at hdrop hseen
      obtain ⟨fuel₁, hfuel₁, hrun₁⟩ := run_quiet rstp hr (k :: v.pre) hx
        (fun t ht => hseen t (List.mem_append_left _ ht)) i fuel ((List.append_assoc ..) ▸ hdrop) hfuel buf
      obtain ⟨fuel', i', hfuel', hrest, hrun⟩ := ih hfine' hquiet' hseen' (i + (k :: v.pre).length) fuel₁
        (drop_more ((List.append_assoc ..) ▸ hdrop)) hfuel₁
      refine ⟨fuel', i', hfuel', hrest, ?_⟩
      have hroom : (∀ y ∈ Member.other k v :: xs, y.HasRoom on buf kept) ↔ ∀ y ∈ xs, y.HasRoom on buf kept := by
        rw [List.forall_mem_cons]
        exact and_iff_right trivial
      rw [hrun₁, hrun]
      simp only [hroom]
      rfl
    | list sd k a es =>
      have hjsons : pres (Member.list sd k a es).jsons = k :: a :: pres (es.map Entry.json) := by
        simp [Member.jsons]
      rw [hjsons, List.cons_append, List.cons_append, List.append_assoc] at hdrop
      rw [hjsons] at hseen
      obtain ⟨i₁, hleft, hle, hturn⟩ := run_list (hfine _ (List.mem_cons_self ..))
        (hseen k (by simp)) hdrop (fun t ht => (hseen t (by simp [ht])).within) rstp buf
      obtain ⟨fuel, rfl, hrun₀⟩ := run_scan on rstp hr hdrop hfuel buf
      obtain ⟨fuel₁, hfuel₁, hrun₁⟩ := run_quiet rstp hr (left es) hx
        (fun t ht => hseen t (by simp [left_mem ht])) (i₁ + 1) fuel hleft (by omega) buf
      obtain ⟨fuel', i', hfuel', hrest, hrun⟩ := ih hfine' hquiet' hseen' (i₁ + 1 + (left es).length) fuel₁
        (drop_more hleft) hfuel₁
      refine ⟨fuel', i', hfuel', hrest, ?_⟩
      have hall : (∀ y ∈ Member.list sd k a es :: xs, y.HasRoom on buf kept) ↔
          Room on buf sd (kept es) ∧ ∀ y ∈ xs, y.HasRoom on buf kept := by
        rw [List.forall_mem_cons]
        exact Iff.rfl
      rw [hrun₀, hturn]
      simp only [hall]
      by_cases hroom : Room on buf sd (kept es)
      · rw [if_pos hroom, Option.bind_some, hrun₁, hrun]
        simp only [hroom, true_and]
        split
        · rw [Option.map_map]
          congr 1
          funext out
          exact (List.append_assoc ..).symm
        · rfl
      · simp only [hroom, false_and, if_false]
        rfl

end

/-! ## Lines -/

/-- `{name: {others, "symbol": s, arrays and others, "timestamp": t}}` -/
structure MarketLine extends Line countof (chr '{') where
  head : jsmntok_t
  name : jsmntok_t
  data : jsmntok_t
  full : Bool
  front : List Member
  sk : jsmntok_t
  s : jsmntok_t
  members : List Member
  tk : jsmntok_t
  t : jsmntok_t
  shape : root = .node head [.node name [], .node data (front.flatMap Member.jsons ++
    .node sk [] :: .node s [] :: (members.flatMap Member.jsons ++ [.node tk [], .node t []]))]
  objects : head.type = JSMN_OBJECT ∧ data.type = JSMN_OBJECT
  named : name.type = JSMN_STRING ∧ span on name =
    if full then ascii "MarketDataSnapshotFullRefresh" else ascii "MarketDataIncrementalRefresh"
  no_list : ∀ x ∈ front, ∃ k v, x = .other k v
  symbol_key : sk.type = JSMN_STRING ∧ span on sk = ascii "symbol"
  symbol_text : s.type = JSMN_STRING
  time_key : tk.type = JSMN_STRING ∧ span on tk = ascii "timestamp"
  time_number : t.type = JSMN_PRIMITIVE
  fine : ∀ x ∈ members, x.Fine on
  distinct : ∀ u ∈ root.pre, ∀ w ∈ words, hash (three on u) = hash w → three on u = w

theorem smstotv_even (ln : List Byte) : smstotv ln ≠ NOT_A_TIME := by
  intro h
  have htoNat := congrArg UInt64.toNat h
  have hnot : NOT_A_TIME.toNat = 2 ^ 64 - 1 := rfl
  have hmsecs : MSECS.toNat = 1000 := rfl
  rw [smstotv, UInt64.toNat_mul, UInt64.toNat_mul, hnot, hmsecs] at htoNat
  omega

namespace MarketLine

variable (l : MarketLine)

/-- The times and the symbol. -/
def label : List Byte := times (smstotv (l.on.drop l.t.start)) l.stamp.tv ++ span l.on l.s ++ [tab]

def clear : List Byte := l.label ++ ascii "clr0\t\t\n"

/-- One line that clears the book for a full refresh, and the records of the arrays. -/
def out (printed : List Entry → List Entry) : List (List Byte) :=
  (if l.full then [l.clear] else []) ++ l.members.flatMap (Member.records l.on l.label printed)

/-- There is room for all of it. -/
def Fits (printed : List Entry → List Entry) : Prop :=
  l.label.length ≤ 256 ∧ (l.full = true → l.clear.length ≤ 256) ∧
    ∀ x ∈ l.members, x.HasRoom l.on l.label printed

instance decidableFits (printed : List Entry → List Entry) : Decidable (l.Fits printed) :=
  inferInstanceAs (Decidable (_ ∧ _ ∧ _))

/-- Nothing else that the scan goes through makes a difference. -/
def Plain : Prop := ∀ x ∈ l.front ++ l.members, Quiet l.on x.scanned

theorem pre_line : l.root.pre = l.head :: l.name :: l.data :: (pres (l.front.flatMap Member.jsons) ++
    l.sk :: l.s :: (pres (l.members.flatMap Member.jsons) ++ [l.tk, l.t])) := by
  rw [l.shape]
  simp

theorem seen (u : jsmntok_t) (hu : u ∈ pres (l.front.flatMap Member.jsons) ++
    l.sk :: l.s :: (pres (l.members.flatMap Member.jsons) ++ [l.tk, l.t])) : Seen l.on u := by
  have hpre : u ∈ l.root.pre := by
    rw [l.pre_line]
    exact List.mem_cons_of_mem _ (List.mem_cons_of_mem _ (List.mem_cons_of_mem _ hu))
  have hinside := l.inside
  have hnested := l.nested
  rw [l.shape] at hnested hinside
  obtain ⟨-, hkids⟩ := (nested_node ..).mp hnested
  obtain ⟨-, -, -, hkids⟩ := (nestedAll_cons ..).mp hkids
  obtain ⟨-, hdata, hnested, -⟩ := (nestedAll_cons ..).mp hkids
  obtain ⟨-, hall⟩ := (nested_node ..).mp hnested
  obtain ⟨-, hord, hend⟩ := nestedAll_mem _ _ _ hall u (by simpa using hu)
  simp only [root_node] at hdata hinside
  exact ⟨l.within u hpre, by omega, l.distinct u hpre⟩

theorem run_symbol {i : Nat} {rest : List jsmntok_t} (hdrop : l.root.pre.drop i = l.sk :: l.s :: rest) (buf : List Byte)
    (hlabel : buf ++ span l.on l.s ++ [tab] = l.label) :
    Query.run (known l.on l.root.pre) (turn l.full buf i) =
      if l.label.length ≤ 256 ∧ (l.full = true → l.clear.length ≤ 256) then
        some ⟨if l.full then [l.clear] else [], l.label, i + 1⟩
      else none := by
  have hsk := l.seen l.sk (by simp)
  have hs := l.seen l.s (by simp)
  have hnext : Query.run (known l.on l.root.pre) (toks (i + 1)) = some l.s := run_at hdrop 1 rfl
  have hclear : l.label ++ ascii "clr0\t\t\n" = l.clear := rfl
  rw [run_turn hdrop hsk l.symbol_key.1, three_of_span l.symbol_key.2 (by decide), if_pos (by decide)]
  unfold symbol
  rw [Query.run_then _ hnext, if_pos l.symbol_text, Query.run_then _ hnext, Query.run_then _ (run_text hs.within),
    run_memncpy_then, run_memncpy_then, room_room (List.prefix_append ..), hlabel]
  cases l.full with
  | false => simp
  | true =>
    simp only [if_true, forall_const]
    rw [Query.run_bind, run_memncpy, hclear]
    by_cases h : l.label.length ≤ 256
    · simp only [h, true_and, if_true]
      split <;> rfl
    · simp only [h, false_and, if_false]

theorem run_scan_line (hplain : l.Plain) :
    Query.run (known l.on l.root.pre) (scan l.full l.root.pre.length l.root.pre.length
      (times (smstotv (l.on.drop l.t.start)) l.stamp.tv) 3) =
      if l.Fits kept then some (l.out kept) else none := by
  have hdrop : l.root.pre.drop 3 = pres (l.front.flatMap Member.jsons) ++
      (l.sk :: l.s :: (pres (l.members.flatMap Member.jsons) ++ [l.tk, l.t])) := by
    rw [l.pre_line]
    rfl
  have hother : ∀ x ∈ l.front, x.Fine l.on ∧ (∀ buf, x.HasRoom l.on buf kept ∧ x.records l.on buf kept = []) := by
    intro x hx
    obtain ⟨k, v, rfl⟩ := l.no_list x hx
    exact ⟨trivial, fun buf => ⟨trivial, rfl⟩⟩
  obtain ⟨fuel₁, i₁, hfuel₁, hdrop₁, hrun₁⟩ := run_members l.on l.full rfl l.front
    (fun x hx => (hother x hx).1) (fun x hx => hplain x (List.mem_append_left _ hx))
    (fun u hu => l.seen u (List.mem_append_left _ hu)) 3 l.root.pre.length hdrop (by omega)
    (times (smstotv (l.on.drop l.t.start)) l.stamp.tv)
  have hnone : l.front.flatMap (Member.records l.on (times (smstotv (l.on.drop l.t.start)) l.stamp.tv) kept) = [] :=
    List.flatMap_eq_nil_iff.mpr fun x hx => ((hother x hx).2 _).2
  rw [hrun₁, if_pos fun x hx => ((hother x hx).2 _).1, hnone, map_nothing]
  obtain ⟨fuel₁, rfl, hrun₂⟩ := run_scan l.on l.full rfl hdrop₁ hfuel₁
    (times (smstotv (l.on.drop l.t.start)) l.stamp.tv)
  rw [hrun₂, l.run_symbol hdrop₁ _ rfl]
  -- the time is one more member
  have hlast : l.root.pre.drop (i₁ + 2) =
      pres ((l.members ++ [Member.other l.tk (.node l.t [])]).flatMap Member.jsons) ++ [] := by
    have h := drop_more (l := [l.sk, l.s]) hdrop₁
    rw [List.append_nil, List.flatMap_append, pres_append]
    simpa [Member.jsons] using h
  have htime : Quiet l.on (Member.other l.tk (.node l.t [])).scanned := by
    have hplain : ¬ Takes l.on l.t := by
      rintro ⟨hstring, -⟩
      rw [l.time_number] at hstring
      cases hstring
    refine ⟨fun _ => ⟨?_, trivial⟩, fun _ => hplain⟩
    rw [l.time_number]
    unfold wanted
    split <;> decide
  obtain ⟨fuel₃, i₃, hfuel₃, hdrop₃, hrun₃⟩ := run_members l.on l.full rfl
    (l.members ++ [Member.other l.tk (.node l.t [])])
    (fun x hx => by
      rcases List.mem_append.mp hx with hx | hx
      · exact l.fine x hx
      · rw [List.mem_singleton.mp hx]
        exact trivial)
    (fun x hx => by
      rcases List.mem_append.mp hx with hx | hx
      · exact hplain x (List.mem_append_right _ hx)
      · rw [List.mem_singleton.mp hx]
        exact htime)
    (fun u hu => l.seen u (by
      rw [List.flatMap_append, pres_append] at hu
      simp only [Member.jsons, List.flatMap_cons, List.flatMap_nil, List.append_nil, pres_cons, pre_node, pres_nil,
        List.cons_append, List.nil_append] at hu
      exact List.mem_append_right _ (List.mem_cons_of_mem _ (List.mem_cons_of_mem _ hu))))
    (i₁ + 2) fuel₁ hlast (by omega) l.label
  have hend : Query.run (known l.on l.root.pre) (scan l.full l.root.pre.length fuel₃ l.label i₃) = some [] := by
    have hlen := congrArg List.length hdrop₃
    rw [List.length_drop, List.length_nil] at hlen
    cases fuel₃ with
    | zero => rfl
    | succ fuel₃ =>
      unfold scan
      rw [if_neg (by omega)]
      rfl
  have hroom : (∀ x ∈ l.members ++ [Member.other l.tk (.node l.t [])], x.HasRoom l.on l.label kept) ↔
      ∀ x ∈ l.members, x.HasRoom l.on l.label kept := by
    rw [List.forall_mem_append, List.forall_mem_singleton]
    exact and_iff_left trivial
  have hrecords : (l.members ++ [Member.other l.tk (.node l.t [])]).flatMap (Member.records l.on l.label kept) =
      l.members.flatMap (Member.records l.on l.label kept) := by
    rw [List.flatMap_append]
    simp [Member.records]
  rw [hend, hrecords, Option.map_some, List.append_nil] at hrun₃
  simp only [hroom] at hrun₃
  by_cases hlabel : l.label.length ≤ 256 ∧ (l.full = true → l.clear.length ≤ 256)
  · rw [if_pos hlabel, Option.bind_some, hrun₃]
    by_cases hall : ∀ x ∈ l.members, x.HasRoom l.on l.label kept
    · have hfits : l.Fits kept := ⟨hlabel.1, hlabel.2, hall⟩
      rw [if_pos hall, if_pos hfits]
      rfl
    · have hfits : ¬ l.Fits kept := fun h => hall h.2.2
      rw [if_neg hall, if_neg hfits]
      rfl
  · have hfits : ¬ l.Fits kept := fun h => hlabel ⟨h.1, h.2.1⟩
    rw [if_neg hlabel, if_neg hfits]
    rfl

/-- **What a line comes to**, when what is besides the arrays is plain. -/
theorem run_process (hplain : l.Plain) :
    Query.run (known l.on l.root.pre) (process l.stamp.tv l.root.pre.length) =
      if l.Fits kept then some ⟨0, l.out kept⟩ else none := by
  have hpre := l.pre_line
  have hhead : Query.run (known l.on l.root.pre) (toks 0) = some l.head := run_nth (k := 0) (by rw [hpre]; rfl)
  have hname : Query.run (known l.on l.root.pre) (toks 1) = some l.name := run_nth (k := 1) (by rw [hpre]; rfl)
  have hdata : Query.run (known l.on l.root.pre) (toks 2) = some l.data := run_nth (k := 2) (by rw [hpre]; rfl)
  obtain ⟨front, hfront⟩ : ∃ a, l.root.pre = a ++ [l.tk, l.t] := by
    refine ⟨l.head :: l.name :: l.data :: (pres (l.front.flatMap Member.jsons) ++
      l.sk :: l.s :: pres (l.members.flatMap Member.jsons)), ?_⟩
    rw [hpre]
    simp
  have hr : l.root.pre.length = front.length + 2 := by
    rw [hfront]
    simp
  have htk : Query.run (known l.on l.root.pre) (tok_at ((l.root.pre.length : Int) - 2)) = some l.tk := by
    have h : (l.root.pre.length : Int) - 2 = (front.length : Nat) := by omega
    rw [h]
    exact run_nth (by rw [hfront, List.getElem?_append_right (Nat.le_refl _), Nat.sub_self]; rfl)
  have ht : Query.run (known l.on l.root.pre) (tok_at ((l.root.pre.length : Int) - 1)) = some l.t := by
    have h : (l.root.pre.length : Int) - 1 = (front.length + 1 : Nat) := by omega
    rw [h]
    exact run_nth (by rw [hfront, List.getElem?_append_right (by omega), Nat.add_sub_cancel_left]; rfl)
  have itk := (l.seen l.tk (by simp)).within
  have it := (l.seen l.t (by simp)).within
  have iname : Within l.on l.name := l.within _ (by rw [hpre]; simp)
  have htext : Query.run (known l.on l.root.pre) (str_at l.t.ptr) = some (l.on.drop l.t.start) := by
    rw [ptr_within it, run_str_at _ (Nat.le_trans it.ordered it.inside)]
  have hvalid : smstotv (l.on.drop l.t.start) ≠ NOT_A_TIME := smstotv_even _
  have hhash : ¬ (hash (span l.on l.name) ≠ hx_incr ∧ hash (span l.on l.name) ≠ hx_full) := by
    rw [l.named.2]
    cases l.full
    · exact fun h => h.1 rfl
    · exact fun h => h.2 rfl
  have hfull : decide (hash (span l.on l.name) ≠ hx_incr) = l.full := by
    rw [l.named.2]
    cases l.full <;> decide +kernel
  unfold process
  rw [Query.run_then _ hhead, if_neg (not_not.mpr l.objects.1), Query.run_then _ hname,
    if_neg (not_not.mpr l.named.1), Query.run_then _ hdata, if_neg (not_not.mpr l.objects.2),
    Query.run_then _ hname, Query.run_then _ (run_text iname)]
  dsimp only
  rw [if_neg hhash, Query.run_then _ htk, if_neg (not_not.mpr l.time_key.1), Query.run_then _ ht,
    if_neg (not_not.mpr l.time_number), Query.run_then _ htk, Query.run_then _ (run_key itk l.time_key.2 (by decide)),
    if_neg Bool.false_ne_true, Query.run_then _ ht, Query.run_then _ htext, if_neg hvalid, hfull, Query.run_bind,
    l.run_scan_line hplain]
  split <;> rfl

theorem records_whole {x : Member} (h : x.Whole) (on buf : List Byte) :
    x.records on buf kept = x.records on buf id ∧ (x.HasRoom on buf kept ↔ x.HasRoom on buf id) := by
  cases x with
  | other k v => exact ⟨rfl, Iff.rfl⟩
  | list sd k a es =>
    have hes : kept es = id es := (kept_eq es).mpr h
    unfold Member.records Member.HasRoom
    simp only [hes]
    exact ⟨trivial, trivial⟩

theorem whole_of_length (on buf : List Byte) (xs : List Member) :
    (xs.flatMap (Member.records on buf kept)).length ≤ (xs.flatMap (Member.records on buf id)).length ∧
      ((xs.flatMap (Member.records on buf kept)).length = (xs.flatMap (Member.records on buf id)).length →
        ∀ x ∈ xs, x.Whole) := by
  induction xs with
  | nil => exact ⟨Nat.le_refl _, fun _ x hx => by cases hx⟩
  | cons x xs ih =>
    simp only [List.flatMap_cons, List.length_append, List.forall_mem_cons]
    cases x with
    | other k v => exact ⟨by simpa [Member.records] using ih.1, fun h =>
        ⟨trivial, ih.2 (by simpa [Member.records] using h)⟩⟩
    | list sd k a es =>
      have hpre := kept_prefix es
      have hle := hpre.length_le
      simp only [Member.records, List.length_map, id_eq]
      refine ⟨by omega, fun h => ⟨(kept_eq es).mp (hpre.eq_of_length (by omega)), ih.2 (by omega)⟩⟩

end MarketLine

/-! ## Two trades -/

def trades_on : List Byte :=
  ascii "\x7b\"MarketDataIncrementalRefresh\":\x7b\"symbol\":\"BTCUSD\",\"trade\":[" ++
    ascii "\x7b\"price\":\"1\",\"size\":2,\"tradeId\":3\x7d,\x7b\"price\":\"4\",\"size\":5,\"tradeId\":6\x7d" ++
    ascii "],\"timestamp\":7\x7d\x7d\n"

def trades_tokens : List jsmntok_t :=
  [⟨JSMN_OBJECT, 0, 146, 1, npos⟩, ⟨JSMN_STRING, 2, 30, 1, 0⟩, ⟨JSMN_OBJECT, 32, 145, 3, 1⟩,
    ⟨JSMN_STRING, 34, 40, 1, 2⟩, ⟨JSMN_STRING, 43, 49, 0, 3⟩, ⟨JSMN_STRING, 52, 57, 1, 2⟩,
    ⟨JSMN_ARRAY, 59, 130, 2, 5⟩, ⟨JSMN_OBJECT, 60, 94, 3, 6⟩, ⟨JSMN_STRING, 62, 67, 1, 7⟩,
    ⟨JSMN_STRING, 70, 71, 0, 8⟩, ⟨JSMN_STRING, 74, 78, 1, 7⟩, ⟨JSMN_PRIMITIVE, 80, 81, 0, 10⟩,
    ⟨JSMN_STRING, 83, 90, 1, 7⟩, ⟨JSMN_PRIMITIVE, 92, 93, 0, 12⟩, ⟨JSMN_OBJECT, 95, 129, 3, 6⟩,
    ⟨JSMN_STRING, 97, 102, 1, 14⟩, ⟨JSMN_STRING, 105, 106, 0, 15⟩, ⟨JSMN_STRING, 109, 113, 1, 14⟩,
    ⟨JSMN_PRIMITIVE, 115, 116, 0, 17⟩, ⟨JSMN_STRING, 118, 125, 1, 14⟩, ⟨JSMN_PRIMITIVE, 127, 128, 0, 19⟩,
    ⟨JSMN_STRING, 132, 141, 1, 2⟩, ⟨JSMN_PRIMITIVE, 143, 144, 0, 21⟩]

def trades_token (i : Nat) : jsmntok_t := trades_tokens.getD i ⟨JSMN_UNDEFINED, 0, 0, 0, 0⟩

def trades_entry (i : Nat) : Entry :=
  let t := trades_token
  ⟨t i, t (i + 1), t (i + 2), t (i + 3), t (i + 4), [.node (t (i + 5)) [], .node (t (i + 6)) []]⟩

def trades_member : Member :=
  .list SIDE_TRA (trades_token 5) (trades_token 6) [trades_entry 7, trades_entry 14]

theorem trades_fine (i : Nat) (hi : i = 7 ∨ i = 14) : (trades_entry i).Fine trades_on := by
  rcases hi with rfl | rfl
  all_goals exact ⟨by decide, by decide +kernel, by decide +kernel, by decide +kernel⟩

def trades : MarketLine where
  stamp := Bitfin2b.noon
  on := trades_on
  root := .node (trades_token 0) [.node (trades_token 1) [], .node (trades_token 2)
    (.node (trades_token 3) [] :: .node (trades_token 4) [] ::
      ([trades_member].flatMap Member.jsons ++ [.node (trades_token 21) [], .node (trades_token 22) []]))]
  begins := by decide +kernel
  parsed := by decide +kernel
  nested := by decide +kernel
  inside := by decide +kernel
  short := by decide +kernel
  head := trades_token 0
  name := trades_token 1
  data := trades_token 2
  full := false
  front := []
  sk := trades_token 3
  s := trades_token 4
  members := [trades_member]
  tk := trades_token 21
  t := trades_token 22
  shape := rfl
  objects := by decide
  named := by decide +kernel
  no_list := fun x hx => by cases hx
  symbol_key := by decide +kernel
  symbol_text := by decide
  time_key := by decide +kernel
  time_number := by decide
  fine := by
    simp only [List.forall_mem_singleton]
    refine ⟨by decide +kernel, by decide, fun x hx => ?_⟩
    simp only [List.mem_cons, List.not_mem_nil, or_false] at hx
    rcases hx with rfl | rfl
    · exact trades_fine 7 (Or.inl rfl)
    · exact trades_fine 14 (Or.inr rfl)
  distinct := by decide +kernel

theorem trades_plain : trades.Plain := by
  intro x hx
  obtain rfl : x = trades_member := List.mem_singleton.mp hx
  decide +kernel

end Coins.Quotes.Hit2b
