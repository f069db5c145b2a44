import Coins.Quotes.Channels
import Coins.Quotes.Coin2b
import Coins.Quotes.Documents

/-!
# Orders

What `coin2b` prints for a flat object, with its members in any order and others among them.
-/

open Coins.Numeral Coins.Questions Coins.Forest

namespace Coins.Quotes.Coin2b

open jsmntype_t coin_type_t coin_side_t

/-! ## Up to the quote -/

theorem strtoul_stop (l r : List Byte) {b : Byte} (hspace : isSpace b = false) (hdigit : isDigit 10 b = false)
    (hminus : b ≠ 45) (hplus : b ≠ 43) : strtoul 10 (l ++ b :: r) = strtoul 10 l := by
  have htake : ∀ (p : Byte → Bool) (x : List Byte), p b = false → (x ++ b :: r).takeWhile p = x.takeWhile p := by
    intro p x hp
    induction x with
    | nil => simp [hp]
    | cons c x ih =>
      rw [List.cons_append, List.takeWhile_cons, List.takeWhile_cons, ih]
  have hsign : ∀ x : List Byte, sign (x ++ b :: r) = ((sign x).1, (sign x).2.1, (sign x).2.2 ++ b :: r) := by
    intro x
    cases x with
    | nil =>
      rw [List.nil_append]
      unfold sign
      split <;> simp_all
    | cons c x =>
      rw [List.cons_append]
      unfold sign
      split <;> simp_all
  have hle : (l.takeWhile isSpace).length ≤ l.length := (List.takeWhile_prefix _).length_le
  simp only [strtoul, htake isSpace l hspace, List.drop_append_of_le_length hle, hsign, hexPrefix_ten, List.drop_zero,
    htake (isDigit 10) _ hdigit]

theorem get_digits_quote (hi n val : Nat) (w rest : List Byte) :
    get_digits hi n val (w ++ chr '"' :: rest) =
      ((get_digits hi n val w).1, (get_digits hi n val w).2 ++ chr '"' :: rest) := by
  induction w generalizing n val with
  | nil =>
    cases n with
    | zero => rfl
    | succ n =>
      rw [List.nil_append, get_digits, get_digits, if_neg (fun h => by cases h.2)]
      rfl
  | cons c w ih =>
    cases n with
    | zero => rfl
    | succ n =>
      rw [List.cons_append, get_digits, get_digits]
      split
      · exact ih _ _
      · rfl

theorem get_number_quote (lo hi n : Nat) (w rest : List Byte) :
    get_number lo hi n (w ++ chr '"' :: rest) =
      (get_number lo hi n w).map fun r => (r.1, r.2 ++ chr '"' :: rest) := by
  have hblank : (w ++ chr '"' :: rest).dropWhile isSpace = w.dropWhile isSpace ++ chr '"' :: rest := by
    induction w with
    | nil => rfl
    | cons c w ih =>
      rw [List.cons_append, List.dropWhile_cons, List.dropWhile_cons]
      split
      · exact ih
      · rfl
  unfold get_number
  rw [hblank]
  generalize w.dropWhile isSpace = x
  dsimp only
  rw [get_digits_quote]
  cases x with
  | nil => rfl
  | cons c x =>
    rw [List.cons_append, deref_cons, deref_cons]
    split
    · split <;> rfl
    · rfl

theorem match_char_quote (c : Byte) (w rest : List Byte) (hc0 : c ≠ 0) (hc : c ≠ chr '"') :
    match_char c (w ++ chr '"' :: rest) = (match_char c w).map (· ++ chr '"' :: rest) := by
  unfold match_char
  cases w with
  | nil =>
    rw [List.nil_append, deref_cons, if_neg hc.symm, if_neg (fun h => hc0 h.symm)]
    rfl
  | cons b w =>
    rw [List.cons_append, deref_cons, deref_cons]
    split <;> rfl

theorem strtons_quote (w rest : List Byte) : strtons (w ++ chr '"' :: rest) = strtons w := by
  unfold strtons
  cases w with
  | nil => rfl
  | cons c w =>
    rw [List.cons_append, deref_cons, deref_cons, List.tail_cons, List.tail_cons,
      strtoul_stop w rest (by decide) (by decide) (by decide) (by decide)]

theorem strptime_quote (w rest : List Byte) :
    strptime (w ++ chr '"' :: rest) = (strptime w).map fun r => (r.1, r.2 ++ chr '"' :: rest) := by
  unfold strptime
  simp only [get_number_quote, match_char_quote _ _ _ (show chr '-' ≠ 0 by decide) (show chr '-' ≠ chr '"' by decide),
    match_char_quote _ _ _ (show chr 'T' ≠ 0 by decide) (show chr 'T' ≠ chr '"' by decide),
    match_char_quote _ _ _ (show chr ':' ≠ 0 by decide) (show chr ':' ≠ chr '"' by decide), Option.bind_eq_bind,
    Option.bind_map, Option.map_bind, Function.comp_def]
  rfl

/-! ## Members -/

/-- What a key is taken for by its first four bytes. -/
inductive Kind
  | type | side | time | product | price | size
deriving DecidableEq

def kind (k : List Byte) : Option Kind :=
  if k.take 4 = ascii "type" then some .type
  else if k.take 4 = ascii "side" then some .side
  else if k.take 4 = ascii "size" ∨ k.take 4 = ascii "rema" then some .size
  else if k.take 4 = ascii "time" then some .time
  else if k.take 4 = ascii "pric" then some .price
  else if k.take 4 = ascii "prod" then some .product
  else none

abbrev Member := List Byte × Scalar

/-- A value that is none of these does not look like a key, the time is a time, and the fields have room. -/
def Regular (m : Member) : Prop :=
  m.2.quoted = true →
    match kind m.1 with
    | none => kind m.2.text = none
    | some .time => (strptime m.2.text).isSome = true
    | some .price => m.2.text.length < 16
    | some .size => m.2.text.length < 16
    | _ => True

def type_of (w : List Byte) : coin_type_t :=
  if w.head? = some (chr 'o') then TYPE_OPEN
  else if w.head? = some (chr 'd') then TYPE_DONE
  else if w.head? = some (chr 'm') then TYPE_MTCH
  else TYPE_UNK

def side_of (w : List Byte) : coin_side_t :=
  if w.head? = some (chr 'b') then SIDE_BID else if w.head? = some (chr 's') then SIDE_ASK else SIDE_UNK

def time_of (w : List Byte) : tv_t := ((strptime w).map fun r => timegm r.1 * NSECS + strtons r.2).getD 0

/-- A shorter text leaves the end of a longer one. -/
def laid (old new : List Byte) : List Byte := new ++ old.drop new.length

/-- What the members say. -/
structure Fields where
  xt : tv_t
  ins : List Byte
  sd : coin_side_t
  p : List Byte
  q : List Byte
  ty : coin_type_t

def Fields.zero : Fields := ⟨0, [], SIDE_UNK, [], [], TYPE_UNK⟩

/-- A string under a key, unless it is an unknown type. -/
def Fields.put (f : Fields) (w : List Byte) : Kind → Option Fields
  | .type => if type_of w = TYPE_UNK then none else some { f with ty := type_of w }
  | .side => some { f with sd := side_of w }
  | .time => some { f with xt := time_of w }
  | .product => some { f with ins := w }
  | .price => some { f with p := laid f.p w }
  | .size => some { f with q := laid f.q w }

def Fields.take (f : Fields) (m : Member) : Option Fields :=
  match kind m.1 with
  | none => some f
  | some κ => if m.2.quoted = true then f.put m.2.text κ else some f

/-- One member after the other. -/
def Fields.gather (f : Fields) : List Member → Option Fields
  | [] => some f
  | m :: ms => (f.take m).bind fun f => f.gather ms

section
variable {on : List Byte} {ts : List jsmntok_t}

theorem chars_nul {w : List Byte} (hw : Chars w) : (0 : Byte) ∉ w := by
  induction hw with
  | nil => exact List.not_mem_nil
  | plain h0 _ _ _ ih => simp [ih, Ne.symm h0]
  | escape he _ ih =>
    simp only [List.mem_cons, not_or]
    refine ⟨by decide, ?_, ih⟩
    rintro rfl
    revert he
    decide
  | hex ha hb hc hd _ ih =>
    simp only [List.mem_cons, not_or]
    exact ⟨by decide, by decide, (hex_ne_zero ha).symm, (hex_ne_zero hb).symm, (hex_ne_zero hc).symm,
      (hex_ne_zero hd).symm, ih⟩

theorem four_bytes (ts : List jsmntok_t) {t : jsmntok_t} {k : List Byte} (ht : Within on t) (hk : Enclosed on k t)
    (hroom : t.start + 4 ≤ on.length + 1) :
    ∃ b, Query.run (known on ts) (bytes t.ptr 4) = some b ∧
      ∀ w : List Byte, w.length = 4 → (0 : Byte) ∉ w → chr '"' ∉ w → (hash b = hash w ↔ k.take 4 = w) := by
  obtain ⟨rest, hquote⟩ := hk.quote
  have hord := ht.ordered
  have hin := ht.inside
  have hall : (on ++ [0]).drop t.start = k ++ chr '"' :: (rest ++ [0]) := by
    rw [List.drop_append_of_le_length (by omega), hquote]
    simp
  refine ⟨((on ++ [0]).drop t.start).take 4, by rw [ptr_within ht, run_bytes _ _ hroom], fun w hlen hnul hq => ?_⟩
  have hfour : (((on ++ [0]).drop t.start).take 4).length = 4 := by
    rw [List.length_take, List.length_drop, List.length_append, List.length_singleton]
    omega
  rw [hall] at hfour ⊢
  have hinj : hash ((k ++ chr '"' :: (rest ++ [0])).take 4) = hash w ↔ (k ++ chr '"' :: (rest ++ [0])).take 4 = w :=
    ⟨hash_four_inj _ _ hfour hlen, fun h => by rw [h]⟩
  rw [hinj]
  rcases Nat.lt_or_ge k.length 4 with hshort | hlong
  · refine iff_of_false (fun h => hq ?_) (fun h => ?_)
    · rw [← h, List.take_append, List.mem_append]
      right
      obtain ⟨d, hd⟩ : ∃ d, 4 - k.length = d + 1 := ⟨3 - k.length, by omega⟩
      rw [hd, List.take_succ_cons]
      exact List.mem_cons_self ..
    · have := congrArg List.length h
      rw [List.length_take] at this
      omega
  · rw [List.take_append_of_le_length hlong]

/-- What the fill does with the string behind a key. -/
def set (κ : Kind) (beef : Beef) (v : jsmntok_t) : Prog (Option Beef) :=
  match κ with
  | .type => do
    let ty ← snarf_type v.ptr
    if ty = TYPE_UNK then pure none else pure (some { beef with ty := ty })
  | .side => do
    let sd ← snarf_side v.ptr
    pure (some { beef with sd := sd })
  | .size => do
    let q ← memcpy beef.q v
    pure (some { beef with q := q })
  | .time => do
    let xt ← exchange_time v.ptr
    pure (some { beef with xt := xt })
  | .price => do
    let p ← memcpy beef.p v
    pure (some { beef with p := p })
  | .product => pure (some { beef with ins := (v.ptr, v.len) })

/-- **A string among the tokens**, by its kind. -/
theorem run_pair {i : Nat} {t : jsmntok_t} {k : List Byte} (hat : Query.run (known on ts) (toks i) = some t)
    (ht : Within on t) (hk : Enclosed on k t) (hroom : t.start + 4 ≤ on.length + 1) (beef : Beef) :
    Query.run (known on ts) (pair beef i) =
      match kind k with
      | none => some (some (beef, i))
      | some κ => Query.run (known on ts) (value (i + 1) beef (set κ beef)) := by
  obtain ⟨b, hb, hiff⟩ := four_bytes ts ht hk hroom
  have htype := hiff (ascii "type") (by decide) (by decide) (by decide)
  have hside := hiff (ascii "side") (by decide) (by decide) (by decide)
  have hsize := hiff (ascii "size") (by decide) (by decide) (by decide)
  have hrema := hiff (ascii "rema") (by decide) (by decide) (by decide)
  have htime := hiff (ascii "time") (by decide) (by decide) (by decide)
  have hpric := hiff (ascii "pric") (by decide) (by decide) (by decide)
  have hprod := hiff (ascii "prod") (by decide) (by decide) (by decide)
  unfold pair kind
  rw [Query.run_then _ hat, if_neg (not_not.mpr hk.type), Query.run_then _ hb]
  change Query.run _ (if hash b = hash (ascii "type") then _ else if hash b = hash (ascii "side") then _ else
    if hash b = hash (ascii "size") ∨ hash b = hash (ascii "rema") then _
    else if hash b = hash (ascii "time") then _ else
    if hash b = hash (ascii "pric") then _ else if hash b = hash (ascii "prod") then _ else _) = _
  simp only [htype, hside, hsize, hrema, htime, hpric, hprod]
  split
  · rfl
  split
  · rfl
  split
  · rfl
  split
  · rfl
  split
  · rfl
  split
  · rfl
  · rfl

/-! ## Values -/

/-- A field with `w` in front of its NULs. -/
structure Holds (field w : List Byte) : Prop where
  short : w.length < 16
  nul : (0 : Byte) ∉ w
  eq : field = w ++ List.replicate (16 - w.length) 0

/-- What has been filled, and what the members say. -/
structure Matches (on : List Byte) (ts : List jsmntok_t) (f : Fields) (b : Beef) : Prop where
  xt : b.xt = f.xt
  ins : Query.run (known on ts) (bytes b.ins.1 b.ins.2) = some f.ins
  sd : b.sd = f.sd
  p : Holds b.p f.p
  q : Holds b.q f.q
  ty : b.ty = f.ty

theorem holds_nothing : Holds (List.replicate 16 0) [] := ⟨by decide, List.not_mem_nil, rfl⟩

theorem matches_zero : Matches on ts Fields.zero Beef.zero :=
  ⟨rfl, rfl, rfl, holds_nothing, holds_nothing, rfl⟩

theorem run_memcpy (ts : List jsmntok_t) {field w x : List Byte} {v : jsmntok_t} (hf : Holds field w)
    (hv : Within on v) (hspan : span on v = x)
    (hshort : x.length < 16) (hnul : (0 : Byte) ∉ x) :
    ∃ field', Query.run (known on ts) (memcpy field v) = some field' ∧ Holds field' (laid w x) := by
  have hw := hf.short
  have hlen : (laid w x).length = max x.length w.length := by
    unfold laid
    rw [List.length_append, List.length_drop]
    omega
  refine ⟨(x ++ field.drop x.length).take 16, ?_, ?_, ?_, ?_⟩
  · unfold memcpy
    rw [Query.run_then _ (run_text hv), hspan, Query.run_bind, run_room, if_pos (Nat.le_of_lt hshort)]
    rfl
  · rw [hlen]
    omega
  · intro h
    rcases List.mem_append.mp h with h | h
    · exact hnul h
    · exact hf.nul (List.mem_of_mem_drop h)
  · rw [hlen, hf.eq, List.drop_append, List.drop_replicate, ← List.append_assoc]
    have hsub : 16 - w.length - (x.length - w.length) = 16 - max x.length w.length := by omega
    rw [hsub]
    refine List.take_of_length_le ?_
    change (laid w x ++ _).length ≤ 16
    rw [List.length_append, hlen, List.length_replicate]
    omega

theorem run_first {v : jsmntok_t} {w : List Byte} (hv : Within on v) (hw : Enclosed on w v) :
    Query.run (known on ts) (byte_at v.ptr) = some (deref (w ++ [chr '"'])) := by
  obtain ⟨rest, hquote⟩ := hw.quote
  rw [ptr_within hv, run_byte_at, ← List.head?_drop,
    List.drop_append_of_le_length (Nat.le_trans hv.ordered hv.inside), hquote]
  cases w <;> rfl

theorem run_snarf_type {v : jsmntok_t} {w : List Byte} (hv : Within on v) (hw : Enclosed on w v) :
    Query.run (known on ts) (snarf_type v.ptr) = some (type_of w) := by
  unfold snarf_type type_of
  rw [Query.run_then _ (run_first hv hw)]
  cases w with
  | nil => rfl
  | cons b w =>
    change Query.run (known on ts) (if b = chr 'o' then pure TYPE_OPEN else if b = chr 'd' then pure TYPE_DONE else
      if b = chr 'm' then pure TYPE_MTCH else pure TYPE_UNK) = _
    simp only [List.head?_cons, Option.some.injEq]
    by_cases ho : b = chr 'o'
    · rw [if_pos ho, if_pos ho]
      rfl
    by_cases hd : b = chr 'd'
    · rw [if_neg ho, if_neg ho, if_pos hd, if_pos hd]
      rfl
    rw [if_neg ho, if_neg ho, if_neg hd, if_neg hd]
    split <;> rfl

theorem run_snarf_side {v : jsmntok_t} {w : List Byte} (hv : Within on v) (hw : Enclosed on w v) :
    Query.run (known on ts) (snarf_side v.ptr) = some (side_of w) := by
  unfold snarf_side side_of
  rw [Query.run_then _ (run_first hv hw)]
  cases w with
  | nil => rfl
  | cons b w =>
    change Query.run (known on ts) (if b = chr 'b' then pure SIDE_BID else if b = chr 's' then pure SIDE_ASK else
      pure SIDE_UNK) = _
    simp only [List.head?_cons, Option.some.injEq]
    by_cases hb : b = chr 'b'
    · rw [if_pos hb, if_pos hb]
      rfl
    rw [if_neg hb, if_neg hb]
    split <;> rfl

theorem run_exchange_time {v : jsmntok_t} {w : List Byte} (hv : Within on v) (hw : Enclosed on w v)
    (htime : (strptime w).isSome = true) : Query.run (known on ts) (exchange_time v.ptr) = some (time_of w) := by
  obtain ⟨rest, hquote⟩ := hw.quote
  obtain ⟨⟨t, nanos⟩, hr⟩ := Option.isSome_iff_exists.mp htime
  unfold exchange_time time_of
  rw [ptr_within hv, Query.run_then _ (run_str_at _ (Nat.le_trans hv.ordered hv.inside)), hquote, strptime_quote, hr]
  change some (timegm t * NSECS + strtons (nanos ++ chr '"' :: rest)) = _
  rw [strtons_quote]
  rfl

/-- **A string behind a key** is taken for what it says. -/
theorem run_set {f : Fields} {b : Beef} (hb : Matches on ts f b) {v : jsmntok_t} {w : List Byte} (hv : Within on v)
    (hw : Enclosed on w v) (κ : Kind) (htime : κ = .time → (strptime w).isSome = true)
    (hshort : κ = .price ∨ κ = .size → w.length < 16) :
    ∃ o, Query.run (known on ts) (set κ b v) = some o ∧ Option.Rel (Matches on ts) (f.put w κ) o := by
  have hnul := chars_nul hw.chars
  cases κ with
  | type =>
    unfold set Fields.put
    rw [Query.run_then _ (run_snarf_type hv hw)]
    split
    · exact ⟨none, rfl, Option.Rel.none⟩
    · exact ⟨_, rfl, Option.Rel.some ⟨hb.xt, hb.ins, hb.sd, hb.p, hb.q, rfl⟩⟩
  | side =>
    unfold set Fields.put
    rw [Query.run_then _ (run_snarf_side hv hw)]
    exact ⟨_, rfl, Option.Rel.some ⟨hb.xt, hb.ins, rfl, hb.p, hb.q, hb.ty⟩⟩
  | time =>
    unfold set Fields.put
    rw [Query.run_then _ (run_exchange_time hv hw (htime rfl))]
    exact ⟨_, rfl, Option.Rel.some ⟨rfl, hb.ins, hb.sd, hb.p, hb.q, hb.ty⟩⟩
  | product =>
    unfold set Fields.put
    exact ⟨_, rfl, Option.Rel.some ⟨hb.xt, (run_text hv).trans (congrArg some hw.span), hb.sd, hb.p, hb.q, hb.ty⟩⟩
  | price =>
    obtain ⟨p, hp, hholds⟩ := run_memcpy ts hb.p hv hw.span (hshort (Or.inl rfl)) hnul
    unfold set Fields.put
    rw [Query.run_then _ hp]
    exact ⟨_, rfl, Option.Rel.some ⟨hb.xt, hb.ins, hb.sd, hholds, hb.q, hb.ty⟩⟩
  | size =>
    obtain ⟨q, hq, hholds⟩ := run_memcpy ts hb.q hv hw.span (hshort (Or.inr rfl)) hnul
    unfold set Fields.put
    rw [Query.run_then _ hq]
    exact ⟨_, rfl, Option.Rel.some ⟨hb.xt, hb.ins, hb.sd, hb.p, hholds, hb.ty⟩⟩

/-! ## Members, one after the other -/

/-- An object of strings and words. -/
def flat (ms : List Member) : Items := .object (ms.map fun m => (m.1, m.2.data))

theorem shows_member {m : Member} {ms : List Member} {kids : List Json} (h : DepictsAll on (flat (m :: ms)) kids) :
    ∃ k v rest, kids = .node k [] :: .node v [] :: rest ∧ Enclosed on m.1 k ∧
      (m.2.quoted = true → Enclosed on m.2.text v) ∧
      (m.2.quoted = false → v.type ≠ JSMN_STRING) ∧ DepictsAll on (flat ms) rest := by
  cases h with
  | @member _ _ _ k t rest _ hk ht hrest =>
    change Depicts on m.2.data t at ht
    unfold Scalar.data at ht
    split at ht
    · rename_i hquoted
      cases ht with
      | @quoted _ v _ hv => exact ⟨k, v, rest, rfl,
          hk, fun _ => hv, fun hno => absurd (hquoted.symm.trans hno) (by decide), hrest⟩
    · rename_i hquoted
      cases ht with
      | @word _ v htype _ _ =>
        have hword : v.type ≠ JSMN_STRING := by
          rw [htype]
          decide
        exact ⟨k, v, rest, rfl, hk, fun hyes => absurd hyes hquoted, fun _ => hword, hrest⟩

theorem run_value {f : Fields} {b : Beef} (hb : Matches on ts f b) {m : Member} {κ : Kind} (hkind : kind m.1 = some κ)
    (hregular : Regular m) {i : Nat} {v : jsmntok_t} (hat : Query.run (known on ts) (toks i) = some v)
    (hv : Within on v)
    (hquoted : m.2.quoted = true → Enclosed on m.2.text v) (hword : m.2.quoted = false → v.type ≠ JSMN_STRING) :
    ∃ o, Query.run (known on ts) (value i b (set κ b)) = some (o.map fun b => (b, i)) ∧
      Option.Rel (Matches on ts) (f.take m) o := by
  unfold value Fields.take
  rw [Query.run_then _ hat, hkind]
  dsimp only
  cases hq : m.2.quoted with
  | false =>
    rw [if_neg (hword hq), if_neg (fun h => by cases h)]
    exact ⟨some b, rfl, Option.Rel.some hb⟩
  | true =>
    have hw := hquoted hq
    have hmay := hregular hq
    rw [hkind] at hmay
    have htime : κ = .time → (strptime m.2.text).isSome = true := by
      rintro rfl
      exact hmay
    have hshort : κ = .price ∨ κ = .size → m.2.text.length < 16 := by
      rintro (rfl | rfl)
      · exact hmay
      · exact hmay
    obtain ⟨o, ho, hrel⟩ := run_set hb hv hw κ htime hshort
    rw [if_pos hw.type, if_pos rfl, Query.run_then _ ho]
    exact ⟨o, rfl, hrel⟩

theorem run_fill_step {r i fuel : Nat} {b : Beef} (hi : i < r) {o : Option (Beef × Nat)}
    (hpair : Query.run (known on ts) (pair b i) = some o) :
    Query.run (known on ts) (fill r (fuel + 1) b i) =
      match o with
      | none => some none
      | some x => Query.run (known on ts) (fill r fuel x.1 (x.2 + 1)) := by
  rw [fill, if_pos hi, Query.run_then _ hpair]
  cases o <;> rfl

/-- **The fill** takes one member after the other. -/
theorem run_fill (ms : List Member) (hregular : ∀ m ∈ ms, Regular m) {f : Fields} {b : Beef} (hb : Matches on ts f b)
    (kids : List Json) (i fuel : Nat) (hshows : DepictsAll on (flat ms) kids) (hdrop : ts.drop i = pres kids)
    (hin : ∀ t ∈ pres kids, Within on t)
    (hroom : ∀ t ∈ pres kids, t.type = JSMN_STRING → t.start + 4 ≤ on.length + 1) (hfuel : (pres kids).length ≤ fuel) :
    ∃ o, Query.run (known on ts) (fill ts.length fuel b i) = some o ∧ Option.Rel (Matches on ts) (f.gather ms) o := by
  induction ms generalizing f b kids i fuel with
  | nil =>
    cases hshows
    have hend : ¬ i < ts.length := by
      have hlen := congrArg List.length hdrop
      rw [List.length_drop, pres_nil, List.length_nil] at hlen
      omega
    refine ⟨some b, ?_, Option.Rel.some hb⟩
    cases fuel with
    | zero => rfl
    | succ fuel =>
      rw [fill, if_neg hend]
      rfl
  | cons m ms ih =>
    obtain ⟨k, v, kids, rfl, hk, hquoted, hword, hrest⟩ := shows_member hshows
    simp only [pres_cons, pre_node, pres_nil, List.cons_append, List.nil_append] at hdrop hin hroom hfuel
    rw [List.length_cons, List.length_cons] at hfuel
    obtain ⟨fuel, rfl⟩ : ∃ n, fuel = n + 2 := ⟨fuel - 2, by omega⟩
    have hlater : ts.drop (i + 2) = pres kids := drop_more (l := [k, v]) hdrop
    have hlt : i + 1 < ts.length := by
      have hlen := congrArg List.length hdrop
      rw [List.length_drop, List.length_cons, List.length_cons] at hlen
      omega
    have hregm := hregular m (List.mem_cons_self ..)
    have hk' := hin k (by simp)
    have hv' := hin v (by simp)
    have hat : Query.run (known on ts) (toks (i + 1)) = some v := run_at hdrop 1 rfl
    have hpair := run_pair (run_here hdrop) hk' hk (hroom k (by simp) hk.type) b
    have hnext : ∀ (f : Fields) (b : Beef) (fuel : Nat), Matches on ts f b → (pres kids).length ≤ fuel →
        ∃ o, Query.run (known on ts) (fill ts.length fuel b (i + 2)) = some o ∧
          Option.Rel (Matches on ts) (f.gather ms) o :=
      fun f b fuel hb hfuel => ih (fun m hm => hregular m (List.mem_cons_of_mem _ hm)) hb kids (i + 2) fuel hrest hlater
        (fun t ht => hin t (by simp [ht])) (fun t ht => hroom t (by simp [ht])) hfuel
    rw [Fields.gather]
    cases hkind : kind m.1 with
    | none =>
      -- the value is looked at like a key
      have hpass : Query.run (known on ts) (pair b (i + 1)) = some (some (b, i + 1)) := by
        cases hq : m.2.quoted with
        | false =>
          unfold pair
          rw [Query.run_then _ hat, if_pos (hword hq)]
          rfl
        | true =>
          have hmay := hregm hq
          rw [hkind] at hmay
          rw [run_pair hat hv' (hquoted hq) (hroom v (by simp) (hquoted hq).type) b, hmay]
      have htake : f.take m = some f := by
        unfold Fields.take
        rw [hkind]
      rw [hkind] at hpair
      rw [htake, Option.bind_some, run_fill_step (Nat.lt_of_succ_lt hlt) hpair]
      dsimp only
      rw [run_fill_step hlt hpass]
      exact hnext f b fuel hb (by omega)
    | some κ =>
      obtain ⟨o, ho, hrel⟩ := run_value hb hkind hregm hat hv' hquoted hword
      rw [hkind] at hpair
      dsimp only at hpair
      rw [ho] at hpair
      rw [run_fill_step (Nat.lt_of_succ_lt hlt) hpair]
      generalize f.take m = f' at hrel ⊢
      cases hrel with
      | none => exact ⟨none, rfl, Option.Rel.none⟩
      | some hb' => exact hnext _ _ (fuel + 1) hb' (by omega)

/-! ## Records -/

def Fields.record (rt : tv_t) (f : Fields) : List Byte :=
  tvtostr f.xt ++ [tab] ++ (tvtostr rt ++ [tab]) ++ (f.ins ++ [tab]) ++ (sides f.sd ++ [tab]) ++ (f.p ++ [tab]) ++
    (if f.ty ≠ TYPE_OPEN then [chr '-'] else []) ++ (f.q ++ [nl])

/-- There is none for an unknown type, and none without a quantity. -/
def records (rt : tv_t) (ms : List Member) : List (List Byte) :=
  match Fields.zero.gather ms with
  | none => []
  | some f => if f.q = [] ∨ f.q = [chr '0'] then [] else [f.record rt]

theorem run_upto_nul {field w : List Byte} (h : Holds field w) : Query.run (known on ts) (upto_nul field) = some w := by
  obtain ⟨d, hd⟩ : ∃ d, 16 - w.length = d + 1 := ⟨15 - w.length, by have := h.short; omega⟩
  unfold upto_nul
  rw [h.eq, hd, List.replicate_succ, upto_some 0 w _ h.nul]
  rfl

theorem holds_idle {field w : List Byte} (h : Holds field w) :
    (field.getD 0 0 = 0 ∨ (field.getD 0 0 = chr '0' ∧ field.getD 1 0 = 0)) ↔ (w = [] ∨ w = [chr '0']) := by
  have hnul := h.nul
  rw [h.eq]
  match w with
  | [] => simp
  | [c] =>
    have hc : c ≠ 0 := fun hc => hnul (by simp [hc])
    simp [hc]
  | c :: d :: w =>
    have hc : c ≠ 0 := fun hc => hnul (by simp [hc])
    have hd : d ≠ 0 := fun hd => hnul (by simp [hd])
    simp [hc, hd]

theorem run_record {f : Fields} {b : Beef} (hb : Matches on ts f b) (rt : tv_t) :
    Query.run (known on ts) (record rt b) = if (f.record rt).length ≤ 256 then some (f.record rt) else none := by
  unfold record
  rw [hb.xt, hb.sd, hb.ty]
  refine run_copy (by simp [Fields.record]) (run_copy (by simp [Fields.record]) ?_)
  rw [Query.run_then _ hb.ins]
  refine run_copy (by simp [Fields.record]) (run_copy (by simp [Fields.record]) ?_)
  rw [Query.run_then _ (run_upto_nul hb.p)]
  refine run_copy (by simp [Fields.record]) (run_copy (by simp [Fields.record]) ?_)
  rw [Query.run_then _ (run_upto_nul hb.q)]
  exact run_memncpy ..

theorem run_process {ms : List Member} (hregular : ∀ m ∈ ms, Regular m) {o : jsmntok_t} {kids : List Json}
    (htype : o.type = JSMN_OBJECT) (hshows : DepictsAll on (flat ms) kids) (hts : ts = o :: pres kids)
    (hin : ∀ t ∈ pres kids, Within on t)
    (hroom : ∀ t ∈ pres kids, t.type = JSMN_STRING → t.start + 4 ≤ on.length + 1) (rt : tv_t) :
    Query.run (known on ts) (process rt ts.length) =
      if ∀ r ∈ records rt ms, r.length ≤ 256 then some ⟨0, records rt ms⟩ else none := by
  have h0 : Query.run (known on ts) (toks 0) = some o := run_nth ((congrArg (·[0]?) hts).trans rfl)
  have hdrop : ts.drop 1 = pres kids := (congrArg (List.drop 1) hts).trans rfl
  have hfuel : (pres kids).length ≤ ts.length := drop_fits (r := []) (by rw [hdrop, List.append_nil])
  obtain ⟨b, hfill, hrel⟩ := run_fill ms hregular matches_zero kids 1 ts.length hshows hdrop hin hroom hfuel
  unfold process
  rw [Query.run_then _ h0, if_neg (not_not.mpr htype), Query.run_then _ hfill]
  cases hgather : Fields.zero.gather ms with
  | none =>
    have hrecords : records rt ms = [] := by
      unfold records
      rw [hgather]
    rw [hgather] at hrel
    cases hrel
    rw [hrecords, if_pos (fun _ hr => by cases hr)]
    rfl
  | some f =>
    have hrecords : records rt ms = if f.q = [] ∨ f.q = [chr '0'] then [] else [f.record rt] := by
      unfold records
      rw [hgather]
    rw [hgather] at hrel
    cases hrel with
    | some hb =>
      have hidle := holds_idle hb.q
      dsimp only
      by_cases hq : f.q = [] ∨ f.q = [chr '0']
      · rw [if_pos hq] at hrecords
        rw [if_pos (hidle.mpr hq), hrecords, if_pos (fun _ hr => by cases hr)]
        rfl
      · rw [if_neg hq] at hrecords
        rw [if_neg (fun h => hq (hidle.mp h)), hrecords, Query.run_bind, run_record hb]
        simp only [List.forall_mem_singleton]
        split <;> rfl

end

/-! ## Any order -/

/-- Members that are not of one kind. -/
def Apart (m m' : Member) : Prop := kind m.1 = none ∨ kind m.1 ≠ kind m'.1

theorem Apart.symm {m m' : Member} (h : Apart m m') : Apart m' m := by
  rcases h with hnone | hne
  · by_cases h' : kind m'.1 = none
    · exact Or.inl h'
    · exact Or.inr fun he => h' (he.trans hnone)
  · exact Or.inr hne.symm

theorem put_type_comm (f : Fields) (w w' : List Byte) {κ : Kind} (h : κ ≠ .type) :
    ((f.put w .type).bind fun f => f.put w' κ) = (f.put w' κ).bind fun f => f.put w .type := by
  by_cases hw : type_of w = TYPE_UNK
  · cases κ with
    | type => exact absurd rfl h
    | _ => simp [Fields.put, hw]
  · cases κ with
    | type => exact absurd rfl h
    | _ => simp [Fields.put, hw]

theorem put_comm (f : Fields) (w w' : List Byte) {κ κ' : Kind} (h : κ ≠ κ') :
    ((f.put w κ).bind fun f => f.put w' κ') = (f.put w' κ').bind fun f => f.put w κ := by
  by_cases hκ : κ = .type
  · subst hκ
    exact put_type_comm f w w' h.symm
  by_cases hκ' : κ' = .type
  · subst hκ'
    exact (put_type_comm f w' w h).symm
  -- the others set one field each
  cases κ <;> cases κ' <;> first
    | exact (h rfl).elim
    | exact (hκ rfl).elim
    | exact (hκ' rfl).elim
    | rfl

theorem take_comm (f : Fields) {m m' : Member} (h : Apart m m') :
    ((f.take m).bind fun f => f.take m') = (f.take m').bind fun f => f.take m := by
  unfold Fields.take
  unfold Apart at h
  cases hm : kind m.1 with
  | none =>
    cases kind m'.1 with
    | none => rfl
    | some κ' => simp
  | some κ =>
    cases hm' : kind m'.1 with
    | none => simp
    | some κ' =>
      rw [hm, hm'] at h
      have hne : κ ≠ κ' := by
        rcases h with h | h
        · cases h
        · exact fun he => h (congrArg some he)
      dsimp only
      by_cases hq : m.2.quoted = true
      · by_cases hq' : m'.2.quoted = true
        · simp only [if_pos hq, if_pos hq']
          exact put_comm f _ _ hne
        · simp [hq, hq']
      · simp [hq]

theorem gather_perm {ms ms' : List Member} (hperm : ms.Perm ms') (hapart : ms.Pairwise Apart) (f : Fields) :
    f.gather ms = f.gather ms' := by
  induction hperm generalizing f with
  | nil => rfl
  | cons m _ ih =>
    rw [Fields.gather, Fields.gather]
    exact congrArg _ (funext fun f => ih (List.pairwise_cons.mp hapart).2 f)
  | swap m m' l =>
    have hm := (List.pairwise_cons.mp hapart).1 m (List.mem_cons_self ..)
    simp only [Fields.gather]
    rw [← Option.bind_assoc, ← Option.bind_assoc, take_comm f hm]
  | trans h _ ih ih' =>
    rw [ih hapart f, ih' ((h.pairwise_iff Apart.symm).mp hapart) f]

theorem records_perm {ms ms' : List Member} (hperm : ms.Perm ms') (hapart : ms.Pairwise Apart) (rt : tv_t) :
    records rt ms = records rt ms' := by
  unfold records
  rw [gather_perm hperm hapart]

/-! ## JSON -/

/-- The cells that `procln` looks at or writes to. -/
def accesses (old : (c : Cell) → c.Ans) (line : List Byte) : List Cell :=
  match json_part countof (chr '\x7b') line with
  | none => []
  | some (rt, on, ts) => (process rt ts.length).asked (memory on ts old)

theorem closes {v : Value} {b : Bracket} {items : Items} (hv : v.data = .group b items) (pos i par : Nat) :
    ∃ front, v.text = front ++ [b.closing] ∧ (v.tree pos i par).root.end_ = pos + (front.length + 1) := by
  cases v with
  | word w => cases hv
  | quoted s => cases hv
  | empty b' gap =>
    injection hv with hb
    subst hb
    exact ⟨b'.opening :: gap.bytes, rfl, rfl⟩
  | group b' gap es =>
    injection hv with hb
    subst hb
    exact ⟨b'.opening :: (gap.bytes ++ es.text), by simp [Value.text], by simp [Value.tree]⟩

theorem strings_room {v : Value} {items : Items} (hv : v.data = .group .brace items) {after : Gap}
    (hafter : after.bytes ≠ [])
    (hlen : (v.text ++ after.bytes).length < 2 ^ 63) {k : jsmntok_t} {w : List Byte}
    (hk : k ∈ pres (v.tree 0 0 npos).kids) (hclosed : Enclosed (v.text ++ after.bytes) w k) :
    k.start + 4 ≤ (v.text ++ after.bytes).length + 1 := by
  have hnested := v.nested 0 0 npos
  have hwithin : Within (v.text ++ after.bytes) k := by
    refine v.within after.bytes hlen k ?_
    rw [pre_eq]
    exact List.mem_cons_of_mem _ hk
  obtain ⟨front, htext, hroot⟩ := closes hv 0 0 npos
  obtain ⟨rest, hquote⟩ := hclosed.quote
  obtain ⟨-, hord, hend⟩ := nestedAll_mem _ _ _ (nested_kids _ hnested) k hk
  have hpos := List.length_pos_of_ne_nil hafter
  have hwlen : w.length = k.end_ - k.start := by rw [← hclosed.span, span_length hwithin]
  have hne : k.end_ ≠ front.length := by
    intro he
    have hat : (v.text ++ after.bytes)[front.length]? = some (chr '\x7d') := by
      rw [htext]
      simp [Bracket.closing]
    have hat' : (v.text ++ after.bytes)[k.start + w.length]? = some (chr '"') := by
      rw [← List.getElem?_drop, hquote]
      simp
    rw [show k.start + w.length = front.length by omega, hat] at hat'
    revert hat'
    decide
  rw [htext, List.length_append, List.length_append, List.length_singleton]
  omega

theorem shows_enclosed {on : List Byte} (ms : List Member) (kids : List Json) (hshows : DepictsAll on (flat ms) kids) :
    ∀ t ∈ pres kids, t.type = JSMN_STRING → ∃ w, Enclosed on w t := by
  induction ms generalizing kids with
  | nil =>
    intro t ht
    cases hshows
    rw [pres_nil] at ht
    cases ht
  | cons m ms ih =>
    intro t ht htype
    obtain ⟨k, u, kids, rfl, hk, hquoted, hword, hrest⟩ := shows_member hshows
    simp only [pres_cons, pre_node, pres_nil, List.cons_append, List.nil_append, List.mem_cons] at ht
    rcases ht with rfl | rfl | ht
    · exact ⟨_, hk⟩
    · cases hq : m.2.quoted with
      | false => exact absurd htype (hword hq)
      | true => exact ⟨_, hquoted hq⟩
    · exact ih kids hrest t ht htype

theorem shows_room {v : Value} {ms : List Member} (hv : v.data = .group .brace (flat ms)) {after : Gap}
    (hafter : after.bytes ≠ []) (hlen : (v.text ++ after.bytes).length < 2 ^ 63) :
    ∀ t ∈ pres (v.tree 0 0 npos).kids, t.type = JSMN_STRING → t.start + 4 ≤ (v.text ++ after.bytes).length + 1 := by
  have hshows : Depicts (v.text ++ after.bytes) v.data (v.tree 0 0 npos) := v.shows 0 0 npos after.bytes rfl
  intro t ht htype
  generalize htree : v.tree 0 0 npos = tree at hshows
  rw [hv] at hshows
  cases hshows with
  | group _ _ hkids =>
    rw [htree] at ht
    obtain ⟨w, hw⟩ := shows_enclosed ms _ hkids t ht htype
    exact strings_room hv hafter hlen (by rw [htree]; exact ht) hw

theorem run_order {v : Value} {ms : List Member} (hv : v.data = .group .brace (flat ms))
    (hregular : ∀ m ∈ ms, Regular m)
    {after : Gap} (hafter : after.bytes ≠ []) (hlen : (v.text ++ after.bytes).length < 2 ^ 63) (rt : tv_t) :
    Query.run (known (v.text ++ after.bytes) (v.tree 0 0 npos).pre) (process rt (v.tree 0 0 npos).pre.length) =
      if ∀ r ∈ records rt ms, r.length ≤ 256 then some ⟨0, records rt ms⟩ else none := by
  have hroom := shows_room hv hafter hlen
  have hin := v.within after.bytes hlen
  have hshows : Depicts (v.text ++ after.bytes) v.data (v.tree 0 0 npos) := v.shows 0 0 npos after.bytes rfl
  generalize v.tree 0 0 npos = tree at hroom hin hshows ⊢
  rw [hv] at hshows
  cases hshows with
  | @group _ _ o kids htype _ hkids =>
    refine run_process hregular htype hkids (pre_node ..) (fun t ht => hin t ?_) hroom rt
    rw [pre_node]
    exact List.mem_cons_of_mem _ ht

theorem procln_converted : procln = converted countof Bracket.brace.opening process := rfl

theorem accesses_touched : accesses = touched countof Bracket.brace.opening process := rfl

theorem procln_records (stamp : Stamp) {v : Value} {ms : List Member} (hv : v.data = .group .brace (flat ms))
    (hregular : ∀ m ∈ ms, Regular m) {after : Gap} (hafter : after.bytes ≠ [])
    (hlen : (v.text ++ after.bytes).length < 2 ^ 63)
    (hroom : v.count ≤ countof) (hfits : ∀ r ∈ records stamp.tv ms, r.length ≤ 256) (old : (c : Cell) → c.Ans) :
    procln old (stamp.text ++ tab :: (v.text ++ after.bytes)) = ⟨0, records stamp.tv ms⟩ := by
  have h := converted_value countof stamp v after hv (Nat.lt_trans hlen (by decide)) process
    (run_order hv hregular hafter hlen stamp.tv)
  dsimp only at h
  rw [if_pos hroom, ← procln_converted] at h
  exact (h.mpr hfits old).1

/-- **An order is transcribed**, whatever the gaps and the order of its members are and what was there before, and
nothing but the line and its tokens is looked at, if and only if its record has room. Without room for the tokens it is
refused. -/
theorem order_transcribed (stamp : Stamp) (ms : List Member) (hregular : ∀ m ∈ ms, Regular m) (v : Value) (after : Gap)
    (hv : v.data = .group .brace (flat ms)) (hafter : after.bytes ≠ [])
    (hlen : (v.text ++ after.bytes).length < 2 ^ 63) :
    let on := v.text ++ after.bytes
    let line := stamp.text ++ tab :: on
    if v.count ≤ countof then
      (∀ old, procln old line = ⟨0, records stamp.tv ms⟩ ∧
        ∀ c ∈ accesses old line, (known on (v.tree 0 0 npos).pre c).isSome = true) ↔
          ∀ r ∈ records stamp.tv ms, r.length ≤ 256
    else ∀ old, procln old line = ⟨-1, []⟩ ∧ accesses old line = [] := by
  rw [procln_converted, accesses_touched]
  exact converted_value countof stamp v after hv (Nat.lt_trans hlen (by decide)) process
    (run_order hv hregular hafter hlen stamp.tv)

theorem bid_fine : (∀ b ∈ ascii "price", b ≠ 0 ∧ b ≠ chr '"' ∧ b ≠ chr '\\') ∧
    (∀ b ∈ ascii "7", b ≠ 0 ∧ b ≠ chr '"' ∧ b ≠ chr '\\') ∧ (∀ b ∈ ascii "size", b ≠ 0 ∧ b ≠ chr '"' ∧ b ≠ chr '\\') ∧
    (∀ b ∈ ascii "5", b ≠ 0 ∧ b ≠ chr '"' ∧ b ≠ chr '\\') ∧ ∀ b ∈ ascii "\n", b ∈ blanks := by decide +kernel

def price_seven : Element := string_member (ascii "price") (ascii "7") bid_fine.1 bid_fine.2.1
def size_five : Element := string_member (ascii "size") (ascii "5") bid_fine.2.2.1 bid_fine.2.2.2.1

/-- `{"price":"7","size":"5"}` -/
def bid : Value := .group .brace no_gap (.more price_seven no_gap (.one size_five))

def bid_members : List Member := [(ascii "price", ⟨true, ascii "7"⟩), (ascii "size", ⟨true, ascii "5"⟩)]

def line_break : Gap := ⟨ascii "\n", bid_fine.2.2.2.2⟩

theorem bid_regular : ∀ m ∈ bid_members, Regular m := by
  intro m hm
  simp only [bid_members, List.mem_cons, List.not_mem_nil, or_false] at hm
  rcases hm with rfl | rfl
  · exact fun _ => (by decide : (ascii "7").length < 16)
  · exact fun _ => (by decide : (ascii "5").length < 16)

theorem bid_line : bid.data = .group .brace (flat bid_members) ∧ line_break.bytes ≠ [] ∧
    (bid.text ++ line_break.bytes).length < 2 ^ 63 ∧ bid.count ≤ countof ∧
    ∀ r ∈ records Bitfin2b.noon.tv bid_members, r.length ≤ 256 :=
  ⟨rfl, by decide, by decide +kernel, by decide +kernel, by decide +kernel⟩

theorem order_transcribed_bid :
    (fun old => procln old (Bitfin2b.noon.text ++ tab :: (bid.text ++ line_break.bytes))) =
      fun _ => ⟨0, records Bitfin2b.noon.tv bid_members⟩ := by
  obtain ⟨hv, hafter, hlen, hroom, hfits⟩ := bid_line
  have h := order_transcribed Bitfin2b.noon bid_members bid_regular bid line_break hv hafter hlen
  dsimp only at h
  rw [if_pos hroom] at h
  exact funext fun old => (h.mpr hfits old).1

/-- **The order of the members** makes no difference, if no two are of one kind. -/
theorem order_any_order (stamp : Stamp) {ms ms' : List Member} (hperm : ms.Perm ms') (hapart : ms.Pairwise Apart)
    (hregular : ∀ m ∈ ms, Regular m) (v v' : Value) (after after' : Gap) (hv : v.data = .group .brace (flat ms))
    (hv' : v'.data = .group .brace (flat ms')) (hafter : after.bytes ≠ []) (hafter' : after'.bytes ≠ [])
    (hlen : (v.text ++ after.bytes).length < 2 ^ 63) (hlen' : (v'.text ++ after'.bytes).length < 2 ^ 63)
    (hroom : v.count ≤ countof) (hroom' : v'.count ≤ countof) (hfits : ∀ r ∈ records stamp.tv ms, r.length ≤ 256)
    (old old' : (c : Cell) → c.Ans) :
    procln old (stamp.text ++ tab :: (v.text ++ after.bytes)) =
      procln old' (stamp.text ++ tab :: (v'.text ++ after'.bytes)) := by
  have hrecords := records_perm hperm hapart stamp.tv
  rw [procln_records stamp hv hregular hafter hlen hroom hfits old, hrecords]
  rw [hrecords] at hfits
  have hregular' : ∀ m ∈ ms', Regular m := fun m hm => hregular m (hperm.mem_iff.mpr hm)
  exact (procln_records stamp hv' hregular' hafter' hlen' hroom' hfits old').symm

/-- `{"size":"5","price":"7"}` -/
def turned : Value := .group .brace no_gap (.more size_five no_gap (.one price_seven))

theorem order_any_order_bid :
    (fun old => procln old (Bitfin2b.noon.text ++ tab :: (bid.text ++ line_break.bytes))) =
      fun old => procln old (Bitfin2b.noon.text ++ tab :: (turned.text ++ line_break.bytes)) := by
  obtain ⟨hv, hafter, hlen, hroom, hfits⟩ := bid_line
  have hapart : bid_members.Pairwise Apart :=
    List.pairwise_pair.mpr (Or.inr (by decide +kernel : kind (ascii "price") ≠ kind (ascii "size")))
  exact funext fun old => order_any_order Bitfin2b.noon (List.Perm.swap ..) hapart bid_regular bid turned line_break
    line_break hv rfl hafter hafter hlen (by decide +kernel) hroom (by decide +kernel) hfits old old

end Coins.Quotes.Coin2b
