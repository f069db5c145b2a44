import Coins.Quotes.Tokenize

/-!
# Documents

What a JSON text says, whatever its gaps are, and the trees of tokens that show it. From the types, the sizes and
the places of its tokens a text can be read back.
-/

open Coins.Numeral Coins.Questions Coins.Forest

namespace Coins.Quotes

open jsmntype_t

mutual

inductive Data
  | word (w : List Byte)
  | quoted (w : List Byte)
  | group (b : Bracket) (items : Items)

inductive Items
  | nil
  | item (d : Data) (rest : Items)
  | member (key : List Byte) (d : Data) (rest : Items)

end

def Items.size : Items → Nat
  | nil => 0
  | item _ rest => rest.size + 1
  | member _ _ rest => rest.size + 1

def Items.array : List Data → Items
  | [] => nil
  | d :: ds => item d (array ds)

def Items.object : List (List Byte × Data) → Items
  | [] => nil
  | m :: ms => member m.1 m.2 (object ms)

mutual

def Value.data : Value → Data
  | .word w => .word w.bytes
  | .quoted s => .quoted s.bytes
  | .empty b _ => .group b .nil
  | .group b _ es => .group b es.data

/-- In front of what comes behind it. -/
def Element.onto : Element → Items → Items
  | .item v _, rest => .item v.data rest
  | .member key _ _ v _, rest => .member key.bytes v.data rest

def Elements.data : Elements → Items
  | .one e => e.onto .nil
  | .more e _ rest => e.onto rest.data

end

/-! ## Trees -/

section
variable (on : List Byte)

/-- A string between its quotes. -/
structure Enclosed (w : List Byte) (t : jsmntok_t) : Prop where
  type : t.type = JSMN_STRING
  chars : Chars w
  span : span on t = w
  quote : ∃ rest, on.drop t.start = w ++ chr '"' :: rest

mutual

/-- The tree stands for the document. -/
inductive Depicts : Data → Json → Prop
  | word {w : List Byte} {t : jsmntok_t} (htype : t.type = JSMN_PRIMITIVE) (hsize : t.size = 0)
    (hspan : span on t = w) : Depicts (.word w) (.node t [])
  | quoted {w : List Byte} {t : jsmntok_t} (hsize : t.size = 0) (hclosed : Enclosed on w t) :
    Depicts (.quoted w) (.node t [])
  | group {b : Bracket} {items : Items} {t : jsmntok_t} {kids : List Json} (htype : t.type = b.type)
    (hsize : t.size = items.size) (hkids : DepictsAll items kids) : Depicts (.group b items) (.node t kids)

inductive DepictsAll : Items → List Json → Prop
  | nil : DepictsAll .nil []
  | item {d : Data} {rest : Items} {t : Json} {ts : List Json} (ht : Depicts d t) (hts : DepictsAll rest ts) :
    DepictsAll (.item d rest) (t :: ts)
  | member {key : List Byte} {d : Data} {rest : Items} {k : jsmntok_t} {t : Json} {ts : List Json}
    (hsize : k.size = 1) (hclosed : Enclosed on key k) (ht : Depicts d t) (hts : DepictsAll rest ts) :
    DepictsAll (.member key d rest) (.node k [] :: t :: ts)

end

variable {on}

theorem span_at {pos n : Nat} {w rest : List Byte} {t : jsmntok_t} (hdrop : on.drop pos = w ++ rest)
    (hstart : t.start = pos) (hend : t.end_ = pos + n) (hn : n = w.length) : span on t = w := by
  unfold span
  rw [hstart, hend, hdrop, Nat.add_sub_cancel_left, hn, List.take_left]

theorem quoted_closed {pos : Nat} {q : Quoted} {rest : List Byte} (hdrop : on.drop pos = q.text ++ rest) {t : jsmntok_t}
    (htype : t.type = JSMN_STRING) (hstart : t.start = pos + 1) (hend : t.end_ = pos + 1 + q.bytes.length) :
    Enclosed on q.bytes t := by
  have hnext : on.drop (pos + 1) = q.bytes ++ chr '"' :: rest := by
    refine drop_next (b := chr '"') ?_
    rw [hdrop, Quoted.text]
    simp
  exact ⟨htype, q.chars, span_at hnext hstart hend rfl, rest, by rw [hstart, hnext]⟩

@[simp] theorem Element.onto_size (e : Element) (rest : Items) : (e.onto rest).size = rest.size + 1 := by
  cases e <;> simp [Element.onto, Items.size]

theorem Elements.data_size (es : Elements) : es.data.size = es.size := by
  cases es with
  | one e => rw [Elements.data, e.onto_size, Elements.size, Items.size]
  | more e next rest => rw [Elements.data, e.onto_size, rest.data_size, Elements.size]

mutual

theorem Value.shows : ∀ (v : Value) (pos i par : Nat) (rest : List Byte), on.drop pos = v.text ++ rest →
    Depicts on v.data (v.tree pos i par)
  | .word _, _, _, _, _, hdrop => Depicts.word rfl rfl (span_at hdrop rfl rfl rfl)
  | .quoted _, _, _, _, _, hdrop => Depicts.quoted rfl (quoted_closed hdrop rfl rfl rfl)
  | .empty _ _, _, _, _, _, _ => Depicts.group rfl rfl DepictsAll.nil
  | .group b gap es, pos, i, par, rest, hdrop => by
    simp only [Value.text, List.cons_append, List.append_assoc] at hdrop
    have hes := es.shows (pos + 1 + gap.bytes.length) (i + 1) i _ (drop_at (drop_next hdrop))
    exact Depicts.group rfl es.data_size.symm hes

theorem Element.shows : ∀ (e : Element) (pos i par : Nat) (rest : List Byte) (items : Items) (ts : List Json),
    on.drop pos = e.text ++ rest → DepictsAll on items ts → DepictsAll on (e.onto items) (e.trees pos i par ++ ts)
  | .item v after, pos, i, par, rest, items, ts, hdrop, hts => by
    rw [Element.text, List.append_assoc] at hdrop
    exact DepictsAll.item (v.shows pos i par _ hdrop) hts
  | .member key colon next v after, pos, i, par, rest, items, ts, hdrop, hts => by
    simp only [Element.text, List.cons_append, List.append_assoc] at hdrop
    have hv := v.shows (value_at key colon next pos) (i + 1) i _ (drop_at (drop_next (drop_at (drop_at hdrop))))
    exact DepictsAll.member rfl (quoted_closed hdrop rfl rfl rfl) hv hts

theorem Elements.shows : ∀ (es : Elements) (pos i par : Nat) (rest : List Byte), on.drop pos = es.text ++ rest →
    DepictsAll on es.data (es.trees pos i par)
  | .one e, pos, i, par, rest, hdrop => by
    have he := e.shows pos i par rest .nil [] hdrop DepictsAll.nil
    rw [List.append_nil] at he
    exact he
  | .more e next es, pos, i, par, rest, hdrop => by
    simp only [Elements.text, List.cons_append, List.append_assoc] at hdrop
    have hes := es.shows (pos + e.text.length + 1 + next.bytes.length) (i + e.count) par rest
      (drop_at (drop_next (drop_at hdrop)))
    exact e.shows pos i par _ es.data _ hdrop hes

end

end

/-! ## Scalars -/

/-- A member that is a string, without gaps. -/
def string_member (k w : List Byte) (hk : ∀ b ∈ k, b ≠ 0 ∧ b ≠ chr '"' ∧ b ≠ chr '\\')
    (hw : ∀ b ∈ w, b ≠ 0 ∧ b ≠ chr '"' ∧ b ≠ chr '\\') : Element :=
  .member ⟨k, chars_plain k hk⟩ no_gap no_gap (.quoted ⟨w, chars_plain w hw⟩) no_gap

/-- A number or a string. -/
structure Scalar where
  quoted : Bool
  text : List Byte

def Scalar.data (s : Scalar) : Data := if s.quoted then .quoted s.text else .word s.text

section
variable {on : List Byte}

theorem shows_scalar {s : Scalar} {t : Json} (h : Depicts on s.data t) : ∃ k, t = .node k [] ∧ span on k = s.text := by
  unfold Scalar.data at h
  split at h
  · cases h with
    | quoted _ hclosed => exact ⟨_, rfl, hclosed.span⟩
  · cases h with
    | word _ _ hspan => exact ⟨_, rfl, hspan⟩

end

/-! ## Reading back -/

section
variable (on : List Byte)

mutual

/-- A document off the front of the tokens, and those behind it. -/
def read : Nat → List jsmntok_t → Option (Data × List jsmntok_t)
  | 0, _ => none
  | _ + 1, [] => none
  | n + 1, t :: ts =>
    match t.type with
    | JSMN_UNDEFINED => none
    | JSMN_PRIMITIVE => some (.word (span on t), ts)
    | JSMN_STRING => some (.quoted (span on t), ts)
    | JSMN_ARRAY => (readAll n t.size ts).map fun r => (.group .square r.1, r.2)
    | JSMN_OBJECT => (readAll n t.size ts).map fun r => (.group .brace r.1, r.2)

/-- So many items and members. -/
def readAll : Nat → Nat → List jsmntok_t → Option (Items × List jsmntok_t)
  | 0, _, _ => none
  | _ + 1, 0, ts => some (.nil, ts)
  | _ + 1, _ + 1, [] => none
  | n + 1, k + 1, t :: ts =>
    if t.type = JSMN_STRING ∧ t.size = 1 then
      (read n ts).bind fun d => (readAll n k d.2).map fun r => (.member (span on t) d.1 r.1, r.2)
    else (read n (t :: ts)).bind fun d => (readAll n k d.2).map fun r => (.item d.1 r.1, r.2)

end

/-- The document that the tokens of a text stand for. -/
def decode (ts : List jsmntok_t) : Option Data :=
  (read on (2 * ts.length) ts).bind fun r => if r.2 = [] then some r.1 else none

variable {on}

theorem Depicts.no_key {d : Data} {t : Json} (h : Depicts on d t) :
    ¬ (t.root.type = JSMN_STRING ∧ t.root.size = 1) := by
  rintro ⟨htype, hsize⟩
  cases h with
  | word h0 _ _ =>
    rw [root_node, h0] at htype
    cases htype
  | quoted h0 _ =>
    rw [root_node, h0] at hsize
    cases hsize
  | @group b _ _ _ h0 _ _ =>
    rw [root_node, h0] at htype
    cases b <;> cases htype

theorem pre_pos (t : Json) : 0 < t.pre.length := by
  rw [pre_eq]
  exact Nat.succ_pos _

mutual

theorem Data.reads : ∀ (d : Data) (t : Json) (n : Nat) (rest : List jsmntok_t), Depicts on d t → 2 * t.pre.length ≤ n →
    read on n (t.pre ++ rest) = some (d, rest)
  | .word w, t, n, rest, hs, hn => by
    cases hs with
    | @word _ t htype _ hspan =>
      obtain ⟨n, rfl⟩ := Nat.exists_eq_succ_of_ne_zero (Nat.ne_of_gt (Nat.lt_of_lt_of_le (by simp) hn))
      rw [pre_node, pres_nil, List.singleton_append, read, htype]
      dsimp only
      rw [hspan]
  | .quoted w, t, n, rest, hs, hn => by
    cases hs with
    | @quoted _ t _ hclosed =>
      obtain ⟨n, rfl⟩ := Nat.exists_eq_succ_of_ne_zero (Nat.ne_of_gt (Nat.lt_of_lt_of_le (by simp) hn))
      rw [pre_node, pres_nil, List.singleton_append, read, hclosed.type]
      dsimp only
      rw [hclosed.span]
  | .group b items, t, n, rest, hs, hn => by
    cases hs with
    | @group _ _ t kids htype hsize hkids =>
      rw [pre_node, List.length_cons] at hn
      obtain ⟨n, rfl⟩ : ∃ m, n = m + 1 := ⟨n - 1, by omega⟩
      have hall := items.reads kids n rest hkids (by omega)
      rw [pre_node, List.cons_append, read, htype]
      cases b with
      | square =>
        dsimp only [Bracket.type]
        rw [hsize, hall]
        rfl
      | brace =>
        dsimp only [Bracket.type]
        rw [hsize, hall]
        rfl

theorem Items.reads : ∀ (items : Items) (ts : List Json) (n : Nat) (rest : List jsmntok_t), DepictsAll on items ts →
    2 * (pres ts).length + 1 ≤ n → readAll on n items.size (pres ts ++ rest) = some (items, rest)
  | .nil, ts, n, rest, hs, hn => by
    cases hs
    obtain ⟨n, rfl⟩ : ∃ m, n = m + 1 := ⟨n - 1, by omega⟩
    rw [pres_nil, List.nil_append, Items.size, readAll]
  | .item d items, ts, n, rest, hs, hn => by
    cases hs with
    | @item _ _ t ts ht hts =>
      have hpos := pre_pos t
      rw [pres_cons, List.length_append] at hn
      obtain ⟨n, rfl⟩ : ∃ m, n = m + 1 := ⟨n - 1, by omega⟩
      have hd := d.reads t n (pres ts ++ rest) ht (by omega)
      have hall := items.reads ts n rest hts (by omega)
      have hkey := ht.no_key
      rw [pre_eq, List.cons_append] at hd
      rw [pres_cons, pre_eq, List.append_assoc, List.cons_append, Items.size, readAll, if_neg hkey, hd,
        Option.bind_some,
        hall]
      rfl
  | .member key d items, ts, n, rest, hs, hn => by
    cases hs with
    | @member _ _ _ k t ts hsize hclosed ht hts =>
      have hpos := pre_pos t
      rw [pres_cons, pres_cons, pre_node, pres_nil, List.length_append, List.length_append, List.length_singleton] at hn
      obtain ⟨n, rfl⟩ : ∃ m, n = m + 1 := ⟨n - 1, by omega⟩
      have hd := d.reads t n (pres ts ++ rest) ht (by omega)
      have hall := items.reads ts n rest hts (by omega)
      rw [pres_cons, pres_cons, pre_node, pres_nil, List.singleton_append, List.cons_append, List.append_assoc,
        Items.size,
        readAll, if_pos ⟨hclosed.type, hsize⟩, hd, Option.bind_some, hall, hclosed.span]
      rfl

end

/-- **JSON is read back** from its tokens: whatever the gaps are, a text with room for its tokens stands for what it
says, and one without is refused. -/
theorem json_read_back (num : Nat) (v : Value) (after : Gap) (hlen : (v.text ++ after.bytes).length < npos) :
    let js := v.text ++ after.bytes
    if v.count ≤ num then (jsmn_parse num js).1 = v.count ∧ decode js (jsmn_parse num js).2 = some v.data
    else jsmn_parse num js = (-1, []) := by
  intro js
  rw [jsmn_parse_value num v after hlen]
  split
  · refine ⟨rfl, ?_⟩
    have hshows : Depicts js v.data (v.tree 0 0 npos) := v.shows 0 0 npos after.bytes rfl
    have hread := v.data.reads (v.tree 0 0 npos) (2 * (v.tree 0 0 npos).pre.length) [] hshows (Nat.le_refl _)
    rw [List.append_nil] at hread
    unfold decode
    rw [hread]
    rfl
  · rfl

theorem one_fine : ascii "1" ≠ [] ∧ (∀ b ∈ (ascii "1").head?, b ∉ ascii "\x7b[\"") ∧
    ∀ b ∈ ascii "1", 32 ≤ b ∧ b < 127 ∧ b ∉ delimiters := by decide +kernel

/-- `[1]` -/
def one_item : Value :=
  .group .square no_gap (.one (.item (.word ⟨ascii "1", one_fine.1, one_fine.2.1, one_fine.2.2⟩) no_gap))

theorem json_read_back_item :
    (jsmn_parse 2 (ascii "[1]")).1 = 2 ∧
      decode (ascii "[1]") (jsmn_parse 2 (ascii "[1]")).2 = some (.group .square (.item (.word (ascii "1")) .nil)) :=
  json_read_back 2 one_item no_gap (by decide)

end

/-! ## Lines -/

theorem Value.begins {v : Value} {b : Bracket} {items : Items} (hv : v.data = .group b items) (rest : List Byte) :
    deref (v.text ++ rest) = b.opening := by
  cases v with
  | word w => cases hv
  | quoted s => cases hv
  | empty b' gap =>
    cases hv
    rfl
  | group b' gap es =>
    cases hv
    rfl

theorem json_part_value (countof : Nat) (stamp : Stamp) (v : Value) (after : Gap) {b : Bracket} {items : Items}
    (hv : v.data = .group b items) (hlen : (v.text ++ after.bytes).length < npos) :
    json_part countof b.opening (stamp.text ++ tab :: (v.text ++ after.bytes)) =
      if v.count ≤ countof then some (stamp.tv, v.text ++ after.bytes, (v.tree 0 0 npos).pre) else none := by
  have hpos : 0 < v.count := by
    rw [← v.count_eq 0 0 npos]
    exact pre_pos _
  unfold json_part
  simp only [stamp.reads, deref_cons, List.tail_cons, Value.begins hv, jsmn_parse_value countof v after hlen]
  rw [if_neg stamp.valid, if_neg (fun h => h rfl), if_neg (fun h => h rfl)]
  split
  · rw [if_neg (by dsimp only; omega), if_neg (by dsimp only; omega)]
  · rfl

theorem Value.within (v : Value) (rest : List Byte) (hlen : (v.text ++ rest).length < 2 ^ 63) :
    ∀ t ∈ (v.tree 0 0 npos).pre, Within (v.text ++ rest) t := by
  intro t ht
  obtain ⟨-, hord, hend⟩ := nested_mem _ (v.nested 0 0 npos) t ht
  have hroot := v.root_end 0 0 npos
  refine ⟨hord, ?_, hlen⟩
  rw [List.length_append]
  omega

/-- A converter that processes the tokens of the JSON part, if there is one. -/
def converted (countof : Nat) (c : Byte) (process : tv_t → Nat → Prog Output) (old : (c : Cell) → c.Ans)
    (line : List Byte) :
    Output :=
  match json_part countof c line with
  | none => ⟨-1, []⟩
  | some (rt, on, ts) => (process rt ts.length).eval (memory on ts old)

/-- The cells that it looks at or writes to. -/
def touched (countof : Nat) (c : Byte) (process : tv_t → Nat → Prog Output) (old : (c : Cell) → c.Ans)
    (line : List Byte) :
    List Cell :=
  match json_part countof c line with
  | none => []
  | some (rt, on, ts) => (process rt ts.length).asked (memory on ts old)

/-- **Converters**: what they print is decided by the line and its tokens if and only if they can be run on them, and
without room for the tokens the line is refused. -/
theorem converted_value (countof : Nat) (stamp : Stamp) (v : Value) (after : Gap) {b : Bracket} {items : Items}
    (hv : v.data = .group b items) (hlen : (v.text ++ after.bytes).length < npos) (process : tv_t → Nat → Prog Output)
    {out : Output} {fits : Prop} [Decidable fits]
    (hrun : Query.run (known (v.text ++ after.bytes) (v.tree 0 0 npos).pre)
      (process stamp.tv (v.tree 0 0 npos).pre.length) =
      if fits then some out else none) :
    let on := v.text ++ after.bytes
    let line := stamp.text ++ tab :: on
    if v.count ≤ countof then
      (∀ old, converted countof b.opening process old line = out ∧
        ∀ c ∈ touched countof b.opening process old line, (known on (v.tree 0 0 npos).pre c).isSome = true) ↔ fits
    else ∀ old, converted countof b.opening process old line =
      ⟨-1, []⟩ ∧ touched countof b.opening process old line = [] := by
  intro on line
  have hpart : json_part countof b.opening line = _ := json_part_value countof stamp v after hv hlen
  unfold converted touched
  rw [hpart]
  by_cases hroom : v.count ≤ countof
  · rw [if_pos hroom, if_pos hroom]
    refine Iff.trans (decided_iff (process stamp.tv (v.tree 0 0 npos).pre.length) out) ?_
    rw [hrun]
    split
    · rename_i hfits
      exact iff_of_true rfl hfits
    · rename_i hfar
      exact iff_of_false (fun h => by cases h) hfar
  · rw [if_neg hroom, if_neg hroom]
    exact fun old => ⟨rfl, rfl⟩

/-! ## Copies -/

section
variable {on : List Byte} {ts : List jsmntok_t}

theorem run_way {α : Type} {p : Prog (List Byte)} {buf out : List Byte} {f : List Byte → Prog α} {x : Option α}
    (hp : Query.run (known on ts) p = if buf.length ≤ 256 then some buf else none) (hle : buf.length ≤ out.length)
    (hf : Query.run (known on ts) (f buf) = if out.length ≤ 256 then x else none) :
    Query.run (known on ts) (p >>= f) = if out.length ≤ 256 then x else none := by
  rw [Query.run_bind, hp]
  split
  · exact hf
  · rename_i hfar
    rw [if_neg (fun h => hfar (Nat.le_trans hle h))]
    rfl

theorem run_copy {α : Type} {buf w out : List Byte} {f : List Byte → Prog α} {x : Option α}
    (hle : (buf ++ w).length ≤ out.length)
    (hf : Query.run (known on ts) (f (buf ++ w)) = if out.length ≤ 256 then x else none) :
    Query.run (known on ts) (memncpy buf w >>= f) = if out.length ≤ 256 then x else none :=
  run_way (run_memncpy buf w) hle hf

end

end Coins.Quotes
