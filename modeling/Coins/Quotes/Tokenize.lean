import Mathlib.Logic.Relation
import Coins.Quotes.Grammar

/-!
# What `jsmn` makes of JSON

The tokenizer on a JSON text: its turns go over the text once, and leave the tokens of the tree.
-/

open Coins.Forest Coins.Numeral Relation

namespace Coins.Quotes

open jsmntype_t

section
variable (num : Nat) (js : List Byte)

/-- One turn of the loop, which gets on. -/
def Onward (p q : jsmn_parser_t) : Prop :=
  ∃ c, js[p.pos]? = some c ∧ c ≠ 0 ∧ jsmn_step num js c p = .ok q ∧ p.pos < q.pos

def Goes : jsmn_parser_t → jsmn_parser_t → Prop := ReflTransGen (Onward num js)

variable {num js}

theorem Goes.turn {p q : jsmn_parser_t} (c : Byte) (hc : js[p.pos]? = some c) (hc0 : c ≠ 0)
    (hs : jsmn_step num js c p = .ok q) (hlt : p.pos < q.pos) : Goes num js p q :=
  ReflTransGen.single ⟨c, hc, hc0, hs, hlt⟩

theorem Goes.trans {p q r : jsmn_parser_t} (hpq : Goes num js p q) (hqr : Goes num js q r) : Goes num js p r :=
  ReflTransGen.trans hpq hqr

theorem Goes.loop {p q : jsmn_parser_t} (h : Goes num js p q) (fuel : Nat) (hfuel : js.length < fuel + p.pos) :
    ∃ left, js.length < left + q.pos ∧ jsmn_loop num js fuel p = jsmn_loop num js left q := by
  induction h using ReflTransGen.head_induction_on generalizing fuel with
  | refl => exact ⟨fuel, hfuel, rfl⟩
  | head ht _ ih =>
    obtain ⟨c, hc, hc0, hs, hlt⟩ := ht
    obtain ⟨hin, -⟩ := List.getElem?_eq_some_iff.mp hc
    obtain ⟨fuel, rfl⟩ : ∃ f, fuel = f + 1 := ⟨fuel - 1, by omega⟩
    obtain ⟨left, hleft, hloop⟩ := ih fuel (by omega)
    refine ⟨left, hleft, ?_⟩
    rw [jsmn_loop, hc]
    dsimp only
    rw [if_neg hc0, hs]
    exact hloop

theorem jsmn_loop_end (num : Nat) (js : List Byte) (fuel : Nat) (p : jsmn_parser_t) (h : js.length ≤ p.pos) :
    jsmn_loop num js fuel p = .ok p := by
  cases fuel with
  | zero => rfl
  | succ fuel => rw [jsmn_loop, List.getElem?_eq_none h]

end

/-! ## Children -/

/-- `k` more children for a token. -/
def sized (s k : Nat) (ts : List jsmntok_t) : List jsmntok_t :=
  ts.modify s fun t => { t with size := t.size + k }

section
variable (s k m : Nat) (ts us : List jsmntok_t)

@[simp] theorem sized_length : (sized s k ts).length = ts.length := List.length_modify ..

theorem sized_sized : sized s k (sized s m ts) = sized s (m + k) ts := by
  unfold sized
  rw [List.modify_modify_eq]
  congr 1
  funext t
  simp [Nat.add_assoc]

theorem sized_none (h : ts.length ≤ s) : sized s k ts = ts := List.modify_eq_self h

theorem sized_append (h : s < ts.length ∨ ts.length + us.length ≤ s) : sized s k (ts ++ us) = sized s k ts ++ us := by
  rcases h with h | h
  · unfold sized
    rw [List.modify_eq_take_drop, List.modify_eq_take_drop, List.take_append_of_le_length (by omega),
      List.drop_append_of_le_length (by omega), List.append_assoc]
    congr 1
    obtain ⟨t, l, hl⟩ := List.exists_cons_of_length_pos (l := ts.drop s) (by rw [List.length_drop]; omega)
    rw [hl]
    rfl
  · rw [sized_none _ _ _ (by rw [List.length_append]; omega), sized_none _ _ _ (by omega)]

theorem sized_last (t : jsmntok_t) : sized ts.length k (ts ++ [t]) = ts ++ [{ t with size := t.size + k }] := by
  unfold sized
  rw [List.modify_eq_take_drop]
  simp

theorem sized_at {i : Nat} {t : jsmntok_t} (h : ts[i]? = some t) :
    ∃ n, (sized s k ts)[i]? = some { t with size := n } := by
  unfold sized
  rw [List.getElem?_modify, h]
  by_cases hs : s = i
  · exact ⟨t.size + k, by simp [hs]⟩
  · exact ⟨t.size, by simp [hs]⟩

end

theorem grown_eq (p : jsmn_parser_t) (h : p.tokens.length ≤ npos) :
    grown p = { p with tokens := sized p.toksuper 1 p.tokens } := by
  unfold grown
  split
  · rename_i hs
    rw [sized_none _ _ _ (by omega)]
  · rfl

/-! ## Words and strings -/

/-- What comes next ends a primitive. -/
def Delimited (rest : List Byte) : Prop := ∀ b ∈ rest.head?, b = 0 ∨ b ∈ delimiters

theorem primitive_len_word (w rest : List Byte) (hplain : ∀ b ∈ w, 32 ≤ b ∧ b < 127 ∧ b ∉ delimiters)
    (hrest : Delimited rest) : primitive_len (w ++ rest) = some w.length := by
  induction w with
  | nil =>
    cases rest with
    | nil => rfl
    | cons b rest =>
      have hstop : b = 0 ∨ b ∈ ascii ":\t\r\n ,]\x7d" := hrest b rfl
      rw [List.nil_append, primitive_len, if_pos hstop]
      rfl
  | cons b w ih =>
    obtain ⟨hlow, hhigh, hdel⟩ := hplain b (List.mem_cons_self ..)
    have hstop : ¬ (b = 0 ∨ b ∈ ascii ":\t\r\n ,]\x7d") := by
      rintro (rfl | h)
      · revert hlow
        decide
      · exact hdel h
    have hrange : ¬ (b < 32 ∨ 127 ≤ b) := by
      rintro (h | h)
      · exact UInt8.not_lt.mpr hlow h
      · exact UInt8.not_le.mpr hhigh h
    rw [List.cons_append, primitive_len, if_neg hstop, if_neg hrange,
      ih fun b hb => hplain b (List.mem_cons_of_mem _ hb)]
    rfl

theorem hex_ne_zero {b : Byte} (h : isHex b = true) : b ≠ 0 := by
  rintro rfl
  revert h
  decide

theorem string_len_hex (n : Nat) (b : Byte) (l : List Byte) (h : isHex b = true) :
    string_len (n + 1) (b :: l) = (string_len n l).map (· + 1) := by
  rw [string_len, if_neg (hex_ne_zero h), if_pos h]

theorem string_len_chars (w rest : List Byte) (hw : Chars w) :
    string_len 0 (w ++ chr '"' :: rest) = some w.length := by
  induction hw with
  | nil =>
    rw [List.nil_append, string_len.eq_def]
    dsimp only
    rw [if_neg (by decide), if_pos rfl]
    rfl
  | plain h0 hquote hback _ ih =>
    rw [List.cons_append, string_len.eq_def]
    dsimp only
    rw [if_neg h0, if_neg hquote, if_neg hback, ih]
    rfl
  | @escape e w he _ ih =>
    have hu : e ≠ chr 'u' := by
      rintro rfl
      revert he
      decide
    rw [List.cons_append, List.cons_append, string_len.eq_def]
    dsimp only
    rw [if_neg (by decide), if_neg (by decide), if_pos rfl, if_neg hu, if_pos he, ih]
    rfl
  | hex ha hb hc hd _ ih =>
    simp only [List.cons_append]
    rw [string_len.eq_def]
    dsimp only
    rw [if_neg (by decide), if_neg (by decide), if_pos rfl, if_pos rfl, string_len_hex _ _ _ ha,
      string_len_hex _ _ _ hb, string_len_hex _ _ _ hc, string_len_hex _ _ _ hd, ih]
    rfl

/-! ## Turns -/

section
variable {num : Nat} {js : List Byte} {pos s : Nat} {ts : List jsmntok_t}

/-- A token that counts can be made. -/
structure Room (num : Nat) (s : Nat) (ts : List jsmntok_t) : Prop where
  free : ts.length < num
  short : num < npos
  super : s < ts.length ∨ s = npos

theorem head_at {b : Byte} {l : List Byte} (h : js.drop pos = b :: l) : js[pos]? = some b := by
  rw [← List.head?_drop, h]
  rfl

theorem drop_at {w rest : List Byte} (h : js.drop pos = w ++ rest) : js.drop (pos + w.length) = rest := by
  rw [← List.drop_drop, h, List.drop_left]

theorem drop_next {b : Byte} {rest : List Byte} (h : js.drop pos = b :: rest) : js.drop (pos + 1) = rest :=
  drop_at (w := [b]) h

theorem grown_snoc (hroom : Room num s ts) (t : jsmntok_t) :
    grown ⟨pos, s, ts ++ [t]⟩ = ⟨pos, s, sized s 1 ts ++ [t]⟩ := by
  have hfree := hroom.free
  have hshort := hroom.short
  have hlen : (ts ++ [t]).length ≤ npos := by
    rw [List.length_append, List.length_singleton]
    omega
  rw [grown_eq _ hlen]
  dsimp only
  rw [sized_append]
  rcases hroom.super with h | h
  · exact Or.inl h
  · rw [List.length_append] at hlen
    omega

theorem scalar_ok (hroom : Room num s ts) (type : jsmntype_t) (start n next : Nat) :
    scalar num type start n next ⟨pos, s, ts⟩ =
      .ok ⟨next, s, sized s 1 ts ++ [⟨type, start, start + n, 0, s⟩]⟩ := by
  unfold scalar jsmn_alloc_token
  rw [if_neg (Nat.not_le.mpr hroom.free)]
  dsimp only
  rw [grown_snoc hroom]

theorem opened_ok (hroom : Room num s ts) (type : jsmntype_t) :
    opened num type ⟨pos, s, ts⟩ = .ok ⟨pos + 1, ts.length, sized s 1 ts ++ [⟨type, pos, npos, 0, s⟩]⟩ := by
  unfold opened jsmn_alloc_token
  rw [if_neg (Nat.not_le.mpr hroom.free)]
  dsimp only
  rw [grown_snoc hroom]

theorem jsmn_step_primitive {b : Byte} (p : jsmn_parser_t) (hfirst : b ∉ ascii "\x7b[\"") (hdel : b ∉ delimiters) :
    jsmn_step num js b p = jsmn_parse_primitive num js p := by
  simp only [ascii, delimiters] at hfirst hdel
  simp at hfirst hdel
  unfold jsmn_step
  simp [ascii, chr, hfirst, hdel]

theorem jsmn_step_blank {b : Byte} (p : jsmn_parser_t) (hb : b ∈ blanks) :
    jsmn_step num js b p = .ok { p with pos := p.pos + 1 } := by
  have hall : ∀ b ∈ blanks, b ≠ chr '\x7b' ∧ b ≠ chr '[' ∧ b ≠ chr '\x7d' ∧ b ≠ chr ']' ∧
    b ≠ chr '"' := by decide +kernel
  obtain ⟨h1, h2, h3, h4, h5⟩ := hall b hb
  have hblank : b ∈ ascii "\t\r\n " := hb
  unfold jsmn_step
  rw [if_neg h1, if_neg h2, if_neg h3, if_neg h4, if_neg h5, if_pos hblank]

theorem goes_quoted (hroom : Room num s ts) (q : Quoted) (rest : List Byte) (hdrop : js.drop pos = q.text ++ rest) :
    Goes num js ⟨pos, s, ts⟩
      ⟨pos + q.text.length, s, sized s 1 ts ++ [⟨JSMN_STRING, pos + 1, pos + 1 + q.bytes.length, 0, s⟩]⟩ := by
  have hdrop' : js.drop pos = chr '"' :: (q.bytes ++ chr '"' :: rest) := by
    rw [hdrop, Quoted.text]
    simp
  refine Goes.turn (chr '"') (head_at hdrop') (by decide) ?_ (by dsimp only; rw [Quoted.text_length]; omega)
  unfold jsmn_step jsmn_parse_string
  rw [if_neg (by decide), if_neg (by decide), if_neg (by decide), if_neg (by decide), if_pos rfl]
  dsimp only
  rw [drop_next hdrop', string_len_chars _ _ q.chars]
  dsimp only
  rw [scalar_ok hroom, Quoted.text_length]
  congr 2
  omega

theorem goes_word (hroom : Room num s ts) (w : Word) (rest : List Byte) (hdrop : js.drop pos = w.bytes ++ rest)
    (hrest : Delimited rest) :
    Goes num js ⟨pos, s, ts⟩
      ⟨pos + w.bytes.length, s, sized s 1 ts ++ [⟨JSMN_PRIMITIVE, pos, pos + w.bytes.length, 0, s⟩]⟩ := by
  obtain ⟨b, l, hw⟩ := List.exists_cons_of_ne_nil w.ne
  obtain ⟨hlow, -, hdel⟩ := w.plain b (by rw [hw]; exact List.mem_cons_self ..)
  have hfirst := w.first b (by rw [hw]; rfl)
  have hhead : js[pos]? = some b := by
    rw [hw] at hdrop
    exact head_at hdrop
  have hb0 : b ≠ 0 := by
    rintro rfl
    revert hlow
    decide
  have hpos : 0 < w.bytes.length := List.length_pos_of_ne_nil w.ne
  refine Goes.turn b hhead hb0 ?_ (by dsimp only; omega)
  rw [jsmn_step_primitive _ hfirst hdel]
  unfold jsmn_parse_primitive
  rw [hdrop, primitive_len_word _ _ w.plain hrest]
  exact scalar_ok hroom ..

theorem goes_gap (num s : Nat) (ts : List jsmntok_t) (gap : Gap) (rest : List Byte)
    (hdrop : js.drop pos = gap.bytes ++ rest) :
    Goes num js ⟨pos, s, ts⟩ ⟨pos + gap.bytes.length, s, ts⟩ := by
  obtain ⟨l, hl⟩ := gap
  dsimp only at hdrop ⊢
  induction l generalizing pos with
  | nil => exact ReflTransGen.refl
  | cons b l ih =>
    have hb := hl b (List.mem_cons_self ..)
    have hb0 : b ≠ 0 := by
      rintro rfl
      revert hb
      decide
    have hturn : Goes num js ⟨pos, s, ts⟩ ⟨pos + 1, s, ts⟩ :=
      Goes.turn b (head_at hdrop) hb0 (jsmn_step_blank _ hb) (Nat.lt_succ_self _)
    have hrest := ih (fun b hb => hl b (List.mem_cons_of_mem _ hb)) (drop_next hdrop)
    rw [List.length_cons, Nat.add_comm l.length, ← Nat.add_assoc]
    exact hturn.trans hrest

theorem goes_opening (hroom : Room num s ts) (b : Bracket) (rest : List Byte)
    (hdrop : js.drop pos = b.opening :: rest) :
    Goes num js ⟨pos, s, ts⟩ ⟨pos + 1, ts.length, sized s 1 ts ++ [⟨b.type, pos, npos, 0, s⟩]⟩ := by
  refine Goes.turn b.opening (head_at hdrop) (by cases b <;> decide) ?_ (Nat.lt_succ_self _)
  rw [← opened_ok hroom]
  cases b <;> rfl

theorem goes_colon (num s : Nat) (hts : ts ≠ []) (rest : List Byte) (hdrop : js.drop pos = chr ':' :: rest) :
    Goes num js ⟨pos, s, ts⟩ ⟨pos + 1, ts.length - 1, ts⟩ := by
  refine Goes.turn (chr ':') (head_at hdrop) (by decide) ?_ (Nat.lt_succ_self _)
  unfold jsmn_step
  rw [if_neg (by decide), if_neg (by decide), if_neg (by decide), if_neg (by decide), if_neg (by decide),
    if_neg (by decide), if_pos rfl]
  dsimp only
  rw [if_neg hts]

theorem closed_open {o : Nat} {t : jsmntok_t} (ht : ts[o]? = some t) (hstart : t.start ≠ npos) (hend : t.end_ = npos)
    (hts : ts.length ≤ npos)
    (hup : ∀ j u, o < j → ts[j]? = some u → o ≤ u.parent ∧ u.parent < j ∧ u.end_ ≠ npos) (n i : Nat) (hoi : o ≤ i)
    (hi : i < ts.length) (hn : i < o + n) :
    closed t.type ⟨pos, s, ts⟩ n i = .ok ⟨pos + 1, t.parent, ts.set o { t with end_ := pos + 1 }⟩ := by
  induction n generalizing i with
  | zero => omega
  | succ n ih =>
    unfold closed
    dsimp only
    rcases Nat.eq_or_lt_of_le hoi with rfl | hlt
    · rw [ht]
      dsimp only
      rw [if_pos ⟨hstart, hend⟩, if_neg (fun h => h rfl)]
    · have hget := List.getElem?_eq_getElem hi
      obtain ⟨hle, hpar, hne⟩ := hup i _ hlt hget
      rw [hget]
      dsimp only
      rw [if_neg (fun h => hne h.2), if_neg (by omega)]
      exact ih _ hle (by omega) (by omega)

theorem goes_closing (num s : Nat) {o : Nat} (b : Bracket) {t : jsmntok_t} (rest : List Byte)
    (hdrop : js.drop pos = b.closing :: rest)
    (ht : ts[o]? = some t) (htype : t.type = b.type) (hstart : t.start ≠ npos) (hend : t.end_ = npos)
    (hts : ts.length ≤ npos)
    (hup : ∀ j u, o < j → ts[j]? = some u → o ≤ u.parent ∧ u.parent < j ∧ u.end_ ≠ npos) :
    Goes num js ⟨pos, s, ts⟩ ⟨pos + 1, t.parent, ts.set o { t with end_ := pos + 1 }⟩ := by
  obtain ⟨ho, -⟩ := List.getElem?_eq_some_iff.mp ht
  refine Goes.turn b.closing (head_at hdrop) (by cases b <;> decide) ?_ (Nat.lt_succ_self _)
  rw [← closed_open ht hstart hend hts hup ts.length (ts.length - 1) (by omega) (by omega) (by omega), htype]
  cases b <;> rfl

/-- The super token is the group `o`, or a key in it. -/
def Under (o s : Nat) (ts : List jsmntok_t) : Prop :=
  s = o ∨ ∃ t, ts[s]? = some t ∧ t.type = JSMN_STRING ∧ t.parent = o

theorem goes_comma (num : Nat) {o : Nat} {t : jsmntok_t} (rest : List Byte) (hdrop : js.drop pos = chr ',' :: rest)
    (ht : ts[o]? = some t) (htype : t.type = JSMN_ARRAY ∨ t.type = JSMN_OBJECT) (hts : ts.length ≤ npos)
    (hunder : Under o s ts) : Goes num js ⟨pos, s, ts⟩ ⟨pos + 1, o, ts⟩ := by
  refine Goes.turn (chr ',') (head_at hdrop) (by decide) ?_ (Nat.lt_succ_self _)
  have hcomma : comma ⟨pos, s, ts⟩ = ⟨pos, o, ts⟩ := by
    unfold comma
    dsimp only
    rcases hunder with rfl | ⟨u, hu, hstr, hpar⟩
    · obtain ⟨ho, -⟩ := List.getElem?_eq_some_iff.mp ht
      rw [if_neg (by omega), ht]
      dsimp only
      rw [if_neg]
      rintro ⟨harr, hobj⟩
      rcases htype with h | h
      · exact harr h
      · exact hobj h
    · obtain ⟨hs, -⟩ := List.getElem?_eq_some_iff.mp hu
      rw [if_neg (by omega), hu]
      dsimp only
      rw [if_pos (by rw [hstr]; decide), hpar]
  unfold jsmn_step
  rw [if_neg (by decide), if_neg (by decide), if_neg (by decide), if_neg (by decide), if_neg (by decide),
    if_neg (by decide), if_neg (by decide), if_pos rfl, hcomma]

end

/-! ## Parents -/

/-- The tokens from place `i` on belong to one another, or to token `par`. -/
def Hangs (par i : Nat) (l : List jsmntok_t) : Prop :=
  ∀ j t, l[j]? = some t → par ≤ t.parent ∧ t.parent < i + j

theorem Hangs.mono {par par' i : Nat} {l : List jsmntok_t} (h : Hangs par' i l) (hle : par ≤ par') : Hangs par i l := by
  intro j t ht
  exact ⟨Nat.le_trans hle (h j t ht).1, (h j t ht).2⟩

theorem Hangs.cons {par i : Nat} {t : jsmntok_t} {l : List jsmntok_t} (hpar : par ≤ t.parent) (hlt : t.parent < i)
    (h : Hangs par (i + 1) l) : Hangs par i (t :: l) := by
  intro j u hu
  cases j with
  | zero =>
    cases hu
    exact ⟨hpar, hlt⟩
  | succ j =>
    have := h j u hu
    omega

theorem Hangs.append {par i : Nat} {l m : List jsmntok_t} (hl : Hangs par i l) (hm : Hangs par (i + l.length) m) :
    Hangs par i (l ++ m) := by
  intro j u hu
  rcases Nat.lt_or_ge j l.length with hj | hj
  · rw [List.getElem?_append_left hj] at hu
    exact hl j u hu
  · rw [List.getElem?_append_right hj] at hu
    have := hm _ u hu
    omega

theorem Hangs.nil (par i : Nat) : Hangs par i [] := by
  intro j t ht
  cases ht

mutual

theorem Value.hangs : ∀ (v : Value) (pos i par : Nat), par < i → Hangs par i (v.tree pos i par).pre
  | .word _, _, _, _, h => by
    rw [Value.tree, pre_node, pres_nil]
    exact Hangs.cons (Nat.le_refl _) h (Hangs.nil _ _)
  | .quoted _, _, _, _, h => by
    rw [Value.tree, pre_node, pres_nil]
    exact Hangs.cons (Nat.le_refl _) h (Hangs.nil _ _)
  | .empty _ _, _, _, _, h => by
    rw [Value.tree, pre_node, pres_nil]
    exact Hangs.cons (Nat.le_refl _) h (Hangs.nil _ _)
  | .group _ _ es, _, i, _, h => by
    rw [Value.tree, pre_node]
    exact Hangs.cons (Nat.le_refl _) h ((es.hangs _ _ i (Nat.lt_succ_self i)).mono (Nat.le_of_lt h))

theorem Element.hangs : ∀ (e : Element) (pos i par : Nat), par < i → Hangs par i (pres (e.trees pos i par))
  | .item v _, pos, i, par, h => by
    rw [Element.trees, pres_cons, pres_nil, List.append_nil]
    exact v.hangs pos i par h
  | .member _ _ _ v _, _, i, par, h => by
    rw [Element.trees, pres_cons, pres_cons, pres_nil, List.append_nil, pre_node, pres_nil, List.singleton_append]
    exact Hangs.cons (Nat.le_refl _) h ((v.hangs _ _ i (Nat.lt_succ_self i)).mono (Nat.le_of_lt h))

theorem Elements.hangs : ∀ (es : Elements) (pos i par : Nat), par < i → Hangs par i (pres (es.trees pos i par))
  | .one e, pos, i, par, h => e.hangs pos i par h
  | .more e _ rest, pos, i, par, h => by
    rw [Elements.trees, pres_append]
    refine (e.hangs pos i par h).append ?_
    rw [e.count_eq]
    exact rest.hangs _ _ par (Nat.lt_add_right _ h)

end

/-! ## Values -/

section
variable {num : Nat} {js : List Byte}

theorem ends_gap (gap : Gap) {rest : List Byte} (hrest : Delimited rest) : Delimited (gap.bytes ++ rest) := by
  obtain ⟨l, hl⟩ := gap
  cases l with
  | nil => exact hrest
  | cons b l =>
    have hsub : ∀ b ∈ blanks, b ∈ delimiters := by decide +kernel
    intro c hc
    cases hc
    exact Or.inr (hsub b (hl b (List.mem_cons_self ..)))

theorem ends_closing (b : Bracket) (rest : List Byte) : Delimited (b.closing :: rest) := by
  intro c hc
  cases hc
  exact Or.inr (by cases b <;> decide)

theorem ends_comma (rest : List Byte) : Delimited (chr ',' :: rest) := by
  intro c hc
  cases hc
  exact Or.inr (by decide)

/-- There are places for `k` more tokens. -/
structure Places (num : Nat) (js : List Byte) (k s : Nat) (ts : List jsmntok_t) : Prop where
  enough : ts.length + k ≤ num
  short : num < npos
  length : js.length < npos
  super : s < ts.length ∨ s = npos

variable {k s : Nat} {ts : List jsmntok_t}

theorem Places.room (h : Places num js (k + 1) s ts) : Room num s ts :=
  ⟨by have := h.enough; omega, h.short, h.super⟩

theorem goes_group (num s s' n : Nat) {pos next : Nat} (us : List jsmntok_t) (b : Bracket) (kids : List Json)
    (rest : List Byte)
    (hpos : pos ≠ npos) (hlen : us.length + 1 + (pres kids).length ≤ npos)
    (hhangs : Hangs us.length (us.length + 1) (pres kids)) (hends : ∀ t ∈ pres kids, t.end_ ≠ npos)
    (hdrop : js.drop next = b.closing :: rest) :
    Goes num js ⟨next, s', us ++ ⟨b.type, pos, npos, n, s⟩ :: pres kids⟩
      ⟨next + 1, s, us ++ (Branch.node ⟨b.type, pos, next + 1, n, s⟩ kids).pre⟩ := by
  have hget : (us ++ ⟨b.type, pos, npos, n, s⟩ :: pres kids)[us.length]? = some ⟨b.type, pos, npos, n, s⟩ := by
    rw [List.getElem?_append_right (Nat.le_refl _), Nat.sub_self]
    rfl
  have hgo := goes_closing num s' b rest hdrop hget rfl hpos rfl
    (by rw [List.length_append, List.length_cons]; omega) (fun j u hj hu => by
      obtain ⟨d, rfl⟩ : ∃ d, j = us.length + (d + 1) := ⟨j - us.length - 1, by omega⟩
      rw [List.getElem?_append_right (by omega), Nat.add_sub_cancel_left, List.getElem?_cons_succ] at hu
      have hpar := hhangs d u hu
      exact ⟨hpar.1, by omega, hends u (List.mem_of_getElem? hu)⟩)
  rw [List.set_append_right _ _ (Nat.le_refl _), Nat.sub_self] at hgo
  rw [pre_node]
  exact hgo

theorem nestedAll_ends {l h : Nat} {kids : List Json}
    (hnested : nestedAll jsmntok_t.start jsmntok_t.end_ l h kids = true) (hh : h ≤ npos) (t : jsmntok_t)
    (ht : t ∈ pres kids) : t.end_ ≠ npos := by
  have := (nestedAll_mem _ _ _ hnested t ht).2.2
  omega

theorem text_fits {pos : Nat} {w rest : List Byte} (hdrop : js.drop pos = w ++ rest) (hw : w ≠ []) :
    pos + w.length ≤ js.length := by
  have hlen := congrArg List.length hdrop
  have := List.length_pos_of_ne_nil hw
  rw [List.length_drop, List.length_append] at hlen
  omega

mutual

/-- **A value**: the tokens of its tree behind those that are there, and one more child for the token it belongs to. -/
theorem Value.goes : ∀ (v : Value) (pos s : Nat) (ts : List jsmntok_t) (rest : List Byte),
    Places num js v.count s ts → js.drop pos = v.text ++ rest → Delimited rest →
    Goes num js ⟨pos, s, ts⟩ ⟨pos + v.text.length, s, sized s 1 ts ++ (v.tree pos ts.length s).pre⟩
  | .word w, pos, s, ts, rest, hplaces, hdrop, hrest => by
    rw [Value.tree, pre_node, pres_nil]
    exact goes_word hplaces.room w rest hdrop hrest
  | .quoted q, pos, s, ts, rest, hplaces, hdrop, hrest => by
    rw [Value.tree, pre_node, pres_nil]
    exact goes_quoted hplaces.room q rest hdrop
  | .empty b gap, pos, s, ts, rest, hplaces, hdrop, hrest => by
    have hfits := text_fits hdrop (by simp [Value.text])
    have hlen := hplaces.length
    have henough := hplaces.enough
    have hshort := hplaces.short
    simp only [Value.text, List.length_cons, List.length_append, List.length_nil] at hfits
    simp only [Value.count] at henough
    simp only [Value.text, List.cons_append, List.append_assoc, List.nil_append] at hdrop
    have hopen := goes_opening hplaces.room b _ hdrop
    have hgap := goes_gap num ts.length (sized s 1 ts ++ [⟨b.type, pos, npos, 0, s⟩]) gap _
      (drop_next hdrop)
    have hclose := goes_group num s ts.length 0 (sized s 1 ts) b [] rest
      (show pos ≠ npos by omega) (by rw [sized_length, pres_nil, List.length_nil]; omega)
      (by rw [pres_nil]; exact Hangs.nil _ _)
      (fun t ht => by rw [pres_nil] at ht; cases ht) (drop_at (drop_next hdrop))
    rw [pres_nil] at hclose
    have hend : pos + (Value.empty b gap).text.length = pos + 1 + gap.bytes.length + 1 := by
      simp only [Value.text, List.length_cons, List.length_append, List.length_nil]
      omega
    have hend' : pos + (gap.bytes.length + 2) = pos + 1 + gap.bytes.length + 1 := by omega
    rw [Value.tree, hend, hend']
    exact (hopen.trans hgap).trans hclose
  | .group b gap es, pos, s, ts, rest, hplaces, hdrop, hrest => by
    have hfits := text_fits hdrop (by simp [Value.text])
    have hlen := hplaces.length
    have henough := hplaces.enough
    have hshort := hplaces.short
    simp only [Value.text, List.length_cons, List.length_append, List.length_nil] at hfits
    simp only [Value.count] at henough
    simp only [Value.text, List.cons_append, List.append_assoc, List.nil_append] at hdrop
    have hopen := goes_opening hplaces.room b _ hdrop
    have hgap := goes_gap num ts.length (sized s 1 ts ++ [⟨b.type, pos, npos, 0, s⟩]) gap _
      (drop_next hdrop)
    obtain ⟨s', hes, -⟩ := es.goes (pos + 1 + gap.bytes.length) ts.length (sized s 1 ts ++ [⟨b.type, pos, npos, 0, s⟩])
      (b.closing :: rest) ⟨b.type, pos, npos, 0, s⟩
      ⟨by rw [List.length_append, sized_length, List.length_singleton]; omega, hshort, hlen,
        Or.inl (by rw [List.length_append, sized_length, List.length_singleton]; omega)⟩
      (by rw [List.getElem?_append_right (by rw [sized_length]), sized_length, Nat.sub_self]; rfl)
      (by cases b <;> simp [Bracket.type]) (drop_at (drop_next hdrop)) (ends_closing b rest)
    have hlast := sized_last es.size (sized s 1 ts) ⟨b.type, pos, npos, 0, s⟩
    rw [sized_length, Nat.zero_add] at hlast
    have hone : (sized s 1 ts ++ [(⟨b.type, pos, npos, 0, s⟩ : jsmntok_t)]).length = ts.length + 1 := by
      rw [List.length_append, sized_length, List.length_singleton]
    rw [hlast, hone, List.append_assoc, List.singleton_append] at hes
    have hkids := es.nested (pos + 1 + gap.bytes.length) (ts.length + 1) ts.length pos
      (pos + 1 + gap.bytes.length + es.text.length + 1) (by omega) (Nat.lt_succ_self _)
    have hclose := goes_group num s s' es.size (sized s 1 ts) b
      (es.trees (pos + 1 + gap.bytes.length) (ts.length + 1) ts.length) rest (show pos ≠ npos by omega)
      (by rw [sized_length, es.count_eq]; omega) (by rw [sized_length]; exact es.hangs _ _ _ (Nat.lt_succ_self _))
      (nestedAll_ends hkids (by omega)) (drop_at (drop_at (drop_next hdrop)))
    have hend : pos + (Value.group b gap es).text.length = pos + 1 + gap.bytes.length + es.text.length + 1 := by
      simp only [Value.text, List.length_cons, List.length_append, List.length_nil]
      omega
    have hend' : pos + (gap.bytes.length + es.text.length + 2) = pos + 1 + gap.bytes.length + es.text.length + 1 := by
      omega
    rw [Value.tree, hend, hend']
    exact ((hopen.trans hgap).trans hes).trans hclose

theorem Element.goes : ∀ (e : Element) (pos o : Nat) (ts : List jsmntok_t) (rest : List Byte) (t : jsmntok_t),
    Places num js e.count o ts → ts[o]? = some t → (t.type = JSMN_ARRAY ∨ t.type = JSMN_OBJECT) →
    js.drop pos = e.text ++ rest → Delimited rest →
    ∃ s', Goes num js ⟨pos, o, ts⟩ ⟨pos + e.text.length, s', sized o 1 ts ++ pres (e.trees pos ts.length o)⟩ ∧
      Under o s' (sized o 1 ts ++ pres (e.trees pos ts.length o))
  | .item v after, pos, o, ts, rest, t, hplaces, ht, htype, hdrop, hrest => by
    rw [Element.text, List.append_assoc] at hdrop
    have hv := v.goes pos o ts _ hplaces hdrop (ends_gap after hrest)
    have hgap := goes_gap num o (sized o 1 ts ++ (v.tree pos ts.length o).pre) after _
      (drop_at hdrop)
    refine ⟨o, ?_, Or.inl rfl⟩
    rw [Element.text, Element.trees, pres_cons, pres_nil, List.append_nil, List.length_append, ← Nat.add_assoc]
    exact hv.trans hgap
  | .member key colon next v after, pos, o, ts, rest, t, hplaces, ht, htype, hdrop, hrest => by
    have henough := hplaces.enough
    simp only [Element.count] at henough
    simp only [Element.text, List.cons_append, List.append_assoc] at hdrop
    have hone : ∀ k : jsmntok_t, (sized o 1 ts ++ [k]).length = ts.length + 1 := by
      intro k
      rw [List.length_append, sized_length, List.length_singleton]
    have hkey := goes_quoted hplaces.room key _ hdrop
    have hgap := goes_gap num o
      (sized o 1 ts ++ [⟨JSMN_STRING, pos + 1, pos + 1 + key.bytes.length, 0, o⟩]) colon _ (drop_at hdrop)
    have hcolon := goes_colon num o
      (show sized o 1 ts ++ [⟨JSMN_STRING, pos + 1, pos + 1 + key.bytes.length, 0, o⟩] ≠ [] by simp) _
      (drop_at (drop_at hdrop))
    rw [hone, Nat.add_sub_cancel] at hcolon
    have hnext := goes_gap num ts.length
      (sized o 1 ts ++ [⟨JSMN_STRING, pos + 1, pos + 1 + key.bytes.length, 0, o⟩]) next _
      (drop_next (drop_at (drop_at hdrop)))
    have hv := v.goes (value_at key colon next pos) ts.length
      (sized o 1 ts ++ [⟨JSMN_STRING, pos + 1, pos + 1 + key.bytes.length, 0, o⟩]) _
      ⟨by rw [hone]; omega, hplaces.short, hplaces.length, Or.inl (by rw [hone]; omega)⟩
      (drop_at (drop_next (drop_at (drop_at hdrop)))) (ends_gap after hrest)
    have hlast := sized_last 1 (sized o 1 ts) ⟨JSMN_STRING, pos + 1, pos + 1 + key.bytes.length, 0, o⟩
    rw [sized_length, Nat.zero_add] at hlast
    rw [hlast, hone] at hv
    have hafter := goes_gap num ts.length
      (sized o 1 ts ++ [⟨JSMN_STRING, pos + 1, pos + 1 + key.bytes.length, 1, o⟩] ++
        (v.tree (value_at key colon next pos) (ts.length + 1) ts.length).pre) after _
      (drop_at (drop_at (drop_next (drop_at (drop_at hdrop)))))
    have hend : pos + (Element.member key colon next v after).text.length =
        value_at key colon next pos + v.text.length + after.bytes.length := by
      simp only [Element.text, List.length_cons, List.length_append, value_at]
      omega
    have htoks : sized o 1 ts ++ pres ((Element.member key colon next v after).trees pos ts.length o) =
        sized o 1 ts ++ [⟨JSMN_STRING, pos + 1, pos + 1 + key.bytes.length, 1, o⟩] ++
          (v.tree (value_at key colon next pos) (ts.length + 1) ts.length).pre := by
      rw [Element.trees, pres_cons, pres_cons, pres_nil, pre_node, pres_nil, List.append_nil, List.append_assoc]
    rw [hend, htoks]
    refine ⟨ts.length, ((((hkey.trans hgap).trans hcolon).trans hnext).trans hv).trans hafter, Or.inr ?_⟩
    refine ⟨(⟨JSMN_STRING, pos + 1, pos + 1 + key.bytes.length, 1, o⟩ : jsmntok_t), ?_, rfl, rfl⟩
    rw [List.append_assoc, List.getElem?_append_right (by rw [sized_length]), sized_length, Nat.sub_self]
    rfl

theorem Elements.goes : ∀ (es : Elements) (pos o : Nat) (ts : List jsmntok_t) (rest : List Byte) (t : jsmntok_t),
    Places num js es.count o ts → ts[o]? = some t → (t.type = JSMN_ARRAY ∨ t.type = JSMN_OBJECT) →
    js.drop pos = es.text ++ rest → Delimited rest →
    ∃ s', Goes num js ⟨pos, o, ts⟩ ⟨pos + es.text.length, s', sized o es.size ts ++ pres (es.trees pos ts.length o)⟩ ∧
      Under o s' (sized o es.size ts ++ pres (es.trees pos ts.length o))
  | .one e, pos, o, ts, rest, t, hplaces, ht, htype, hdrop, hrest =>
    e.goes pos o ts rest t hplaces ht htype hdrop hrest
  | .more e next es, pos, o, ts, rest, t, hplaces, ht, htype, hdrop, hrest => by
    have henough := hplaces.enough
    have hshort := hplaces.short
    simp only [Elements.count] at henough
    simp only [Elements.text, List.cons_append, List.append_assoc] at hdrop
    obtain ⟨ho, -⟩ := List.getElem?_eq_some_iff.mp ht
    have hlen : (sized o 1 ts ++ pres (e.trees pos ts.length o)).length = ts.length + e.count := by
      rw [List.length_append, sized_length, e.count_eq]
    obtain ⟨n, hn⟩ := sized_at o 1 ts ht
    have ht' : (sized o 1 ts ++ pres (e.trees pos ts.length o))[o]? = some { t with size := n } := by
      rw [List.getElem?_append_left (by rw [sized_length]; exact ho), hn]
    obtain ⟨s', he, hunder⟩ := e.goes pos o ts _ t ⟨by omega, hshort, hplaces.length, hplaces.super⟩ ht htype hdrop
      (ends_comma _)
    have hcomma := goes_comma num _ (drop_at hdrop) ht' htype (by rw [hlen]; omega) hunder
    have hnext := goes_gap num o (sized o 1 ts ++ pres (e.trees pos ts.length o)) next _
      (drop_next (drop_at hdrop))
    obtain ⟨s'', hes, hunder'⟩ := es.goes (pos + e.text.length + 1 + next.bytes.length) o
      (sized o 1 ts ++ pres (e.trees pos ts.length o)) rest { t with size := n }
      ⟨by rw [hlen]; omega, hshort, hplaces.length, Or.inl (by rw [hlen]; omega)⟩ ht' htype
      (drop_at (drop_next (drop_at hdrop))) hrest
    have hend : pos + (Elements.more e next es).text.length =
        pos + e.text.length + 1 + next.bytes.length + es.text.length := by
      simp only [Elements.text, List.length_cons, List.length_append]
      omega
    have htoks : sized o (Elements.more e next es).size ts ++ pres ((Elements.more e next es).trees pos ts.length o) =
        sized o es.size (sized o 1 ts ++ pres (e.trees pos ts.length o)) ++
          pres (es.trees (pos + e.text.length + 1 + next.bytes.length) (ts.length + e.count) o) := by
      rw [sized_append _ _ _ _ (Or.inl (by rw [sized_length]; exact ho)), sized_sized, Elements.trees, pres_append,
        Elements.size, Nat.add_comm 1, List.append_assoc]
    rw [hlen, ← htoks] at hes hunder'
    rw [hend]
    exact ⟨s'', ((he.trans hcomma).trans hnext).trans hes, hunder'⟩

end

end

/-! ## Room -/

/-- From `p` on there are no fewer tokens, and with room for `num` of them the outcome is the same if they fit. -/
def Cramped (num : Nat) (p : jsmn_parser_t) (x y : Except Int jsmn_parser_t) : Prop :=
  ∀ q, x = .ok q → p.tokens.length ≤ q.tokens.length ∧
    (p.tokens.length ≤ num → y = if q.tokens.length ≤ num then .ok q else .error (-1))

section
variable {num num' : Nat} {js : List Byte} {p : jsmn_parser_t}

theorem cramped_same {x : Except Int jsmn_parser_t} (h : ∀ q, x = .ok q → q.tokens.length = p.tokens.length) :
    Cramped num p x x := by
  intro q hq
  have hlen := h q hq
  refine ⟨Nat.le_of_eq hlen.symm, fun hp => ?_⟩
  rw [if_pos (by omega), hq]

theorem grown_length (p : jsmn_parser_t) : (grown p).tokens.length = p.tokens.length := by
  unfold grown
  split
  · rfl
  · exact List.length_modify ..

theorem alloc_cramped (t : jsmntok_t)
    (f : jsmn_parser_t → jsmn_parser_t) (hf : ∀ r, (f r).tokens.length = r.tokens.length) :
    Cramped num p
      (match jsmn_alloc_token num' p t with
        | none => .error JSMN_ERROR_NOMEM
        | some r => .ok (f r))
      (match jsmn_alloc_token num p t with
        | none => .error JSMN_ERROR_NOMEM
        | some r => .ok (f r)) := by
  intro q hq
  unfold jsmn_alloc_token at hq ⊢
  rcases Nat.lt_or_ge p.tokens.length num' with hlt | hge
  · rw [if_neg (Nat.not_le.mpr hlt)] at hq
    cases hq
    rw [hf, List.length_append, List.length_singleton]
    refine ⟨Nat.le_succ _, fun hp => ?_⟩
    rcases Nat.lt_or_ge p.tokens.length num with hfit | hfull
    · rw [if_neg (Nat.not_le.mpr hfit), if_pos (Nat.succ_le_of_lt hfit)]
    · rw [if_pos hfull, if_neg (Nat.not_le.mpr (Nat.lt_succ_of_le hfull))]
      rfl
  · rw [if_pos hge] at hq
    cases hq

theorem scalar_cramped (type : jsmntype_t) (start n next : Nat) :
    Cramped num p (scalar num' type start n next p) (scalar num type start n next p) :=
  alloc_cramped _ (fun r => { grown r with pos := next }) grown_length

theorem opened_cramped (type : jsmntype_t) :
    Cramped num p (opened num' type p) (opened num type p) :=
  alloc_cramped _ (fun r => { grown r with pos := p.pos + 1, toksuper := p.tokens.length }) grown_length

theorem closed_length (type : jsmntype_t) (n i : Nat) (q : jsmn_parser_t) (hq : closed type p n i = .ok q) :
    q.tokens.length = p.tokens.length := by
  fun_induction closed type p n i with
  | case1 => cases hq
  | case2 => cases hq
  | case3 => cases hq
  | case4 =>
    cases hq
    exact List.length_set ..
  | case5 => cases hq
  | case6 =>
    cases hq
    rfl
  | case7 n i t ht hopen hroot ih => exact ih hq

theorem comma_length (p : jsmn_parser_t) : (comma p).tokens.length = p.tokens.length := by
  unfold comma
  split
  · rfl
  · split
    · rfl
    · split <;> rfl

theorem jsmn_step_cramped (c : Byte) :
    Cramped num p (jsmn_step num' js c p) (jsmn_step num js c p) := by
  unfold jsmn_step
  split
  · exact opened_cramped _
  split
  · exact opened_cramped _
  split
  · exact cramped_same (closed_length _ _ _)
  split
  · exact cramped_same (closed_length _ _ _)
  split
  · unfold jsmn_parse_string
    split
    · exact cramped_same fun q hq => by cases hq
    · exact scalar_cramped _ _ _ _
  split
  · refine cramped_same fun q hq => ?_
    cases hq
    rfl
  split
  · refine cramped_same fun q hq => ?_
    cases hq
    rfl
  split
  · refine cramped_same fun q hq => ?_
    cases hq
    exact comma_length p
  · unfold jsmn_parse_primitive
    split
    · exact cramped_same fun q hq => by cases hq
    · exact scalar_cramped _ _ _ _

theorem jsmn_loop_cramped (num : Nat) (fuel : Nat) :
    Cramped num p (jsmn_loop num' js fuel p) (jsmn_loop num js fuel p) := by
  induction fuel generalizing p with
  | zero =>
    refine cramped_same fun q hq => ?_
    cases hq
    rfl
  | succ fuel ih =>
    unfold jsmn_loop
    split
    · refine cramped_same fun q hq => ?_
      cases hq
      rfl
    · split
      · refine cramped_same fun q hq => ?_
        cases hq
        rfl
      · rename_i c hc hc0
        intro q hq
        cases hs : jsmn_step num' js c p with
        | error e =>
          rw [hs] at hq
          cases hq
        | ok r =>
          rw [hs] at hq
          obtain ⟨hpr, hstep⟩ := jsmn_step_cramped c r hs
          obtain ⟨hrq, hloop⟩ := ih q hq
          refine ⟨Nat.le_trans hpr hrq, fun hp => ?_⟩
          rw [hstep hp]
          split
          · rename_i hr
            exact hloop hr
          · rw [if_neg (by omega)]
            rfl

end

theorem jsmn_parse_ok {num : Nat} {js : List Byte} {p : jsmn_parser_t}
    (hloop : jsmn_loop num js (js.length + 1) jsmn_init = .ok p) (hclosed : ∀ t ∈ p.tokens, t.end_ ≠ npos) :
    jsmn_parse num js = ((p.tokens.length : Int), p.tokens) := by
  unfold jsmn_parse
  rw [hloop]
  dsimp only
  rw [if_neg]
  intro h
  obtain ⟨t, ht, hopen⟩ := List.any_eq_true.mp h
  exact hclosed t ht (of_decide_eq_true hopen).2

/-- **The room** makes no difference but that of being too small, whatever the text is. -/
theorem jsmn_parse_room (num num' : Nat) (js : List Byte) (r : Int) (ts : List jsmntok_t) (hr : 0 ≤ r)
    (h : jsmn_parse num' js = (r, ts)) : jsmn_parse num js = if r ≤ num then (r, ts) else (-1, []) := by
  unfold jsmn_parse at h
  split at h
  · rename_i e he
    cases h
    exact absurd (jsmn_loop_error _ _ he) (by omega)
  · rename_i p hp
    split at h
    · cases h
      exact absurd hr (by decide)
    · rename_i hany
      cases h
      have hloop := (jsmn_loop_cramped num _ _ hp).2 (Nat.zero_le _)
      unfold jsmn_parse
      rw [hloop]
      rcases Nat.lt_or_ge num p.tokens.length with hlt | hge
      · rw [if_neg (by omega), if_neg (by omega)]
      · rw [if_pos hge, if_pos (by omega)]
        dsimp only
        rw [if_neg hany]

/-- **JSON is taken apart** into the tokens of its tree, if there is room for them. -/
theorem jsmn_parse_value (num : Nat) (v : Value) (after : Gap) (hlen : (v.text ++ after.bytes).length < npos) :
    jsmn_parse num (v.text ++ after.bytes) =
      if v.count ≤ num then ((v.count : Int), (v.tree 0 0 npos).pre) else (-1, []) := by
  have hcount := v.count_le
  have hall : jsmn_parse v.count (v.text ++ after.bytes) = ((v.count : Int), (v.tree 0 0 npos).pre) := by
    have hplaces : Places v.count (v.text ++ after.bytes) v.count npos [] := by
      refine ⟨by rw [List.length_nil, Nat.zero_add], ?_, hlen, Or.inr rfl⟩
      rw [List.length_append] at hlen
      omega
    have hv := v.goes 0 npos [] after.bytes hplaces rfl
      (by rw [← List.append_nil after.bytes]; exact ends_gap after (fun b hb => by cases hb))
    have hbehind : (v.text ++ after.bytes).drop v.text.length = after.bytes ++ [] := by
      rw [List.drop_left, List.append_nil]
    have hgap := goes_gap v.count npos (v.tree 0 0 npos).pre after [] hbehind
    rw [sized_none _ _ _ (Nat.zero_le _), List.nil_append, List.length_nil, Nat.zero_add] at hv
    obtain ⟨left, -, hloop⟩ := (hv.trans hgap).loop ((v.text ++ after.bytes).length + 1) (Nat.lt_succ_self _)
    have hend := jsmn_loop_end v.count (v.text ++ after.bytes) left
      ⟨v.text.length + after.bytes.length, npos, (v.tree 0 0 npos).pre⟩ (by rw [List.length_append])
    have hclosed : ∀ t ∈ (v.tree 0 0 npos).pre, t.end_ ≠ npos := by
      intro t ht
      have hin := (nested_mem _ (v.nested 0 0 npos) t ht).2.2
      have hroot := v.root_end 0 0 npos
      rw [List.length_append] at hlen
      omega
    have hparsed := jsmn_parse_ok (hloop.trans hend) hclosed
    rw [v.count_eq] at hparsed
    exact hparsed
  have hroom := jsmn_parse_room num v.count _ _ _ (Int.natCast_nonneg _) hall
  rw [hroom]
  simp only [Int.ofNat_le]

end Coins.Quotes
