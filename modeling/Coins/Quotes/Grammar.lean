import Coins.Quotes.Tokens

/-!
# JSON texts

JSON with its gaps, the text it stands for, and the tree of its tokens: where each begins and ends, how many are
below it, and which one it belongs to. What `jsmn` takes for JSON is a little more than that: brackets of both kinds
may hold items and members alike.
-/

open Coins.Forest Coins.Numeral

namespace Coins.Quotes

open jsmntype_t

def blanks : List Byte := ascii "\t\r\n "

/-- The bytes at which a primitive ends. -/
def delimiters : List Byte := ascii ":\t\r\n ,]\x7d"

structure Gap where
  bytes : List Byte
  blank : ∀ b ∈ bytes, b ∈ blanks

def no_gap : Gap := ⟨[], fun _ h => absurd h List.not_mem_nil⟩

/-- A number, or one of the words. -/
structure Word where
  bytes : List Byte
  ne : bytes ≠ []
  first : ∀ b ∈ bytes.head?, b ∉ ascii "\x7b[\""
  plain : ∀ b ∈ bytes, 32 ≤ b ∧ b < 127 ∧ b ∉ delimiters

/-- What may be between quotes. -/
inductive Chars : List Byte → Prop
  | nil : Chars []
  | plain {b : Byte} {w : List Byte} (h0 : b ≠ 0) (hquote : b ≠ chr '"') (hback : b ≠ chr '\\') (h : Chars w) :
      Chars (b :: w)
  | escape {e : Byte} {w : List Byte} (he : e ∈ ascii "\"/\\bfrnt") (h : Chars w) : Chars (chr '\\' :: e :: w)
  | hex {a b c d : Byte} {w : List Byte} (ha : isHex a) (hb : isHex b) (hc : isHex c) (hd : isHex d) (h : Chars w) :
    Chars (chr '\\' :: chr 'u' :: a :: b :: c :: d :: w)

theorem chars_plain (w : List Byte) (h : ∀ b ∈ w, b ≠ 0 ∧ b ≠ chr '"' ∧ b ≠ chr '\\') : Chars w := by
  induction w with
  | nil => exact Chars.nil
  | cons b w ih =>
    obtain ⟨h0, hquote, hback⟩ := h b (List.mem_cons_self ..)
    exact Chars.plain h0 hquote hback (ih fun b hb => h b (List.mem_cons_of_mem _ hb))

structure Quoted where
  bytes : List Byte
  chars : Chars bytes

def Quoted.text (s : Quoted) : List Byte := chr '"' :: (s.bytes ++ [chr '"'])

/-- Square brackets, or braces. -/
inductive Bracket
  | square | brace
deriving DecidableEq

namespace Bracket

def opening : Bracket → Byte
  | square => chr '['
  | brace => chr '\x7b'

def closing : Bracket → Byte
  | square => chr ']'
  | brace => chr '\x7d'

def type : Bracket → jsmntype_t
  | square => JSMN_ARRAY
  | brace => JSMN_OBJECT

end Bracket

mutual

inductive Value
  | word (w : Word)
  | quoted (s : Quoted)
  | empty (b : Bracket) (gap : Gap)
  | group (b : Bracket) (gap : Gap) (es : Elements)

/-- An item or a member, and the gap behind it. -/
inductive Element
  | item (v : Value) (after : Gap)
  | member (key : Quoted) (colon next : Gap) (v : Value) (after : Gap)

inductive Elements
  | one (e : Element)
  | more (e : Element) (next : Gap) (rest : Elements)

end

/-! ## Their texts -/

mutual

def Value.text : Value → List Byte
  | .word w => w.bytes
  | .quoted s => s.text
  | .empty b gap => b.opening :: (gap.bytes ++ [b.closing])
  | .group b gap es => b.opening :: (gap.bytes ++ (es.text ++ [b.closing]))

def Element.text : Element → List Byte
  | .item v after => v.text ++ after.bytes
  | .member key colon next v after =>
    key.text ++ (colon.bytes ++ (chr ':' :: (next.bytes ++ (v.text ++ after.bytes))))

def Elements.text : Elements → List Byte
  | .one e => e.text
  | .more e next rest => e.text ++ (chr ',' :: (next.bytes ++ rest.text))

end

/-! ## Their tokens -/

def Elements.size : Elements → Nat
  | .one _ => 1
  | .more _ _ rest => rest.size + 1

mutual

def Value.count : Value → Nat
  | .word _ => 1
  | .quoted _ => 1
  | .empty _ _ => 1
  | .group _ _ es => es.count + 1

def Element.count : Element → Nat
  | .item v _ => v.count
  | .member _ _ _ v _ => v.count + 1

def Elements.count : Elements → Nat
  | .one e => e.count
  | .more e _ rest => e.count + rest.count

end

/-- Where the value of a member begins, when its key begins at `pos`. -/
def value_at (key : Quoted) (colon next : Gap) (pos : Nat) : Nat :=
  pos + key.text.length + colon.bytes.length + 1 + next.bytes.length

mutual

/-- The token `i` of the value at `pos`, which belongs to token `par`, and those below it. -/
def Value.tree (pos i par : Nat) : Value → Json
  | .word w => .node ⟨JSMN_PRIMITIVE, pos, pos + w.bytes.length, 0, par⟩ []
  | .quoted s => .node ⟨JSMN_STRING, pos + 1, pos + 1 + s.bytes.length, 0, par⟩ []
  | .empty b gap => .node ⟨b.type, pos, pos + (gap.bytes.length + 2), 0, par⟩ []
  | .group b gap es =>
    .node ⟨b.type, pos, pos + (gap.bytes.length + es.text.length + 2), es.size, par⟩
      (es.trees (pos + 1 + gap.bytes.length) (i + 1) i)

def Element.trees (pos i par : Nat) : Element → List Json
  | .item v _ => [v.tree pos i par]
  | .member key colon next v _ =>
    [.node ⟨JSMN_STRING, pos + 1, pos + 1 + key.bytes.length, 1, par⟩ [],
      v.tree (value_at key colon next pos) (i + 1) i]

def Elements.trees (pos i par : Nat) : Elements → List Json
  | .one e => e.trees pos i par
  | .more e next rest =>
    e.trees pos i par ++ rest.trees (pos + e.text.length + 1 + next.bytes.length) (i + e.count) par

end

/-! ## Facts about them -/

@[simp] theorem Quoted.text_length (s : Quoted) : s.text.length = s.bytes.length + 2 := by
  simp [Quoted.text]

mutual

theorem Value.count_eq : ∀ (v : Value) (pos i par : Nat), (v.tree pos i par).pre.length = v.count
  | .word _, _, _, _ => by simp [Value.tree, Value.count]
  | .quoted _, _, _, _ => by simp [Value.tree, Value.count]
  | .empty _ _, _, _, _ => by simp [Value.tree, Value.count]
  | .group _ _ es, _, _, _ => by rw [Value.tree, pre_node, List.length_cons, es.count_eq, Value.count]

theorem Element.count_eq : ∀ (e : Element) (pos i par : Nat), (pres (e.trees pos i par)).length = e.count
  | .item v _, _, _, _ => by simp [Element.trees, Element.count, v.count_eq]
  | .member _ _ _ v _, _, _, _ => by simp [Element.trees, Element.count, v.count_eq]

theorem Elements.count_eq : ∀ (es : Elements) (pos i par : Nat), (pres (es.trees pos i par)).length = es.count
  | .one e, _, _, _ => by rw [Elements.trees, e.count_eq, Elements.count]
  | .more e _ rest, _, _, _ => by
    rw [Elements.trees, pres_append, List.length_append, e.count_eq, rest.count_eq, Elements.count]

end

mutual

theorem Value.count_le : ∀ v : Value, v.count ≤ v.text.length
  | .word w => List.length_pos_of_ne_nil w.ne
  | .quoted _ => by simp [Value.count, Value.text]
  | .empty _ _ => by simp [Value.count, Value.text]
  | .group _ _ es => by
    have := es.count_le
    simp only [Value.count, Value.text, List.length_cons, List.length_append]
    omega

theorem Element.count_le : ∀ e : Element, e.count ≤ e.text.length
  | .item v _ => by
    have := v.count_le
    simp only [Element.count, Element.text, List.length_append]
    omega
  | .member _ _ _ v _ => by
    have := v.count_le
    simp only [Element.count, Element.text, List.length_append, List.length_cons]
    omega

theorem Elements.count_le : ∀ es : Elements, es.count ≤ es.text.length
  | .one e => e.count_le
  | .more e _ rest => by
    have := e.count_le
    have := rest.count_le
    simp only [Elements.count, Elements.text, List.length_append, List.length_cons]
    omega

end

theorem Value.root_start (v : Value) (pos i par : Nat) : pos ≤ (v.tree pos i par).root.start := by
  cases v <;> simp [Value.tree]

theorem Value.root_end (v : Value) (pos i par : Nat) : (v.tree pos i par).root.end_ ≤ pos + v.text.length := by
  cases v with
  | word w => simp [Value.tree, Value.text]
  | quoted s =>
    simp only [Value.tree, Value.text, root_node, Quoted.text_length]
    omega
  | empty b gap => simp [Value.tree, Value.text]
  | group b gap es =>
    simp only [Value.tree, Value.text, root_node, List.length_cons, List.length_append, List.length_nil]
    omega

mutual

theorem Value.nested : ∀ (v : Value) (pos i par : Nat),
    (v.tree pos i par).nested jsmntok_t.start jsmntok_t.end_ = true
  | .word _, _, _, _ => by simp [Value.tree]
  | .quoted _, _, _, _ => by simp [Value.tree]
  | .empty _ _, _, _, _ => by simp [Value.tree]
  | .group b gap es, pos, i, par => by
    rw [Value.tree, nested_node]
    exact ⟨Nat.le_add_right _ _, es.nested _ _ _ _ _ (by dsimp only; omega) (by dsimp only; omega)⟩

theorem Element.nested : ∀ (e : Element) (pos i par l h : Nat), l < pos → pos + e.text.length < h → ∀ (ts : List Json),
    (∀ m, m ≤ pos + e.text.length → nestedAll jsmntok_t.start jsmntok_t.end_ m h ts = true) →
    nestedAll jsmntok_t.start jsmntok_t.end_ l h (e.trees pos i par ++ ts) = true
  | .item v after, pos, i, par, l, h, hl, hh, ts, hts => by
    have hstart := v.root_start pos i par
    have hend := v.root_end pos i par
    rw [Element.text, List.length_append] at hh hts
    rw [Element.trees, List.singleton_append, nestedAll_cons]
    exact ⟨by omega, by omega, v.nested pos i par, hts _ (by omega)⟩
  | .member key colon next v after, pos, i, par, l, h, hl, hh, ts, hts => by
    have hstart := v.root_start (value_at key colon next pos) (i + 1) i
    have hend := v.root_end (value_at key colon next pos) (i + 1) i
    rw [Element.text] at hh hts
    simp only [List.length_append, List.length_cons, Quoted.text_length] at hh hts
    unfold value_at at hstart hend
    rw [Quoted.text_length] at hstart hend
    rw [Element.trees, List.cons_append, List.singleton_append, nestedAll_cons, nestedAll_cons]
    refine ⟨?_, ?_, by simp, ?_, ?_, v.nested _ _ _, hts _ ?_⟩
    · dsimp only [root_node]
      omega
    · dsimp only [root_node]
      omega
    · unfold value_at
      rw [Quoted.text_length]
      dsimp only [root_node]
      omega
    · unfold value_at
      rw [Quoted.text_length]
      omega
    · unfold value_at
      rw [Quoted.text_length]
      omega

theorem Elements.nested : ∀ (es : Elements) (pos i par l h : Nat), l < pos → pos + es.text.length < h →
    nestedAll jsmntok_t.start jsmntok_t.end_ l h (es.trees pos i par) = true
  | .one e, pos, i, par, l, h, hl, hh => by
    rw [Elements.text] at hh
    rw [Elements.trees, ← List.append_nil (e.trees pos i par)]
    exact e.nested pos i par l h hl hh [] fun m _ => nestedAll_nil m h
  | .more e next rest, pos, i, par, l, h, hl, hh => by
    rw [Elements.text] at hh
    simp only [List.length_append, List.length_cons] at hh
    rw [Elements.trees]
    refine e.nested pos i par l h hl (by omega) _ fun m hm => ?_
    exact rest.nested _ _ _ m h (by omega) (by omega)

end

end Coins.Quotes
