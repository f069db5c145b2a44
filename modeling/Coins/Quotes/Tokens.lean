import Coins.Lib.Questions
import Coins.Lib.Forest
import Coins.Quotes.Hash
import Coins.Quotes.Jsmn

/-!
# Tokens

What the converters that use `jsmn` look at, and what of it the line decides: the tokens that were
counted and the bytes up to the NUL behind the line. Everything else is what was there before.
-/

open Coins.Numeral Coins.Questions Coins.Forest

namespace Coins.Quotes

open jsmntype_t

/-! ## Looking -/

/-- Tokens by their index. Bytes, and texts up to their end, by their distance from the JSON part. The
first `n` bytes of an array of `cap`, which are written to. What `NULL` points to. -/
inductive Cell
  | tok (i : Int)
  | byte (p : Int)
  | str (p : Int)
  | room (cap n : Nat)
  | null

def Cell.Ans : Cell → Type
  | tok _ => jsmntok_t
  | byte _ => Byte
  | str _ => List Byte
  | room _ _ => Unit
  | null => List Byte

instance (c : Cell) : Nonempty c.Ans := by
  cases c with
  | tok => exact ⟨(⟨JSMN_UNDEFINED, 0, 0, 0, 0⟩ : jsmntok_t)⟩
  | byte => exact ⟨(0 : Byte)⟩
  | str => exact ⟨([] : List Byte)⟩
  | room => exact ⟨()⟩
  | null => exact ⟨([] : List Byte)⟩

abbrev Prog := Query Cell Cell.Ans

/-- Nothing was there before. -/
def blank : (c : Cell) → c.Ans
  | .tok _ => (⟨JSMN_UNDEFINED, 0, 0, 0, 0⟩ : jsmntok_t)
  | .byte _ => (0 : Byte)
  | .str _ => ([] : List Byte)
  | .room _ _ => ()
  | .null => ([] : List Byte)

def toks (i : Nat) : Prog jsmntok_t := Query.get (Cell.tok i)

/-- `tok[i]`, also in front of the array. -/
def tok_at (i : Int) : Prog jsmntok_t := Query.get (Cell.tok i)

def byte_at (p : Int) : Prog Byte := Query.get (Cell.byte p)

def str_at (p : Int) : Prog (List Byte) := Query.get (Cell.str p)

def room (cap n : Nat) : Prog Unit := Query.get (Cell.room cap n)

/-- `base + tok.start` -/
def jsmntok_t.ptr (t : jsmntok_t) : Int := if t.start < 2 ^ 63 then t.start else t.start - 2 ^ 64

/-- `tok.end - tok.start` -/
def jsmntok_t.len (t : jsmntok_t) : Nat := (t.end_ + 2 ^ 64 - t.start) % 2 ^ 64

def bytes (p : Int) : Nat → Prog (List Byte)
  | 0 => pure []
  | n + 1 => do
    let b ← byte_at p
    let bs ← bytes (p + 1) n
    pure (b :: bs)

def text (t : jsmntok_t) : Prog (List Byte) := bytes t.ptr t.len

/-- Whether there is a difference, up to the first. -/
def memcmp_at (p : Int) : List Byte → Prog Bool
  | [] => pure false
  | w :: ws => do
    let b ← byte_at p
    if b = w then memcmp_at (p + 1) ws else pure true

/-- What is in `buf` now. -/
def memncpy (buf w : List Byte) : Prog (List Byte) := do
  room 256 (buf.length + w.length)
  pure (buf ++ w)

@[simp] theorem eval_memncpy (env : (c : Cell) → c.Ans) (buf w : List Byte) :
    (memncpy buf w).eval env = buf ++ w := by
  unfold memncpy
  rw [Query.eval_bind]
  rfl

/-- `for (; toks[i].start < eot; i++)`, as far as there are places for tokens. -/
def ffw (eot : Nat) : Nat → Nat → Prog Nat
  | 0, i => pure i
  | fuel + 1, i => do
    let t ← toks i
    if t.start < eot then ffw eot fuel (i + 1) else pure i

/-- What `procln` returns, and the records it prints. -/
structure Output where
  ret : Int
  out : List (List Byte)
deriving DecidableEq

/-- The time, the JSON part, which begins with `c`, and its tokens. -/
def json_part (countof : Nat) (c : Byte) (line : List Byte) :
    Option (tv_t × List Byte × List jsmntok_t) :=
  let t := strtotv line
  if t.1 = NOT_A_TIME then none
  else if deref t.2 ≠ tab then none
  else
    let on := t.2.tail
    if deref on ≠ c then none
    else
      let r := jsmn_parse countof on
      if r.1 < 0 then none
      else if r.1 = 0 then none
      else some (t.1, on, r.2)

/-! ## What is there -/

section
variable (on : List Byte) (ts : List jsmntok_t)

def known : (c : Cell) → Option c.Ans
  | .tok i => if 0 ≤ i then ts[i.toNat]? else none
  | .byte p => if 0 ≤ p then (on ++ [0])[p.toNat]? else none
  | .str p => if 0 ≤ p ∧ p ≤ on.length then some (on.drop p.toNat) else none
  | .room cap n => if n ≤ cap then some () else none
  | .null => none

/-- The memory, when `old` was there before. -/
def memory (old : (c : Cell) → c.Ans) (c : Cell) : c.Ans := (known on ts c).getD (old c)

theorem memory_known (old : (c : Cell) → c.Ans) : Query.Extends (known on ts) (memory on ts old) :=
  Query.patched_extends (known on ts) old

/-- The part of the text that a token stands for. -/
def span (t : jsmntok_t) : List Byte := (on.drop t.start).take (t.end_ - t.start)

/-- A token has its place in the text. -/
structure Within (t : jsmntok_t) : Prop where
  ordered : t.start ≤ t.end_
  inside : t.end_ ≤ on.length
  short : on.length < 2 ^ 63

variable {on ts}

theorem ptr_within {t : jsmntok_t} (h : Within on t) : t.ptr = t.start := by
  have := h.ordered
  have := h.inside
  have := h.short
  unfold jsmntok_t.ptr
  rw [if_pos (by omega)]

theorem len_within {t : jsmntok_t} (h : Within on t) : t.len = t.end_ - t.start := by
  have := h.ordered
  have := h.inside
  have := h.short
  unfold jsmntok_t.len
  omega

theorem span_length {t : jsmntok_t} (h : Within on t) : (span on t).length = t.end_ - t.start := by
  have := h.inside
  simp only [span, List.length_take, List.length_drop]
  omega

@[simp] theorem run_toks (i : Nat) : Query.run (known on ts) (toks i) = ts[i]? := by
  refine (Query.run_get (known on ts) (Cell.tok i)).trans ?_
  change (if 0 ≤ (i : Int) then ts[(i : Int).toNat]? else none) = ts[i]?
  rw [if_pos (Int.natCast_nonneg i), Int.toNat_natCast]

@[simp] theorem run_byte_at (p : Nat) : Query.run (known on ts) (byte_at p) = (on ++ [0])[p]? := by
  refine (Query.run_get (known on ts) (Cell.byte p)).trans ?_
  change (if 0 ≤ (p : Int) then (on ++ [0])[(p : Int).toNat]? else none) = (on ++ [0])[p]?
  rw [if_pos (Int.natCast_nonneg p), Int.toNat_natCast]

@[simp] theorem run_str_at (p : Nat) (h : p ≤ on.length) :
    Query.run (known on ts) (str_at p) = some (on.drop p) := by
  refine (Query.run_get (known on ts) (Cell.str p)).trans ?_
  change (if 0 ≤ (p : Int) ∧ (p : Int) ≤ on.length then some (on.drop (p : Int).toNat) else none) = _
  rw [if_pos ⟨Int.natCast_nonneg p, Int.ofNat_le.mpr h⟩, Int.toNat_natCast]

@[simp] theorem run_room (cap n : Nat) :
    Query.run (known on ts) (room cap n) = if n ≤ cap then some () else none := by
  exact Query.run_get (known on ts) (Cell.room cap n)

theorem run_bytes (p n : Nat) (h : p + n ≤ on.length + 1) :
    Query.run (known on ts) (bytes p n) = some (((on ++ [0]).drop p).take n) := by
  induction n generalizing p with
  | zero =>
    unfold bytes
    rw [List.take_zero]
    rfl
  | succ n ih =>
    have hlt : p < (on ++ [0]).length := by
      rw [List.length_append, List.length_singleton]
      omega
    unfold bytes
    have hnext := ih (p + 1) (by omega)
    rw [Int.natCast_add] at hnext
    rw [Query.run_bind, run_byte_at, List.getElem?_eq_getElem hlt, Option.bind_some, Query.run_bind]
    change ((Query.run (known on ts) (bytes (p + (1 : Nat)) n)).bind _) = _
    rw [hnext, List.drop_eq_getElem_cons hlt]
    rfl

theorem run_text {t : jsmntok_t} (h : Within on t) :
    Query.run (known on ts) (text t) = some (span on t) := by
  have hord := h.ordered
  have hin := h.inside
  unfold text span
  rw [ptr_within h, len_within h, run_bytes _ _ (by omega), List.drop_append_of_le_length (by omega),
    List.take_append_of_le_length (by rw [List.length_drop]; omega)]

theorem run_memcmp_at (p : Nat) (w : List Byte) (hp : p ≤ on.length) (hw : 0 ∉ w) :
    Query.run (known on ts) (memcmp_at p w) = some (decide (¬ w <+: on.drop p)) := by
  induction w generalizing p with
  | nil =>
    unfold memcmp_at
    simp
  | cons c w ih =>
    simp only [List.mem_cons, not_or] at hw
    unfold memcmp_at
    rw [Query.run_bind, run_byte_at]
    by_cases hlt : p < on.length
    · have hnext := ih (p + 1) (by omega) hw.2
      rw [Int.natCast_add] at hnext
      rw [List.getElem?_append_left hlt, List.getElem?_eq_getElem hlt, Option.bind_some,
        List.drop_eq_getElem_cons hlt]
      by_cases hc : on[p] = c
      · rw [if_pos hc, hc]
        refine hnext.trans ?_
        simp [List.cons_prefix_cons]
      · rw [if_neg hc]
        have hdiff : ¬ c :: w <+: on[p] :: on.drop (p + 1) := by
          rw [List.cons_prefix_cons]
          exact fun he => hc he.1.symm
        rw [decide_eq_true hdiff]
        rfl
    · have hp : p = on.length := by omega
      subst hp
      have hc : ¬ (0 : Byte) = c := hw.1
      simp [hc]

theorem run_memncpy (buf w : List Byte) :
    Query.run (known on ts) (memncpy buf w) =
      if (buf ++ w).length ≤ 256 then some (buf ++ w) else none := by
  unfold memncpy
  rw [Query.run_bind, run_room, List.length_append]
  split <;> rfl

theorem run_memncpy_then {α : Type} (buf w : List Byte) (f : List Byte → Prog α) :
    Query.run (known on ts) (memncpy buf w >>= f) =
      if (buf ++ w).length ≤ 256 then Query.run (known on ts) (f (buf ++ w)) else none := by
  rw [Query.run_bind, run_memncpy]
  split <;> rfl

theorem room_room {α : Type} {a b : List Byte} (h : a <+: b) (x : Option α) :
    (if a.length ≤ 256 then if b.length ≤ 256 then x else none else none) =
      if b.length ≤ 256 then x else none := by
  have := h.length_le
  split
  · rfl
  · rw [if_neg (by omega)]

theorem run_at {i : Nat} {l : List jsmntok_t} (h : ts.drop i = l) (k : Nat) {t : jsmntok_t}
    (hk : l[k]? = some t) : Query.run (known on ts) (toks (i + k)) = some t := by
  rw [run_toks, ← hk, ← h, List.getElem?_drop]

theorem run_nth {k : Nat} {t : jsmntok_t} (h : ts[k]? = some t) :
    Query.run (known on ts) (toks k) = some t := by
  rw [run_toks, h]

theorem run_here {i : Nat} {l : List jsmntok_t} {t : jsmntok_t} (h : ts.drop i = t :: l) :
    Query.run (known on ts) (toks i) = some t :=
  run_at h 0 rfl

theorem run_key {t : jsmntok_t} (h : Within on t) {w : List Byte} (hspan : span on t = w)
    (hw : 0 ∉ w) : Query.run (known on ts) (memcmp_at t.ptr w) = some false := by
  have hpre : w <+: on.drop t.start := by
    rw [← hspan]
    exact List.take_prefix ..
  rw [ptr_within h, run_memcmp_at _ _ (Nat.le_trans h.ordered h.inside) hw]
  simp [hpre]

theorem run_ffw (eot fuel i m : Nat) (him : i ≤ m) (hfuel : m < i + fuel)
    (hlt : ∀ k, i ≤ k → k < m → ∃ t, ts[k]? = some t ∧ t.start < eot)
    (hend : ∃ t, ts[m]? = some t ∧ eot ≤ t.start) :
    Query.run (known on ts) (ffw eot fuel i) = some m := by
  induction fuel generalizing i with
  | zero => omega
  | succ fuel ih =>
    unfold ffw
    rw [Query.run_bind, run_toks]
    rcases Nat.lt_or_ge i m with hi | hi
    · obtain ⟨t, ht, hstart⟩ := hlt i (Nat.le_refl i) hi
      rw [ht, Option.bind_some, if_pos hstart]
      exact ih (i + 1) hi (by omega) fun k hk hkm => hlt k (by omega) hkm
    · obtain ⟨t, ht, hstart⟩ := hend
      have : i = m := by omega
      subst this
      rw [ht, Option.bind_some, if_neg (by omega)]
      rfl

theorem drop_more {i : Nat} {l r : List jsmntok_t} (h : ts.drop i = l ++ r) :
    ts.drop (i + l.length) = r := by
  rw [← List.drop_drop, h, List.drop_left]

theorem drop_fits {i : Nat} {l r : List jsmntok_t} (h : ts.drop i = l ++ r) : l.length ≤ ts.length := by
  have := congrArg List.length h
  rw [List.length_drop, List.length_append] at this
  omega

theorem run_ffw_tree {e : Branch jsmntok_t} (hnested : e.nested jsmntok_t.start jsmntok_t.end_ = true)
    {i j : Nat} {b : jsmntok_t} {bs : List jsmntok_t} (hdrop : ts.drop i = e.pre ++ b :: bs)
    (hb : e.root.end_ ≤ b.start) (hij : i < j) (hj : j ≤ i + e.pre.length) (fuel : Nat)
    (hfuel : e.pre.length ≤ fuel) :
    Query.run (known on ts) (ffw e.root.end_ fuel j) = some (i + e.pre.length) := by
  refine run_ffw _ _ _ _ hj (by omega) (fun k hk hkm => ?_) ⟨b, ?_, hb⟩
  · obtain ⟨d, rfl⟩ : ∃ d, k = i + (d + 1) := ⟨k - i - 1, by omega⟩
    have hd : d < (pres e.kids).length := by
      rw [pre_eq, List.length_cons] at hkm
      omega
    refine ⟨(pres e.kids)[d], ?_, ?_⟩
    · rw [← List.getElem?_drop, hdrop, pre_eq, List.cons_append, List.getElem?_cons_succ,
        List.getElem?_append_left hd, List.getElem?_eq_getElem hd]
    · obtain ⟨-, hle, hlt⟩ := nestedAll_mem _ _ _ (nested_kids e hnested) _ (List.getElem_mem hd)
      omega
  · have hzero := @List.getElem?_drop _ ts (i + e.pre.length) 0
    rw [drop_more hdrop] at hzero
    exact hzero.symm

theorem eval_known {α : Type} {q : Prog α} {a : α} (h : Query.run (known on ts) q = some a)
    (old : (c : Cell) → c.Ans) : q.eval (memory on ts old) = a :=
  (Query.run_some (memory_known on ts old) q a h).1

/-- The line with its tokens decides what comes out: nothing else is looked at, and nothing is written
outside of the arrays. -/
def Decided {α : Type} (on : List Byte) (ts : List jsmntok_t) (q : Prog α) (a : α) : Prop :=
  ∀ old, q.eval (memory on ts old) = a ∧ ∀ c ∈ q.asked (memory on ts old), (known on ts c).isSome = true

theorem decided_iff {α : Type} (q : Prog α) (a : α) :
    Decided on ts q a ↔ Query.run (known on ts) q = some a := Query.run_decided (known on ts) q a

end

/-! ## Lines -/

/-- The `i`-th token of a text. -/
def nth_token (on : List Byte) (i : Nat) : jsmntok_t :=
  (jsmn_parse on.length on).2.getD i ⟨JSMN_UNDEFINED, 0, 0, 0, 0⟩

abbrev Json := Branch jsmntok_t

def leaf (on : List Byte) (i : Nat) : Json := .node (nth_token on i) []

/-- A time stamp, and JSON beginning with `c` with its tokens for what they are. -/
structure Line (countof : Nat) (c : Byte) where
  stamp : Stamp
  on : List Byte
  root : Json
  begins : deref on = c
  parsed : jsmn_parse countof on = ((root.pre.length : Int), root.pre)
  nested : root.nested jsmntok_t.start jsmntok_t.end_ = true
  inside : root.root.end_ ≤ on.length
  short : on.length < 2 ^ 63

namespace Line

variable {countof : Nat} {c : Byte} (l : Line countof c)

def text : List Byte := l.stamp.text ++ tab :: l.on

theorem json_part : json_part countof c l.text = some (l.stamp.tv, l.on, l.root.pre) := by
  have hpos : 0 < l.root.pre.length := by
    rw [pre_eq]
    exact Nat.succ_pos _
  unfold Quotes.json_part
  simp only [text, l.stamp.reads, deref_cons, List.tail_cons, l.begins, l.parsed]
  rw [if_neg l.stamp.valid, if_neg (fun h => h rfl), if_neg (fun h => h rfl), if_neg (by omega),
    if_neg (by omega)]

theorem within (t : jsmntok_t) (ht : t ∈ l.root.pre) : Within l.on t := by
  obtain ⟨-, hord, hend⟩ := nested_mem l.root l.nested t ht
  exact ⟨hord, Nat.le_trans hend l.inside, l.short⟩

theorem placed : l.root.pre.length ≤ countof := by
  have hshort := l.short
  exact (jsmn_parse_placed (by unfold npos; omega) _ _ l.parsed (Int.natCast_nonneg _)).2.1

end Line

end Coins.Quotes
