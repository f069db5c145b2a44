import Coins.Quotes.Stamp

/-!
# `jsmn`

The tokenizer of `jsmn.c`. Tokens are given out from front to back, and those given out so far are the
list that the functions pass on.
-/

open Coins.Numeral

namespace Coins.Quotes

inductive jsmntype_t
  | JSMN_UNDEFINED | JSMN_OBJECT | JSMN_ARRAY | JSMN_STRING | JSMN_PRIMITIVE
deriving DecidableEq

open jsmntype_t

/-- `-1` as a `size_t`. -/
def npos : Nat := 2 ^ 64 - 1

structure jsmntok_t where
  type : jsmntype_t
  start : Nat
  end_ : Nat
  size : Nat
  parent : Nat
deriving DecidableEq

def JSMN_ERROR_NOMEM : Int := -1
def JSMN_ERROR_INVAL : Int := -2
def JSMN_ERROR_PART : Int := -3

/-- Where the parser stands, and what belongs to it: `toknext` is the number of tokens. -/
structure jsmn_parser_t where
  pos : Nat
  toksuper : Nat
  tokens : List jsmntok_t

def jsmn_init : jsmn_parser_t := ⟨0, npos, []⟩

/-- The number of bytes that a primitive takes, none if there is an invalid one. -/
def primitive_len : List Byte → Option Nat
  | [] => some 0
  | b :: bs =>
    if b = 0 ∨ b ∈ ascii ":\t\r\n ,]\x7d" then some 0
    else if b < 32 ∨ 127 ≤ b then none
    else (primitive_len bs).map (· + 1)

def isHex (b : Byte) : Bool := isDigit 16 b

/-- The number of bytes in front of the closing quote, when `n` hex digits may be due. -/
def string_len : Nat → List Byte → Option Nat
  | _, [] => none
  | n + 1, b :: bs =>
    if b = 0 then none else if isHex b then (string_len n bs).map (· + 1) else none
  | 0, b :: bs =>
    if b = 0 then none
    else if b = chr '"' then some 0
    else if b = chr '\\' then
      match bs with
      | [] => none
      | e :: cs =>
        if e = chr 'u' then (string_len 4 cs).map (· + 2)
        else if e ∈ ascii "\"/\\bfrnt" then (string_len 0 cs).map (· + 2)
        else none
    else (string_len 0 bs).map (· + 1)

section
variable (num_tokens : Nat)

/-- A token in the next free place. -/
def jsmn_alloc_token (p : jsmn_parser_t) (t : jsmntok_t) : Option jsmn_parser_t :=
  if num_tokens ≤ p.tokens.length then none else some { p with tokens := p.tokens ++ [t] }

/-- The super token has one more child. -/
def grown (p : jsmn_parser_t) : jsmn_parser_t :=
  if p.toksuper = npos then p
  else { p with tokens := p.tokens.modify p.toksuper fun t => { t with size := t.size + 1 } }

/-- A primitive or a string of `n` bytes from `start` on, and on with the byte at `next`. -/
def scalar (type : jsmntype_t) (start n next : Nat) (p : jsmn_parser_t) : Except Int jsmn_parser_t :=
  match jsmn_alloc_token num_tokens p ⟨type, start, start + n, 0, p.toksuper⟩ with
  | none => .error JSMN_ERROR_NOMEM
  | some p => .ok { grown p with pos := next }

def jsmn_parse_primitive (js : List Byte) (p : jsmn_parser_t) : Except Int jsmn_parser_t :=
  match primitive_len (js.drop p.pos) with
  | none => .error JSMN_ERROR_INVAL
  | some n => scalar num_tokens JSMN_PRIMITIVE p.pos n (p.pos + n) p

/-- Any error is -1 here. -/
def jsmn_parse_string (js : List Byte) (p : jsmn_parser_t) : Except Int jsmn_parser_t :=
  match string_len 0 (js.drop (p.pos + 1)) with
  | none => .error (-1)
  | some n => scalar num_tokens JSMN_STRING (p.pos + 1) n (p.pos + 1 + n + 1) p

def opened (type : jsmntype_t) (p : jsmn_parser_t) : Except Int jsmn_parser_t :=
  match jsmn_alloc_token num_tokens p ⟨type, p.pos, npos, 0, p.toksuper⟩ with
  | none => .error JSMN_ERROR_NOMEM
  | some q => .ok { grown q with pos := p.pos + 1, toksuper := p.tokens.length }

/-- From token `i` through the parents to the one that is closed. -/
def closed (type : jsmntype_t) (p : jsmn_parser_t) : Nat → Nat → Except Int jsmn_parser_t
  | 0, _ => .error JSMN_ERROR_INVAL
  | n + 1, i =>
    match p.tokens[i]? with
    | none => .error JSMN_ERROR_INVAL
    | some t =>
      if t.start ≠ npos ∧ t.end_ = npos then
        if t.type ≠ type then .error JSMN_ERROR_INVAL
        else .ok { pos := p.pos + 1, toksuper := t.parent, tokens := p.tokens.set i { t with end_ := p.pos + 1 } }
      else if t.parent = npos then
        if t.type ≠ type ∨ p.toksuper = npos then .error JSMN_ERROR_INVAL
        else .ok { p with pos := p.pos + 1 }
      else closed type p n t.parent

def comma (p : jsmn_parser_t) : jsmn_parser_t :=
  if p.toksuper = npos then p
  else
    match p.tokens[p.toksuper]? with
    | none => p
    | some t => if t.type ≠ JSMN_ARRAY ∧ t.type ≠ JSMN_OBJECT then { p with toksuper := t.parent } else p

/-- One turn of the loop of `jsmn_parse`, with `c` where it stands. -/
def jsmn_step (js : List Byte) (c : Byte) (p : jsmn_parser_t) : Except Int jsmn_parser_t :=
  if c = chr '{' then opened num_tokens JSMN_OBJECT p
  else if c = chr '[' then opened num_tokens JSMN_ARRAY p
  else if c = chr '}' then closed JSMN_OBJECT p p.tokens.length (p.tokens.length - 1)
  else if c = chr ']' then closed JSMN_ARRAY p p.tokens.length (p.tokens.length - 1)
  else if c = chr '"' then jsmn_parse_string num_tokens js p
  else if c ∈ ascii "\t\r\n " then .ok { p with pos := p.pos + 1 }
  else if c = chr ':' then
    .ok { p with pos := p.pos + 1, toksuper := if p.tokens = [] then npos else p.tokens.length - 1 }
  else if c = chr ',' then .ok { comma p with pos := p.pos + 1 }
  else jsmn_parse_primitive num_tokens js p

def jsmn_loop (js : List Byte) : Nat → jsmn_parser_t → Except Int jsmn_parser_t
  | 0, p => .ok p
  | n + 1, p =>
    match js[p.pos]? with
    | none => .ok p
    | some c => if c = 0 then .ok p else (jsmn_step num_tokens js c p).bind (jsmn_loop js n)

/-- The number of tokens, or an error, and the tokens. -/
def jsmn_parse (js : List Byte) : Int × List jsmntok_t :=
  match jsmn_loop num_tokens js (js.length + 1) jsmn_init with
  | .error e => (e, [])
  | .ok p =>
    if p.tokens.any fun t => t.start ≠ npos ∧ t.end_ = npos then (JSMN_ERROR_PART, p.tokens)
    else (p.tokens.length, p.tokens)

/-! ## Where tokens are -/

variable {num_tokens}

/-- The tokens have their places in front of a position, and in this order. -/
structure Placed (num_tokens : Nat) (js : List Byte) (pos : Nat) (tokens : List jsmntok_t) : Prop where
  fits : tokens.length ≤ num_tokens
  inside : pos ≤ js.length
  begins : ∀ t ∈ tokens, t.start < pos
  ends : ∀ t ∈ tokens, t.end_ = npos ∨ (t.start ≤ t.end_ ∧ t.end_ ≤ pos)
  ascending : tokens.Pairwise fun s t => s.start < t.start

theorem primitive_len_le (l : List Byte) (n : Nat) (h : primitive_len l = some n) : n ≤ l.length := by
  induction l generalizing n with
  | nil =>
    cases h
    exact Nat.le_refl _
  | cons b bs ih =>
    unfold primitive_len at h
    split at h
    · cases h
      exact Nat.zero_le _
    · split at h
      · cases h
      · obtain ⟨m, hm, rfl⟩ := Option.map_eq_some_iff.mp h
        have := ih m hm
        rw [List.length_cons]
        omega

theorem map_add_lt (o : Option Nat) (k m n : Nat) (h : o.map (· + k) = some n)
    (ih : ∀ j, o = some j → j < m) : n < m + k := by
  obtain ⟨j, hj, rfl⟩ := Option.map_eq_some_iff.mp h
  have := ih j hj
  omega

theorem string_len_lt (k : Nat) (l : List Byte) (n : Nat) (h : string_len k l = some n) :
    n < l.length := by
  fun_induction string_len k l generalizing n with
  | case1 => cases h
  | case2 => cases h
  | case3 k b bs hb hhex ih => exact map_add_lt _ 1 _ n h ih
  | case4 => cases h
  | case5 => cases h
  | case6 =>
    cases h
    exact Nat.succ_pos _
  | case7 => cases h
  | case8 hb hq bs ih => exact map_add_lt _ 2 _ n h ih
  | case9 hb hq b bs hu hesc ih => exact map_add_lt _ 2 _ n h ih
  | case10 => cases h
  | case11 b bs hb hq hesc ih => exact map_add_lt _ 1 _ n h ih

section
variable {js : List Byte} {pos : Nat} {tokens : List jsmntok_t}

theorem Placed.later (hp : Placed num_tokens js pos tokens) (next : Nat) (hnext : pos ≤ next)
    (hlen : next ≤ js.length) : Placed num_tokens js next tokens := by
  refine ⟨hp.fits, hlen, fun t ht => Nat.lt_of_lt_of_le (hp.begins t ht) hnext, ?_, hp.ascending⟩
  intro t ht
  rcases hp.ends t ht with he | ⟨hle, he⟩
  · exact Or.inl he
  · exact Or.inr ⟨hle, Nat.le_trans he hnext⟩

theorem Placed.snoc (hp : Placed num_tokens js pos tokens) (t : jsmntok_t) (next : Nat)
    (hfit : tokens.length < num_tokens) (hpos : pos ≤ t.start) (hnext : t.start < next)
    (hlen : next ≤ js.length) (hend : t.end_ = npos ∨ (t.start ≤ t.end_ ∧ t.end_ ≤ next)) :
    Placed num_tokens js next (tokens ++ [t]) := by
  have hlater := hp.later next (by omega) hlen
  refine ⟨?_, hlen, ?_, ?_, ?_⟩
  · rw [List.length_append, List.length_singleton]
    exact hfit
  · intro s hs
    rcases List.mem_append.mp hs with hs | hs
    · exact hlater.begins s hs
    · rw [List.mem_singleton.mp hs]
      exact hnext
  · intro s hs
    rcases List.mem_append.mp hs with hs | hs
    · exact hlater.ends s hs
    · rw [List.mem_singleton.mp hs]
      exact hend
  · refine List.pairwise_append.mpr ⟨hp.ascending, List.pairwise_singleton .., ?_⟩
    intro s hs u hu
    rw [List.mem_singleton.mp hu]
    have := hp.begins s hs
    omega

theorem Placed.close (hp : Placed num_tokens js pos tokens) (i : Nat) (t : jsmntok_t)
    (ht : tokens[i]? = some t) : Placed num_tokens js pos (tokens.set i { t with end_ := pos }) := by
  obtain ⟨hi, hget⟩ := List.getElem?_eq_some_iff.mp ht
  have hmem := List.mem_of_getElem? ht
  refine ⟨?_, hp.inside, ?_, ?_, ?_⟩
  · rw [List.length_set]
    exact hp.fits
  · intro s hs
    rcases List.mem_or_eq_of_mem_set hs with hs | rfl
    · exact hp.begins s hs
    · exact hp.begins t hmem
  · intro s hs
    rcases List.mem_or_eq_of_mem_set hs with hs | rfl
    · exact hp.ends s hs
    · exact Or.inr ⟨Nat.le_of_lt (hp.begins t hmem), Nat.le_refl _⟩
  · have hasc := List.pairwise_map.mpr hp.ascending
    have hsame : (tokens.set i { t with end_ := pos }).map jsmntok_t.start = tokens.map jsmntok_t.start := by
      rw [List.map_set]
      apply List.ext_getElem?
      intro j
      rw [List.getElem?_set, List.getElem?_map]
      split
      · rename_i hj
        rw [← hj, ht, List.length_map, if_pos hi]
        rfl
      · rfl
    rw [← hsame] at hasc
    exact List.pairwise_map.mp hasc

theorem mem_grown {p : jsmn_parser_t} {t : jsmntok_t} (ht : t ∈ (grown p).tokens) :
    ∃ s ∈ p.tokens, t.type = s.type ∧ t.start = s.start ∧ t.end_ = s.end_ := by
  unfold grown at ht
  split at ht
  · exact ⟨t, ht, rfl, rfl, rfl⟩
  · obtain ⟨j, hj⟩ := List.mem_iff_getElem?.mp ht
    rw [List.getElem?_modify] at hj
    obtain ⟨s, hs, rfl⟩ := Option.map_eq_some_iff.mp hj
    refine ⟨s, List.mem_of_getElem? hs, ?_⟩
    split <;> exact ⟨rfl, rfl, rfl⟩

theorem Placed.grown {p : jsmn_parser_t} (hp : Placed num_tokens js pos p.tokens) :
    Placed num_tokens js pos (grown p).tokens := by
  refine ⟨?_, hp.inside, ?_, ?_, ?_⟩
  · have hlen : (Quotes.grown p).tokens.length = p.tokens.length := by
      unfold Quotes.grown
      split
      · rfl
      · exact List.length_modify ..
    rw [hlen]
    exact hp.fits
  · intro t ht
    obtain ⟨s, hs, -, hstart, -⟩ := mem_grown ht
    rw [hstart]
    exact hp.begins s hs
  · intro t ht
    obtain ⟨s, hs, -, hstart, hend⟩ := mem_grown ht
    rw [hstart, hend]
    exact hp.ends s hs
  · have hasc := List.pairwise_map.mpr hp.ascending
    have hsame : (Quotes.grown p).tokens.map jsmntok_t.start = p.tokens.map jsmntok_t.start := by
      unfold Quotes.grown
      split
      · rfl
      apply List.ext_getElem?
      intro j
      rw [List.getElem?_map, List.getElem?_map, List.getElem?_modify]
      cases p.tokens[j]? with
      | none => rfl
      | some s => by_cases hj : p.toksuper = j <;> simp [hj]
    rw [← hsame] at hasc
    exact List.pairwise_map.mp hasc

end

section
variable {js : List Byte} {p q : jsmn_parser_t}

theorem scalar_placed (hp : Placed num_tokens js p.pos p.tokens) (type : jsmntype_t) (start n next : Nat)
    (hq : scalar num_tokens type start n next p = .ok q) (hpos : p.pos ≤ start) (hnext : start < next)
    (hend : start + n ≤ next) (hlen : next ≤ js.length) : Placed num_tokens js q.pos q.tokens := by
  unfold scalar jsmn_alloc_token at hq
  split at hq
  · cases hq
  · rename_i r hr
    split at hr
    · cases hr
    · rename_i hfit
      cases hr
      cases hq
      exact Placed.grown (p := { p with tokens := p.tokens ++ [_] })
        (hp.snoc _ next (by omega) hpos hnext hlen (Or.inr ⟨Nat.le_add_right .., hend⟩))

theorem opened_placed (hp : Placed num_tokens js p.pos p.tokens) (type : jsmntype_t)
    (hq : opened num_tokens type p = .ok q) (hlt : p.pos < js.length) :
    Placed num_tokens js q.pos q.tokens := by
  unfold opened jsmn_alloc_token at hq
  split at hq
  · cases hq
  · rename_i r hr
    split at hr
    · cases hr
    · rename_i hfit
      cases hr
      cases hq
      exact Placed.grown (p := { p with tokens := p.tokens ++ [_] })
        (hp.snoc _ (p.pos + 1) (by omega) (Nat.le_refl _) (Nat.lt_succ_self _) hlt (Or.inl rfl))

theorem closed_placed (hp : Placed num_tokens js p.pos p.tokens) (type : jsmntype_t) (n i : Nat)
    (hq : closed type p n i = .ok q) (hlt : p.pos < js.length) :
    Placed num_tokens js q.pos q.tokens := by
  have hlater := hp.later (p.pos + 1) (Nat.le_succ _) hlt
  fun_induction closed type p n i with
  | case1 => cases hq
  | case2 => cases hq
  | case3 => cases hq
  | case4 n i t ht =>
    cases hq
    exact hlater.close i t ht
  | case5 => cases hq
  | case6 =>
    cases hq
    exact hlater
  | case7 n i t ht hopen hroot ih => exact ih hq

theorem jsmn_step_placed (hp : Placed num_tokens js p.pos p.tokens) (c : Byte) (hc0 : c ≠ 0)
    (hc : js[p.pos]? = some c) (hq : jsmn_step num_tokens js c p = .ok q) :
    Placed num_tokens js q.pos q.tokens := by
  obtain ⟨hlt, hget⟩ := List.getElem?_eq_some_iff.mp hc
  have hlater := hp.later (p.pos + 1) (Nat.le_succ _) hlt
  unfold jsmn_step at hq
  split at hq
  · exact opened_placed hp _ hq hlt
  split at hq
  · exact opened_placed hp _ hq hlt
  split at hq
  · exact closed_placed hp _ _ _ hq hlt
  split at hq
  · exact closed_placed hp _ _ _ hq hlt
  split at hq
  · unfold jsmn_parse_string at hq
    split at hq
    · cases hq
    · rename_i n hn
      have hlen := string_len_lt _ _ _ hn
      rw [List.length_drop] at hlen
      exact scalar_placed hp _ _ _ _ hq (by omega) (by omega) (by omega) (by omega)
  split at hq
  · cases hq
    exact hlater
  split at hq
  · cases hq
    exact hlater
  split at hq
  · cases hq
    unfold comma
    split
    · exact hlater
    · split
      · exact hlater
      · split <;> exact hlater
  · rename_i h1 h2 h3 h4 h5 h6 h7 h8
    unfold jsmn_parse_primitive at hq
    split at hq
    · cases hq
    · rename_i n hn
      have hlen := primitive_len_le _ _ hn
      rw [List.length_drop] at hlen
      have hfirst : c ∉ ascii ":\t\r\n ,]\x7d" := by
        simp only [ascii, chr] at *
        simp_all
      -- a primitive is not empty
      rw [List.drop_eq_getElem_cons hlt, hget, primitive_len, if_neg (by tauto)] at hn
      split at hn
      · cases hn
      · obtain ⟨m, hm, rfl⟩ := Option.map_eq_some_iff.mp hn
        exact scalar_placed hp _ _ _ _ hq (Nat.le_refl _) (by omega) (Nat.le_refl _) (by omega)

theorem jsmn_step_error (c : Byte) (e : Int) (h : jsmn_step num_tokens js c p = .error e) : e < 0 := by
  have hclosed : ∀ type n i, closed type p n i = .error e → e < 0 := by
    intro type n i he
    fun_induction closed type p n i with
    | case1 => cases he; decide
    | case2 => cases he; decide
    | case3 => cases he; decide
    | case4 => cases he
    | case5 => cases he; decide
    | case6 => cases he
    | case7 n i t ht hopen hroot ih => exact ih he
  have hopened : ∀ type, opened num_tokens type p = .error e → e < 0 := by
    intro type he
    unfold opened at he
    split at he
    · cases he; decide
    · cases he
  have hscalar : ∀ type start n next, scalar num_tokens type start n next p = .error e → e < 0 := by
    intro type start n next he
    unfold scalar at he
    split at he
    · cases he; decide
    · cases he
  unfold jsmn_step at h
  split at h
  · exact hopened _ h
  split at h
  · exact hopened _ h
  split at h
  · exact hclosed _ _ _ h
  split at h
  · exact hclosed _ _ _ h
  split at h
  · unfold jsmn_parse_string at h
    split at h
    · cases h; decide
    · exact hscalar _ _ _ _ h
  split at h
  · cases h
  split at h
  · cases h
  split at h
  · cases h
  · unfold jsmn_parse_primitive at h
    split at h
    · cases h; decide
    · exact hscalar _ _ _ _ h

theorem jsmn_loop_error (fuel : Nat) (e : Int) (h : jsmn_loop num_tokens js fuel p = .error e) :
    e < 0 := by
  induction fuel generalizing p with
  | zero => cases h
  | succ fuel ih =>
    unfold jsmn_loop at h
    split at h
    · cases h
    · split at h
      · cases h
      · rename_i c hc hc0
        cases hs : jsmn_step num_tokens js c p with
        | error x =>
          rw [hs] at h
          cases h
          exact jsmn_step_error c _ hs
        | ok r =>
          rw [hs] at h
          exact ih h

theorem jsmn_loop_placed (fuel : Nat) (hp : Placed num_tokens js p.pos p.tokens)
    (hq : jsmn_loop num_tokens js fuel p = .ok q) : Placed num_tokens js q.pos q.tokens := by
  induction fuel generalizing p with
  | zero =>
    cases hq
    exact hp
  | succ fuel ih =>
    unfold jsmn_loop at hq
    split at hq
    · cases hq
      exact hp
    · rename_i c hc
      split at hq
      · cases hq
        exact hp
      · rename_i hc0
        cases hs : jsmn_step num_tokens js c p with
        | error e =>
          rw [hs] at hq
          cases hq
        | ok r =>
          rw [hs] at hq
          exact ih (jsmn_step_placed hp c hc0 hc hs) hq

theorem jsmn_parse_placed (hlen : js.length ≤ npos) (r : Int) (ts : List jsmntok_t)
    (h : jsmn_parse num_tokens js = (r, ts)) (hr : 0 ≤ r) :
    r = ts.length ∧ ts.length ≤ num_tokens ∧ ts.Pairwise (fun s t => s.start < t.start) ∧
      ∀ t ∈ ts, t.start < js.length ∧ t.start ≤ t.end_ ∧ t.end_ ≤ js.length := by
  unfold jsmn_parse at h
  split at h
  · rename_i e he
    cases h
    exact absurd (jsmn_loop_error _ _ he) (by omega)
  · rename_i p hp
    have hplaced := jsmn_loop_placed _ ⟨Nat.zero_le _, Nat.zero_le _, by simp [jsmn_init],
      by simp [jsmn_init], by simp [jsmn_init]⟩ hp
    split at h
    · cases h
      exact absurd hr (by decide)
    · rename_i hany
      cases h
      refine ⟨rfl, hplaced.fits, hplaced.ascending, fun t ht => ?_⟩
      have hin := hplaced.inside
      have hbegins := hplaced.begins t ht
      rcases hplaced.ends t ht with he | ⟨hle, he⟩
      · refine absurd (List.any_eq_true.mpr ⟨t, ht, ?_⟩) hany
        rw [decide_eq_true_eq]
        exact ⟨by omega, he⟩
      · exact ⟨by omega, hle, by omega⟩

/-! ## Where primitives end -/

/-- A primitive is not empty, and what is behind it is no digit. -/
def Ended (js : List Byte) (t : jsmntok_t) : Prop :=
  t.type = JSMN_PRIMITIVE → t.start < t.end_ ∧ ∀ b ∈ (js.drop t.end_).head?, isDigit 10 b = false

theorem primitive_len_stops (l : List Byte) (n : Nat) (h : primitive_len l = some n) :
    ∀ b ∈ (l.drop n).head?, isDigit 10 b = false := by
  have hall : (ascii ":\t\r\n ,]\x7d").all (fun b => !isDigit 10 b) = true := by decide
  have hstops : ∀ b ∈ ascii ":\t\r\n ,]\x7d", isDigit 10 b = false := by
    simpa only [List.all_eq_true, Bool.not_eq_true'] using hall
  induction l generalizing n with
  | nil => simp
  | cons b bs ih =>
    unfold primitive_len at h
    split at h
    · rename_i hb
      cases h
      intro c hc
      obtain rfl : b = c := Option.some.inj hc
      rcases hb with rfl | hb
      · decide
      · exact hstops b hb
    · split at h
      · cases h
      · obtain ⟨m, hm, rfl⟩ := Option.map_eq_some_iff.mp h
        exact ih m hm

theorem grown_ended (hp : ∀ t ∈ p.tokens, Ended js t) : ∀ t ∈ (grown p).tokens, Ended js t := by
  intro t ht
  obtain ⟨s, hs, htype, hstart, hend⟩ := mem_grown ht
  unfold Ended
  rw [htype, hstart, hend]
  exact hp s hs

theorem snoc_ended {tokens : List jsmntok_t} (hp : ∀ t ∈ tokens, Ended js t) {t : jsmntok_t} (ht : Ended js t) :
    ∀ u ∈ tokens ++ [t], Ended js u := by
  intro u hu
  rcases List.mem_append.mp hu with hu | hu
  · exact hp u hu
  · rw [List.mem_singleton.mp hu]
    exact ht

theorem scalar_ended (hp : ∀ t ∈ p.tokens, Ended js t) (type : jsmntype_t) (start n next : Nat)
    (hq : scalar num_tokens type start n next p = .ok q)
    (hend : type = JSMN_PRIMITIVE → 0 < n ∧ ∀ b ∈ (js.drop (start + n)).head?, isDigit 10 b = false) :
    ∀ t ∈ q.tokens, Ended js t := by
  unfold scalar jsmn_alloc_token at hq
  split at hq
  · cases hq
  · rename_i r hr
    split at hr
    · cases hr
    · cases hr
      cases hq
      refine grown_ended (p := { p with tokens := p.tokens ++ [_] }) (snoc_ended hp fun htype => ?_)
      obtain ⟨hpos, hdigit⟩ := hend htype
      exact ⟨Nat.lt_add_of_pos_right hpos, hdigit⟩

theorem opened_ended (hp : ∀ t ∈ p.tokens, Ended js t) (type : jsmntype_t) (htype : type ≠ JSMN_PRIMITIVE)
    (hq : opened num_tokens type p = .ok q) : ∀ t ∈ q.tokens, Ended js t := by
  unfold opened jsmn_alloc_token at hq
  split at hq
  · cases hq
  · rename_i r hr
    split at hr
    · cases hr
    · cases hr
      cases hq
      exact grown_ended (p := { p with tokens := p.tokens ++ [_] }) (snoc_ended hp fun h => absurd h htype)

theorem closed_ended (hp : ∀ t ∈ p.tokens, Ended js t) (type : jsmntype_t) (htype : type ≠ JSMN_PRIMITIVE) (n i : Nat)
    (hq : closed type p n i = .ok q) : ∀ t ∈ q.tokens, Ended js t := by
  fun_induction closed type p n i with
  | case1 => cases hq
  | case2 => cases hq
  | case3 => cases hq
  | case4 n i t ht hopen heq =>
    cases hq
    intro u hu
    rcases List.mem_or_eq_of_mem_set hu with hu | rfl
    · exact hp u hu
    · exact fun h => absurd ((not_not.mp heq).symm.trans h) htype
  | case5 => cases hq
  | case6 =>
    cases hq
    exact hp
  | case7 n i t ht hopen hroot ih => exact ih hq

theorem jsmn_step_ended (hp : ∀ t ∈ p.tokens, Ended js t) (c : Byte) (hc0 : c ≠ 0) (hc : js[p.pos]? = some c)
    (hq : jsmn_step num_tokens js c p = .ok q) : ∀ t ∈ q.tokens, Ended js t := by
  obtain ⟨hlt, hget⟩ := List.getElem?_eq_some_iff.mp hc
  unfold jsmn_step at hq
  split at hq
  · exact opened_ended hp _ (by decide) hq
  split at hq
  · exact opened_ended hp _ (by decide) hq
  split at hq
  · exact closed_ended hp _ (by decide) _ _ hq
  split at hq
  · exact closed_ended hp _ (by decide) _ _ hq
  split at hq
  · unfold jsmn_parse_string at hq
    split at hq
    · cases hq
    · exact scalar_ended hp _ _ _ _ hq fun h => by cases h
  split at hq
  · cases hq
    exact hp
  split at hq
  · cases hq
    exact hp
  split at hq
  · cases hq
    unfold comma
    split
    · exact hp
    · split
      · exact hp
      · split <;> exact hp
  · rename_i h1 h2 h3 h4 h5 h6 h7 h8
    unfold jsmn_parse_primitive at hq
    split at hq
    · cases hq
    · rename_i n hn
      have hstops := primitive_len_stops _ _ hn
      rw [List.drop_drop] at hstops
      have hfirst : c ∉ ascii ":\t\r\n ,]\x7d" := by
        simp only [ascii, chr] at *
        simp_all
      rw [List.drop_eq_getElem_cons hlt, hget, primitive_len, if_neg (by tauto)] at hn
      split at hn
      · cases hn
      · obtain ⟨m, hm, rfl⟩ := Option.map_eq_some_iff.mp hn
        exact scalar_ended hp _ _ _ _ hq fun _ => ⟨Nat.succ_pos m, hstops⟩

theorem jsmn_loop_ended (fuel : Nat) (hp : ∀ t ∈ p.tokens, Ended js t)
    (hq : jsmn_loop num_tokens js fuel p = .ok q) : ∀ t ∈ q.tokens, Ended js t := by
  induction fuel generalizing p with
  | zero =>
    cases hq
    exact hp
  | succ fuel ih =>
    unfold jsmn_loop at hq
    split at hq
    · cases hq
      exact hp
    · rename_i c hc
      split at hq
      · cases hq
        exact hp
      · rename_i hc0
        cases hs : jsmn_step num_tokens js c p with
        | error e =>
          rw [hs] at hq
          cases hq
        | ok r =>
          rw [hs] at hq
          exact ih (jsmn_step_ended hp c hc0 hc hs) hq

theorem jsmn_parse_ended (r : Int) (ts : List jsmntok_t) (h : jsmn_parse num_tokens js = (r, ts)) :
    ∀ t ∈ ts, Ended js t := by
  unfold jsmn_parse at h
  split at h
  · cases h
    simp
  · rename_i p hp
    have hended := jsmn_loop_ended _ (by simp [jsmn_init]) hp
    split at h
    · cases h
      exact hended
    · cases h
      exact hended

end

end

end Coins.Quotes
