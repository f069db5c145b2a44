import Coins.Tinf.Trees

/-!
# Building trees

The loops of `tinf_build_tree` count the words of each length, give each length its place, and put the symbols there.
They go through exactly if the lengths are those of a code that deflate allows.
-/

open Coins.Bits Coins.Decoder Coins.Huffman

namespace Coins.Tinf

/-- The array begins with these lengths. -/
def Holds (a : List (Option Nat)) (ls : List Nat) : Prop := ∀ (i l : Nat), ls[i]? = some l → a[i]? = some (some l)

/-- `m` is the last symbol with a word; -1 if there is none. -/
structure Last (ls : List Nat) (m : Int) : Prop where
  le : ∀ s l : Nat, ls[s]? = some l → l ≠ 0 → (s : Int) ≤ m
  is : m = -1 ∨ ∃ s l : Nat, m = s ∧ ls[s]? = some l ∧ l ≠ 0

/-- `counts` of a tree. -/
def table (ls : List Nat) : List Nat := (List.range 16).map (counts ls)

theorem table_get {ls : List Nat} {k : Nat} (h : k ≤ 15) : (table ls)[k]? = some (counts ls k) := by
  rw [table, List.getElem?_map, List.getElem?_range (by omega)]
  rfl

theorem load_holds {a : List (Option Nat)} {ls : List Nat} (h : Holds a ls) {i l : Nat} (hi : ls[i]? = some l) :
    a[i]?.getD none = some l := by
  rw [h i l hi]
  rfl

/-! ## Counting -/

theorem table_snoc_zero (done : List Nat) : table (done ++ [0]) = table done := by
  apply List.map_congr_left
  intro k _
  unfold counts
  split
  · rfl
  · rename_i h
    rw [List.count_append, List.count_singleton]
    simp [Ne.symm h]

theorem table_snoc {done : List Nat} {l : Nat} (h0 : l ≠ 0) :
    table (done ++ [l]) = (table done).modify l (· + 1) := by
  apply List.ext_getElem?
  intro k
  rw [List.getElem?_modify, table, table, List.getElem?_map, List.getElem?_map]
  rcases Nat.lt_or_ge k 16 with hk | hk
  · rw [List.getElem?_range hk]
    simp only [Option.map_some]
    congr 1
    unfold counts
    by_cases hkl : l = k
    · subst hkl
      simp [h0]
    · simp [hkl]
  · rw [List.getElem?_eq_none (by simpa using hk)]
    rfl

theorem Last.snoc {done : List Nat} {m : Int} (h : Last done m) (l : Nat) :
    Last (done ++ [l]) (if l ≠ 0 then (done.length : Int) else m) := by
  split
  · rename_i h0
    refine ⟨fun s k hs _ => ?_, .inr ⟨done.length, l, rfl, by simp, h0⟩⟩
    have := (List.getElem?_eq_some_iff.mp hs).1
    rw [List.length_append, List.length_singleton] at this
    omega
  · rename_i h0
    obtain rfl : l = 0 := by simpa using h0
    refine ⟨fun s k hs hk => ?_, ?_⟩
    · rcases Nat.lt_or_ge s done.length with hlt | hge
      · rw [List.getElem?_append_left hlt] at hs
        exact h.le s k hs hk
      · rw [List.getElem?_append_right hge] at hs
        exact absurd (List.mem_singleton.mp (List.mem_of_getElem? hs)) hk
    · rcases h.is with hm | ⟨s, k, hm, hs, hk⟩
      · exact .inl hm
      · refine .inr ⟨s, k, hm, ?_, hk⟩
        rw [List.getElem?_append_left (List.getElem?_eq_some_iff.mp hs).1]
        exact hs

theorem count_lengths_spec {a : List (Option Nat)} (rest done : List Nat) (t : tinf_tree) (d : tinf_data)
    (ha : Holds a (done ++ rest)) (hle : ∀ l ∈ rest, l ≤ 15) (ht : t.counts = table done) (hm : Last done t.max_sym) :
    ∃ m, count_lengths a rest.length done.length t d
        = .ok (⟨table (done ++ rest), t.symbols, m⟩, d) ∧ Last (done ++ rest) m := by
  induction rest generalizing done t with
  | nil =>
    rw [List.append_nil]
    exact ⟨t.max_sym, by rw [← ht]; rfl, hm⟩
  | cons l rest ih =>
    have hl := hle l List.mem_cons_self
    have hload := load_holds ha (i := done.length) (l := l) (by simp)
    have hgo := ih (done ++ [l]) (if l ≠ 0 then { t with max_sym := done.length, counts := t.counts.modify l (· + 1) }
      else t)
      (by rwa [List.append_assoc]) (fun x hx => hle x (List.mem_cons_of_mem l hx)) ?_ ?_
    · obtain ⟨m, hrun, hlast⟩ := hgo
      rw [List.append_assoc, List.singleton_append, List.length_append, List.length_singleton] at hrun
      rw [List.append_assoc, List.singleton_append] at hlast
      refine ⟨m, ?_, hlast⟩
      rw [List.length_cons, count_lengths, load, must_bind hload, assert_bind hl, hrun]
      split <;> rfl
    · split
      · rename_i h0
        rw [table_snoc h0, ht]
      · rename_i h0
        obtain rfl : l = 0 := by simpa using h0
        rw [table_snoc_zero, ht]
    · have := hm.snoc l
      split at this <;> simp_all

/-! ## Offsets -/

theorem offset_table_spec (c : Nat → Nat) (n i : Nat) (d : tinf_data) :
    offset_table ((List.range' i n).map c) (free c i) (shorter c i) ((List.range i).map (shorter c)) d
      = if ∀ k, i ≤ k → k < i + n → c k ≤ free c k then
          .ok ((free c (i + n), shorter c (i + n), (List.range (i + n)).map (shorter c)), d)
        else .fail .TINF_DATA_ERROR := by
  induction n generalizing i with
  | zero =>
    rw [if_pos fun k h h' => by omega]
    rfl
  | succ n ih =>
    rw [List.range'_succ, List.map_cons, offset_table]
    have hsnoc : (List.range i).map (shorter c) ++ [shorter c i] = (List.range (i + 1)).map (shorter c) := by
      rw [List.range_succ, List.map_append]
      rfl
    by_cases hfit : c i ≤ free c i
    · have hrun := ih (i + 1)
      rw [if_neg (by omega), hsnoc, show 2 * (free c i - c i) = free c (i + 1) from rfl,
        show shorter c i + c i = shorter c (i + 1) from rfl, hrun, show i + 1 + n = i + (n + 1) by omega]
      congr 1
      apply propext
      constructor
      · intro h k hk hk'
        rcases Nat.eq_or_lt_of_le hk with rfl | hlt
        · exact hfit
        · exact h k hlt hk'
      · intro h k hk hk'
        exact h k (by omega) hk'
    · rw [if_pos (by omega), if_neg fun h => hfit (h i (le_refl i) (by omega))]
      rfl

theorem offset_table_eq (ls : List Nat) (d : tinf_data) :
    offset_table (table ls) 1 0 [] d
      = if ∀ k : Nat, k < 16 → counts ls k ≤ free (counts ls) k then
          .ok ((free (counts ls) 16, shorter (counts ls) 16, (List.range 16).map (shorter (counts ls))), d)
        else .fail .TINF_DATA_ERROR := by
  have h := offset_table_spec (counts ls) 16 0 d
  rw [← List.range_eq_range'] at h
  refine Eq.trans h (if_congr ?_ rfl rfl)
  exact ⟨fun h k hk => h k (Nat.zero_le k) (by omega), fun h k _ hk => h k (by omega)⟩

/-! ## Symbols -/

/-- The symbols below `i` are in their places. -/
def Placed (ls : List Nat) (i : Nat) (symbols : List (Option Nat)) : Prop :=
  ∀ s k, s < i → ls[s]? = some (k + 1) → symbols[place ls s]? = some (some s)

/-- Where the next symbol of each length goes. -/
def Next (ls : List Nat) (i : Nat) (offs : List Nat) : Prop :=
  ∀ k, k < 15 → offs[k + 1]? = some (shorter (counts ls) (k + 1) + (ls.take i).count (k + 1))

theorem fill_symbols_spec {a : List (Option Nat)} {ls : List Nat} (ha : Holds a ls) (hle : ∀ l ∈ ls, l ≤ 15)
    (hlen : ls.length ≤ 288) (n i : Nat) (hi : i + n = ls.length) (offs : List Nat) (symbols : List (Option Nat))
    (d : tinf_data) (hoffs : Next ls i offs) (hsym : Placed ls i symbols) (hsize : symbols.length = 288) :
    ∃ symbols', fill_symbols a n i offs symbols d = .ok (symbols', d) ∧ Placed ls ls.length symbols' ∧
      symbols'.length = 288 := by
  induction n generalizing i offs symbols with
  | zero =>
    obtain rfl : i = ls.length := hi
    exact ⟨symbols, rfl, hsym, hsize⟩
  | succ n ih =>
    obtain ⟨l, hget⟩ : ∃ l, ls[i]? = some l := ⟨_, List.getElem?_eq_getElem (by omega : i < ls.length)⟩
    have hl := hle l (List.mem_of_getElem? hget)
    have htake : ls.take (i + 1) = ls.take i ++ [l] := by
      rw [List.take_add_one, hget]
      rfl
    rw [fill_symbols, load, must_bind (load_holds ha hget)]
    cases l with
    | zero =>
      rw [if_neg (by simp)]
      refine ih (i + 1) (by omega) offs symbols (fun k hk => ?_) (fun s k hs hk => ?_) hsize
      · rw [htake, List.count_append, hoffs k hk]
        simp
      · rcases Nat.lt_succ_iff_lt_or_eq.mp hs with hlt | rfl
        · exact hsym s k hlt hk
        · rw [hget] at hk
          cases hk
    | succ l =>
      have hplace := place_eq hget
      have hbound : place ls i < symbols.length := by
        have hlt := (place_lt hget).trans_le (shorter_mono (c := counts ls) (by omega : l + 2 ≤ 16))
        rw [shorter_length hle] at hlt
        have := List.length_filter_le (fun x => decide (x ≠ 0)) ls
        omega
      rw [if_pos (Nat.succ_ne_zero l), must_bind (hoffs l (by omega)), ← hplace, bind_apply, store, assert_bind hbound]
      refine ih (i + 1) (by omega) _ _ (fun k hk => ?_) (fun s k hs hk => ?_) (by simpa using hsize)
      · have hlong : l + 1 < offs.length := (List.getElem?_eq_some_iff.mp (hoffs l (by omega))).1
        rw [htake, List.count_append, List.getElem?_set, hoffs k hk]
        by_cases hkl : l = k
        · subst hkl
          simp [hlong, hplace, Nat.add_assoc]
        · simp [hkl]
      · rw [List.getElem?_set]
        rcases Nat.lt_succ_iff_lt_or_eq.mp hs with hlt | rfl
        · rw [if_neg fun h => absurd (place_inj hk hget h.symm) (by omega)]
          exact hsym s k hlt hk
        · rw [if_pos rfl, if_pos hbound]

/-! ## One word -/

theorem one_word {ls : List Nat} {l : Nat} (h : ls.filter (· ≠ 0) = [l]) :
    ∃ m j, ls = List.replicate m 0 ++ l :: List.replicate j 0 := by
  obtain ⟨front, back, rfl, hfront, -, hback⟩ := List.filter_eq_cons_iff.mp h
  refine ⟨front.length, back.length, ?_⟩
  congr 1
  · exact List.eq_replicate_of_mem fun x hx => by simpa using hfront x hx
  · congr 1
    refine List.eq_replicate_of_mem fun x hx => ?_
    have := List.filter_eq_nil_iff.mp hback x hx
    simpa using this

theorem get_one {m s l k : Nat} {back : List Nat} (h : (List.replicate m 0 ++ l :: back)[s]? = some (k + 1))
    (hs : s ≤ m) :
    s = m ∧ l = k + 1 := by
  rcases Nat.lt_or_eq_of_le hs with hlt | rfl
  · rw [List.getElem?_append_left (by simpa using hlt), List.getElem?_replicate, if_pos hlt] at h
    cases h
  · rw [List.getElem?_append_right (by simp)] at h
    simpa using h

theorem word_one {m s : Nat} (back : List Nat) (hs : s ≤ m) (w : List Bool) :
    Word (List.replicate m 0 ++ 1 :: back) s w ↔ s = m ∧ w = [false] := by
  have htake : (List.replicate m 0 ++ 1 :: back).take m = List.replicate m 0 := by
    rw [List.take_left' (by simp)]
  constructor
  · rintro ⟨k, hk, rfl⟩
    obtain ⟨rfl, hl⟩ := get_one hk hs
    obtain rfl : k = 0 := by omega
    rw [htake]
    exact ⟨rfl, by simp [first, counts, msb, List.count_replicate]⟩
  · rintro ⟨rfl, rfl⟩
    refine ⟨0, by simp, ?_⟩
    rw [htake]
    simp [first, counts, msb, List.count_replicate]

theorem built_one {m j : Nat} {symbols : List (Option Nat)}
    (hsym : Placed (List.replicate m 0 ++ 1 :: List.replicate j 0) (m + 1) symbols) (hsize : symbols.length = 288)
    (x : Int) :
    Built ⟨(table (List.replicate m 0 ++ 1 :: List.replicate j 0)).set 1 2, symbols.set 1 (some (m + 1)), x⟩
      (List.replicate m 0 ++ [1, 1]) := by
  have hle : ∀ l ∈ List.replicate m 0 ++ [1, 1], l ≤ 15 := by
    intro l hl
    rcases List.mem_append.mp hl with h | h
    · rw [List.eq_of_mem_replicate h]
      exact Nat.zero_le _
    · have : l = 1 := by simpa using h
      omega
  have hkraft : kraft 15 (List.replicate m 0 ++ [1, 1]) = 2 ^ 15 := by
    rw [← kraft_filter, List.filter_append, List.filter_replicate]
    rfl
  have hfree := counts_le_free hle (Nat.le_of_eq hkraft)
  have hplace : place (List.replicate m 0 ++ 1 :: List.replicate j 0) m = 0 := by
    rw [place_eq (k := 1) (by simp), List.take_left' (by simp), List.count_replicate]
    rfl
  have hzero := hsym m 0 (Nat.lt_succ_self m) (by simp)
  rw [hplace] at hzero
  refine ⟨fun k hk => ?_, fun s k hs => ?_, by simpa using hsize, hle, hfree, (full_iff hle hfree).mpr hkraft⟩
  · rw [List.getElem?_set, table_get hk]
    unfold counts
    by_cases h1 : k = 1
    · subst h1
      simp [table, List.count_replicate]
    · rw [if_neg (Ne.symm h1)]
      by_cases h0 : k = 0
      · simp [h0]
      · simp [List.count_replicate, Ne.symm h1, Ne.symm h0]
  · rcases Nat.lt_or_ge m s with hlt | hge
    · rw [List.getElem?_append_right (by simp; omega), List.length_replicate] at hs
      obtain ⟨i, rfl⟩ : ∃ i, s = m + 1 + i := ⟨s - (m + 1), by omega⟩
      rw [show m + 1 + i - m = i + 1 by omega, List.getElem?_cons_succ] at hs
      obtain rfl : i = 0 := by
        have := (List.getElem?_eq_some_iff.mp hs).1
        simpa using this
      have hone : place (List.replicate m 0 ++ [1, 1]) (m + 1) = 1 := by
        rw [place_eq (k := 1) (by simp), show List.replicate m 0 ++ [1, 1] = (List.replicate m 0 ++ [1]) ++ [1] by simp,
          List.take_left' (by simp), List.count_append, List.count_replicate]
        rfl
      rw [Nat.add_zero, hone, List.getElem?_set, if_pos rfl, if_pos (by omega)]
    · obtain ⟨rfl, hk⟩ := get_one hs hge
      have hnone : place (List.replicate s 0 ++ [1, 1]) s = 0 := by
        rw [place_eq (k := 1) (by simp), List.take_left' (by simp), List.count_replicate]
        rfl
      rw [hnone, List.getElem?_set, if_neg (by omega), hzero]

/-! ## The tree -/

/-- What a tree is used for: it finds the symbols up to `max_sym`. -/
structure Served (t : tinf_tree) (ls : List Nat) : Prop where
  last : Last ls t.max_sym
  size : t.symbols.length = 288
  built : t.max_sym ≠ -1 → ∃ full, Built t full ∧
    ∀ s : Nat, (s : Int) ≤ t.max_sym → ∀ w, Word full s w ↔ Word ls s w

theorem single {ls : List Nat} {l : Nat} (h : ls.filter (· ≠ 0) = [l]) : kraft 15 ls ≠ 2 ^ 15 := by
  have hmem : l ∈ ls.filter (· ≠ 0) := by
    rw [h]
    exact List.mem_singleton_self l
  have hpos : l ≠ 0 := by simpa using (List.mem_filter.mp hmem).2
  have hlt : 2 ^ (15 - l) < 2 ^ 15 := Nat.pow_lt_pow_right (by omega) (by omega)
  rw [← kraft_filter, h]
  simp only [kraft, List.map_cons, List.map_nil, List.sum_cons, List.sum_nil, if_neg hpos]
  omega

theorem usable_iff {ls : List Nat} (hle : ∀ l ∈ ls, l ≤ 15) :
    Usable ls ↔ (∀ k : Nat, k < 16 → counts ls k ≤ free (counts ls) k) ∧
      ¬ ((shorter (counts ls) 16 > 1 ∧ free (counts ls) 16 > 0) ∨
        (shorter (counts ls) 16 = 1 ∧ (table ls)[1]? ≠ some 1)) := by
  have hnum := shorter_length hle
  have hone : (table ls)[1]? = some (counts ls 1) := table_get (by omega)
  rw [hnum, hone]
  constructor
  · rintro ⟨-, h⟩
    have hkraft : kraft 15 ls ≤ 2 ^ 15 := by
      rcases h with h | h | h
      · exact Nat.le_of_eq h
      · rw [← kraft_filter, h]
        decide
      · rw [← kraft_filter, h]
        decide
    have hfree := counts_le_free hle hkraft
    refine ⟨fun k hk => hfree k (by omega), ?_⟩
    rintro (⟨hmany, hpos⟩ | ⟨hsingle, hne⟩)
    · rcases h with h | h | h
      · have hnone : free (counts ls) 16 = 0 := (full_iff hle hfree).mpr h
        omega
      · rw [h] at hmany
        exact absurd hmany (by decide)
      · rw [h] at hmany
        exact absurd hmany (by decide)
    · obtain ⟨l, hl⟩ := List.length_eq_one_iff.mp hsingle
      apply hne
      rcases h with h | h | h
      · exact absurd h (single hl)
      · rw [show counts ls 1 = ls.count 1 from rfl, ← List.count_filter (p := fun x => decide (x ≠ 0)) (by decide), h]
        rfl
      · rw [h] at hl
        cases hl
  · rintro ⟨hfits, hchecks⟩
    have hfree : ∀ k ≤ 15, counts ls k ≤ free (counts ls) k := fun k hk => hfits k (by omega)
    refine ⟨hle, ?_⟩
    rcases Nat.lt_trichotomy (ls.filter (· ≠ 0)).length 1 with hlen | hlen | hlen
    · exact .inr (.inr (List.length_eq_zero_iff.mp (by omega)))
    · obtain ⟨l, hl⟩ := List.length_eq_one_iff.mp hlen
      have hcount : counts ls 1 = 1 := by
        by_contra hne
        exact hchecks (.inr ⟨hlen, by simpa using hne⟩)
      rw [show counts ls 1 = ls.count 1 from rfl, ← List.count_filter (p := fun x => decide (x ≠ 0)) (by decide), hl,
        List.count_singleton] at hcount
      by_cases h1 : l = 1
      · exact .inr (.inl (h1 ▸ hl))
      · simp [h1] at hcount
    · refine .inl ((full_iff hle hfree).mp ?_)
      by_contra hpos
      exact hchecks (.inl ⟨hlen, Nat.pos_of_ne_zero hpos⟩)

theorem Last.eq_of_get {ls : List Nat} {m : Int} (h : Last ls m) {i l : Nat} (hi : ls[i]? = some l) (h0 : l ≠ 0)
    (hbehind : ∀ s k : Nat, i < s → ls[s]? = some k → k = 0) : m = i := by
  have hle := h.le i l hi h0
  rcases h.is with rfl | ⟨s, k, rfl, hs, hk⟩
  · omega
  · by_contra hne
    exact hk (hbehind s k (by omega) hs)

theorem served_full {ls : List Nat} {m : Int} {symbols : List (Option Nat)} (hle : ∀ l ∈ ls, l ≤ 15) (hlast : Last ls m)
    (hsym : Placed ls ls.length symbols) (hsize : symbols.length = 288) (husable : Usable ls)
    (hnum : (ls.filter (· ≠ 0)).length ≠ 1) : Served ⟨table ls, symbols, m⟩ ls := by
  refine ⟨hlast, hsize, fun hm => ⟨ls, ?_, fun _ _ _ => Iff.rfl⟩⟩
  have hkraft : kraft 15 ls = 2 ^ 15 := by
    rcases husable.2 with h | h | h
    · exact h
    · rw [h] at hnum
      exact absurd rfl hnum
    · rcases hlast.is with h' | ⟨s, l, -, hs, hl⟩
      · exact absurd h' hm
      · have := List.filter_eq_nil_iff.mp h l (List.mem_of_getElem? hs)
        exact absurd (by simpa using hl) this
  have hfree := counts_le_free hle (Nat.le_of_eq hkraft)
  exact ⟨fun k hk => table_get hk, fun s k hs => hsym s k (List.getElem?_eq_some_iff.mp hs).1 hs, hsize, hle, hfree,
    (full_iff hle hfree).mpr hkraft⟩

theorem served_one {ls : List Nat} {m : Int} {symbols : List (Option Nat)} (hlast : Last ls m)
    (hsym : Placed ls ls.length symbols) (hsize : symbols.length = 288) (hone : ls.filter (· ≠ 0) = [1]) :
    Served ⟨(table ls).set 1 2, symbols.set 1 (some (m + 1).toNat), m⟩ ls := by
  obtain ⟨i, j, rfl⟩ := one_word hone
  obtain rfl : m = i := hlast.eq_of_get (l := 1) (by simp) (by omega) fun s k hs hk => by
    rw [List.getElem?_append_right (by simp; omega), List.length_replicate,
      show s - i = s - i - 1 + 1 by omega, List.getElem?_cons_succ] at hk
    exact List.eq_of_mem_replicate (List.mem_of_getElem? hk)
  refine ⟨hlast, by simpa using hsize, fun _ => ⟨List.replicate i 0 ++ [1, 1], ?_, fun s hs w => ?_⟩⟩
  · exact built_one (fun s k hs hk => hsym s k (List.getElem?_eq_some_iff.mp hk).1 hk) hsize i
  · have hle : s ≤ i := Int.ofNat_le.mp hs
    rw [word_one _ hle, word_one _ hle]

theorem build_tree_spec {a : List (Option Nat)} {ls : List Nat} (ha : Holds a ls) (hle : ∀ l ∈ ls, l ≤ 15)
    (hlen : ls.length ≤ 288) (t : tinf_tree) (ht : t.symbols.length = 288) (d : tinf_data) :
    (Usable ls ∧ ∃ u, tinf_build_tree t a ls.length d = .ok (u, d) ∧ Served u ls) ∨
      (¬ Usable ls ∧ tinf_build_tree t a ls.length d = .fail .TINF_DATA_ERROR) := by
  obtain ⟨m, hcount, hlast⟩ := count_lengths_spec ls []
    { t with counts := List.replicate 16 0, max_sym := -1 } d ha hle rfl ⟨nofun, .inl rfl⟩
  rw [List.nil_append, List.length_nil] at hcount
  rw [List.nil_append] at hlast
  have hoffs := offset_table_eq ls d
  have hnum : shorter (counts ls) 16 = (ls.filter (· ≠ 0)).length := shorter_length hle
  have husable := usable_iff hle
  rw [tinf_build_tree, assert_bind hlen, bind_ok hcount]
  by_cases hfits : ∀ k : Nat, k < 16 → counts ls k ≤ free (counts ls) k
  · rw [if_pos hfits] at hoffs
    rw [bind_ok hoffs]
    dsimp only
    by_cases hbad : (shorter (counts ls) 16 > 1 ∧ free (counts ls) 16 > 0) ∨
        (shorter (counts ls) 16 = 1 ∧ (table ls)[1]? ≠ some 1)
    · rw [if_pos hbad]
      exact .inr ⟨fun h => (husable.mp h).2 hbad, rfl⟩
    · have hok := husable.mpr ⟨hfits, hbad⟩
      have hnext : Next ls 0 ((List.range 16).map (shorter (counts ls))) := fun k hk => by
        rw [List.getElem?_map, List.getElem?_range (by omega)]
        rfl
      obtain ⟨symbols, hfill, hplaced, hsize⟩ :=
        fill_symbols_spec ha hle hlen ls.length 0 (by omega) _ t.symbols d hnext nofun ht
      rw [if_neg hbad, bind_ok hfill]
      refine .inl ⟨hok, ?_⟩
      by_cases hone : shorter (counts ls) 16 = 1
      · rw [if_pos hone, bind_apply, store, assert_bind (by omega : 1 < symbols.length)]
        refine ⟨_, rfl, served_one hlast hplaced hsize ?_⟩
        rw [hnum] at hone
        obtain ⟨l, hl⟩ := List.length_eq_one_iff.mp hone
        rcases hok.2 with h | h | h
        · exact absurd h (single hl)
        · exact h
        · rw [h] at hl
          cases hl
      · rw [if_neg hone]
        exact ⟨_, rfl, served_full hle hlast hplaced hsize hok (hnum ▸ hone)⟩
  · rw [if_neg hfits] at hoffs
    rw [bind_fail hoffs]
    exact .inr ⟨fun h => hfits (husable.mp h).1, rfl⟩

end Coins.Tinf
