import Coins.Tinf.Build

/-!
# Trees from the stream

A block can bring the lengths of its codes along, under a code whose lengths come first.
-/

open Coins.Bits Coins.Decoder Coins.Huffman

namespace Coins.Tinf

theorem Served.reads {t : tinf_tree} {ls : List Nat} (h : Served t ls) (hm : t.max_sym ≠ -1) :
    ∃ full A, (∀ d, Good d → Reads seen d (tinf_decode_symbol t d) (Is A) (Symbol full)) ∧
      ∀ s : Nat, (s : Int) ≤ t.max_sym → ∀ p q, Symbol full p s q ↔ Symbol ls p s q := by
  obtain ⟨full, hbuilt, hword⟩ := h.built hm
  refine ⟨full, _, fun d hd => decode_symbol_reads hbuilt d hd, fun s hs p q => ?_⟩
  simp only [Symbol, hword s hs]

theorem Served.le {t : tinf_tree} {ls : List Nat} (h : Served t ls) {s : Nat} {p q : Point} (hs : Symbol ls p s q) :
    (s : Int) ≤ t.max_sym := by
  obtain ⟨w, ⟨k, hk, -⟩, -⟩ := hs
  exact h.last.le s (k + 1) hk (Nat.succ_ne_zero k)

theorem Served.some_iff {t : tinf_tree} {ls : List Nat} (h : Served t ls) : t.max_sym ≠ -1 ↔ ∃ l ∈ ls, l ≠ 0 := by
  constructor
  · intro hm
    rcases h.last.is with h | ⟨s, l, -, hs, hl⟩
    · exact absurd h hm
    · exact ⟨l, List.mem_of_getElem? hs, hl⟩
  · rintro ⟨l, hmem, hl⟩ hm
    obtain ⟨s, hs⟩ := List.mem_iff_getElem?.mp hmem
    have := h.last.le s l hs hl
    omega

/-- The tree is one for the symbols below `n`; the others are not used. -/
structure Serves (n : Nat) (t : tinf_tree) (ls : List Nat) : Prop where
  le : ∀ (s : Nat) p q, s < n → Symbol ls p s q → (s : Int) ≤ t.max_sym
  reads : t.max_sym ≠ -1 → ∃ full A, (∀ d, Good d → Reads seen d (tinf_decode_symbol t d) (Is A) (Symbol full)) ∧
    ∀ s : Nat, (s : Int) ≤ t.max_sym → ∀ p q, Symbol full p s q ↔ Symbol ls p s q

theorem Served.serves {t : tinf_tree} {ls : List Nat} (h : Served t ls) (n : Nat) : Serves n t ls :=
  ⟨fun _ _ _ _ hs => h.le hs, h.reads⟩

/-! ## The first code -/

/-- The lengths `vs` written from the `i`-th place of the order on. -/
def written : Nat → List Nat → List (Option Nat) → List (Option Nat)
  | _, [], a => a
  | i, v :: vs, a => written (i + 1) vs (a.set (clcidx.getD i 0) (some v))

@[simp] theorem written_length (i : Nat) (vs : List Nat) (a : List (Option Nat)) :
    (written i vs a).length = a.length := by
  induction vs generalizing i a with
  | nil => rfl
  | cons v vs ih => rw [written, ih, List.length_set]

theorem ordered_get {clens : List Nat} {s : Nat} (hs : s < 19) :
    (ordered clens)[s]? = some (clens.getD (clcidx.idxOf s) 0) := by
  rw [ordered, List.getElem?_map, List.getElem?_range hs]
  rfl

theorem ordered_length (clens : List Nat) : (ordered clens).length = 19 := by
  rw [ordered, List.length_map, List.length_range]

theorem clcidx_idxOf : ∀ i < 19, ∀ s < 19, clcidx.idxOf s = i ↔ clcidx.getD i 0 = s := by decide

theorem holds_set {a : List (Option Nat)} {vs : List Nat} (h : Holds a (ordered vs)) (hi : vs.length < 19) (v : Nat) :
    Holds (a.set (clcidx.getD vs.length 0) (some v)) (ordered (vs ++ [v])) := by
  intro s l hl
  have hs : s < 19 := by
    have := (List.getElem?_eq_some_iff.mp hl).1
    rwa [ordered_length] at this
  rw [ordered_get hs, List.getD_eq_getElem?_getD] at hl
  have hold := h s _ (ordered_get hs)
  rw [List.getD_eq_getElem?_getD] at hold
  rw [List.getElem?_set]
  by_cases hk : clcidx.getD vs.length 0 = s
  · have hidx := (clcidx_idxOf vs.length hi s hs).mpr hk
    rw [hidx] at hl
    have hlong : clcidx.getD vs.length 0 < a.length := by
      rw [hk]
      exact (List.getElem?_eq_some_iff.mp hold).1
    rw [if_pos hk, if_pos hlong, ← hl]
    simp
  · have hidx := mt (clcidx_idxOf vs.length hi s hs).mp hk
    rw [if_neg hk, hold, ← hl]
    rcases Nat.lt_or_gt_of_ne hidx with hlt | hgt
    · rw [List.getElem?_append_left hlt]
    · rw [List.getElem?_eq_none (by omega), List.getElem?_eq_none (by simp; omega)]

theorem written_holds {a : List (Option Nat)} (vs done : List Nat) (h : Holds a (ordered done))
    (hlen : done.length + vs.length ≤ 19) : Holds (written done.length vs a) (ordered (done ++ vs)) := by
  induction vs generalizing done a with
  | nil =>
    rw [List.append_nil]
    exact h
  | cons v vs ih =>
    rw [List.length_cons] at hlen
    have := ih (done ++ [v]) (holds_set h (by omega) v) (by rw [List.length_append, List.length_singleton]; omega)
    rwa [List.length_append, List.length_singleton, List.append_assoc, List.singleton_append] at this

theorem read_clens_reads (n i : Nat) (hi : i + n ≤ 19) (a : List (Option Nat)) (ha : 19 ≤ a.length) (d : tinf_data)
    (hd : Good d) :
    Reads seen d (read_clens n i a d) (fun b vs => b = written i vs a ∧ vs.length = n ∧ ∀ v ∈ vs, v < 8) (Row 3 n) := by
  induction n generalizing i a d with
  | zero =>
    refine (Reads.pure (c := []) hd ⟨rfl, rfl, nofun⟩).congr fun vs q => ?_
    constructor
    · rintro ⟨rfl, rfl⟩
      exact .nil
    · intro h
      cases h
      exact ⟨rfl, rfl⟩
  | succ n ih =>
    have hclc : clcidx[i]? = some (clcidx.getD i 0) ∧ clcidx.getD i 0 < 19 := by
      have hall : ∀ i < 19, clcidx[i]? = some (clcidx.getD i 0) ∧ clcidx.getD i 0 < 19 := by decide
      exact hall i (by omega)
    rw [read_clens]
    refine (bind_quiet (getbits_reads 3 (by omega) d hd)
      (S := fun v p vs q => ∃ rest, vs = v :: rest ∧ Row 3 n p rest q)
      ?_ ?_).congr fun vs q => ?_
    · rintro v _ e - he ⟨rfl, hv⟩
      have hbound : clcidx.getD i 0 < a.length := by omega
      rw [must_bind hclc.1, bind_apply, store, assert_bind hbound]
      have h := ih (i + 1) (by omega) (a.set (clcidx.getD i 0) (some v)) (by rwa [List.length_set]) e he
      refine h.map (v :: ·) ?_
      rintro b vs ⟨hvs, hlen, hlt⟩
      exact ⟨hvs, by rw [List.length_cons, hlen], by simpa using ⟨hv, hlt⟩⟩
    · rintro v p vs q ⟨rest, -, hrow⟩
      exact hrow.length.2.1
    · constructor
      · rintro ⟨v, m, hv, rest, rfl, hrow⟩
        exact .cons hv hrow
      · rintro (_ | ⟨hv, hrow⟩)
        exact ⟨_, _, hv, _, rfl, hrow⟩

theorem holds_init : Holds (List.replicate 19 (some 0) ++ List.replicate (288 + 32 - 19) none) (ordered []) := by
  intro i l hl
  have hi : i < 19 := by
    have := (List.getElem?_eq_some_iff.mp hl).1
    rwa [ordered_length] at this
  rw [ordered_get hi] at hl
  obtain rfl : l = 0 := by simpa using hl.symm
  rw [List.getElem?_append_left (by simpa using hi), List.getElem?_replicate, if_pos hi]

theorem ordered_le {clens : List Nat} {n : Nat} (h : ∀ v ∈ clens, v ≤ n) : ∀ l ∈ ordered clens, l ≤ n := by
  intro l hl
  obtain ⟨s, -, rfl⟩ := List.mem_map.mp hl
  rw [List.getD_eq_getElem?_getD]
  generalize List.idxOf s _ = i
  cases hget : clens[i]? with
  | none => exact Nat.zero_le n
  | some v => exact h v (List.mem_of_getElem? hget)

theorem init_length :
    (List.replicate 19 (some 0) ++ List.replicate (288 + 32 - 19) (none : Option Nat)).length = 320 := by
  rw [List.length_append, List.length_replicate, List.length_replicate]

theorem code_tree_reads (lt : tinf_tree) (hlt : lt.symbols.length = 288) (hclen : Nat) (hle : hclen ≤ 19)
    (d : tinf_data) (hd : Good d) :
    Reads seen d (code_tree lt hclen d)
      (fun r cl => Served r.1 cl ∧ r.1.max_sym ≠ -1 ∧ r.2.length = 320 ∧ cl.length = 19)
      (fun p cl q => ∃ clens, Row 3 hclen p clens q ∧ cl = ordered clens ∧ Usable cl ∧ ∃ l ∈ cl, l ≠ 0) := by
  rw [code_tree]
  refine (bind_quiet (read_clens_reads hclen 0 (by omega) _ (by rw [init_length]; omega) d hd)
    (S := fun clens p cl q => (cl = ordered clens ∧ Usable cl ∧ ∃ l ∈ cl, l ≠ 0) ∧ q = p) ?_ ?_).congr fun cl q => ?_
  · rintro a clens e - he ⟨rfl, hlen, hlt8⟩
    have hholds := written_holds clens [] holds_init (by rw [List.length_nil]; omega)
    rw [List.nil_append, List.length_nil] at hholds
    have hspec := build_tree_spec hholds (ordered_le fun v hv => (by have := hlt8 v hv; omega : v ≤ 15))
      (by rw [ordered_length]; omega) lt hlt e
    rw [ordered_length] at hspec
    rcases hspec with ⟨husable, u, hrun, hserved⟩ | ⟨hno, hrun⟩
    · rw [bind_ok hrun]
      by_cases hm : u.max_sym = -1
      · rw [if_pos hm]
        refine Reads.fail ?_
        rintro cl q ⟨⟨rfl, -, hsome⟩, -⟩ -
        exact hserved.some_iff.mpr hsome hm
      · rw [if_neg hm]
        refine (Reads.pure he ⟨hserved, hm, by rw [written_length, init_length], ordered_length clens⟩).congr fun cl
          q => ?_
        constructor
        · rintro ⟨rfl, rfl⟩
          exact ⟨⟨rfl, husable, hserved.some_iff.mp hm⟩, rfl⟩
        · rintro ⟨⟨rfl, -⟩, rfl⟩
          exact ⟨rfl, rfl⟩
    · rw [bind_fail hrun]
      refine Reads.fail ?_
      rintro cl q ⟨⟨rfl, husable, -⟩, -⟩ -
      exact hno husable
  · rintro clens p cl q ⟨-, rfl⟩
    rfl
  · constructor
    · rintro ⟨clens, m, hrow, hcl, rfl⟩
      exact ⟨clens, hrow, hcl⟩
    · rintro ⟨clens, hrow, hcl⟩
      exact ⟨clens, q, hrow, hcl, rfl⟩

/-! ## The lengths -/

/-- The lengths `ls` at the beginning of the array. -/
def laid (ls : List Nat) (a : List (Option Nat)) : List (Option Nat) := ls.map some ++ a.drop ls.length

theorem laid_holds (ls : List Nat) (a : List (Option Nat)) : Holds (laid ls a) ls := by
  intro i l hl
  have hi := (List.getElem?_eq_some_iff.mp hl).1
  rw [laid, List.getElem?_append_left (by simpa using hi), List.getElem?_map, hl]
  rfl

theorem laid_length {ls : List Nat} {a : List (Option Nat)} (h : ls.length ≤ a.length) :
    (laid ls a).length = a.length := by
  rw [laid, List.length_append, List.length_map, List.length_drop]
  omega

theorem laid_set {ls : List Nat} {a : List (Option Nat)} (h : ls.length < a.length) (v : Nat) :
    (laid ls a).set ls.length (some v) = laid (ls ++ [v]) a := by
  unfold laid
  rw [List.set_append_right _ _ (by simp), List.length_map, Nat.sub_self, List.drop_eq_getElem_cons h,
    List.set_cons_zero]
  simp

theorem put_lengths_spec (v n : Nat) (ls : List Nat) (a : List (Option Nat)) (h : ls.length + n ≤ a.length)
    (d : tinf_data) :
    put_lengths v n ls.length (laid ls a) d = .ok (laid (ls ++ List.replicate n v) a, d) := by
  induction n generalizing ls with
  | zero =>
    rw [List.replicate_zero, List.append_nil]
    rfl
  | succ n ih =>
    have hbound : ls.length < (laid ls a).length := by
      rw [laid_length (by omega)]
      omega
    have := ih (ls ++ [v]) (by rw [List.length_append, List.length_singleton]; omega)
    rw [List.length_append, List.length_singleton, List.append_assoc, List.singleton_append] at this
    rw [put_lengths, bind_apply, store, assert_bind hbound, laid_set (by omega)]
    exact this

/-- What is behind a symbol: a length, and how often. -/
def Times (ls : List Nat) (s : Nat) : Piece (Nat × Nat) := fun p r q =>
  (s < 16 ∧ r = (s, 1) ∧ q = p) ∨ (s = 16 ∧ ∃ l n, ls.getLast? = some l ∧ Number 2 p n q ∧ r = (l, 3 + n)) ∨
    (s = 17 ∧ ∃ n, Number 3 p n q ∧ r = (0, 3 + n)) ∨ (s = 18 ∧ ∃ n, Number 7 p n q ∧ r = (0, 11 + n))

theorem entry_iff {cl ls e : List Nat} {p q : Point} :
    Entry cl ls p e q ↔ ∃ s m r, Symbol cl p s m ∧ Times ls s m r q ∧ e = List.replicate r.2 r.1 := by
  constructor
  · rintro (⟨h, hl⟩ | ⟨h, hl, hn⟩ | ⟨h, hn⟩ | ⟨h, hn⟩)
    · exact ⟨_, _, _, h, .inl ⟨hl, rfl, rfl⟩, rfl⟩
    · exact ⟨_, _, _, h, .inr (.inl ⟨rfl, _, _, hl, hn, rfl⟩), rfl⟩
    · exact ⟨_, _, _, h, .inr (.inr (.inl ⟨rfl, _, hn, rfl⟩)), rfl⟩
    · exact ⟨_, _, _, h, .inr (.inr (.inr ⟨rfl, _, hn, rfl⟩)), rfl⟩
  · rintro ⟨s, m, r, h, ⟨hl, rfl, rfl⟩ | ⟨rfl, l, n, hl, hn, rfl⟩ | ⟨rfl, n, hn, rfl⟩ | ⟨rfl, n, hn, rfl⟩, rfl⟩
    · exact .one h hl
    · exact .again h hl hn
    · exact .few h hn
    · exact .many h hn

theorem Times.out {ls : List Nat} {s : Nat} {p q : Point} {r : Nat × Nat} (h : Times ls s p r q) : p.out = q.out := by
  rcases h with ⟨-, -, rfl⟩ | ⟨-, l, n, -, hn, -⟩ | ⟨-, n, hn, -⟩ | ⟨-, n, hn, -⟩
  · rfl
  · exact hn.out
  · exact hn.out
  · exact hn.out

theorem number_reads (num base : Nat) (hnum : num ≤ 24) (f : Nat → Nat × Nat) (d : tinf_data) (hd : Good d) :
    Reads seen d ((do let length ← tinf_getbits_base num base; pure (f length)) d : Outcome tinf_error_code _)
      (Is fun r => ∃ n, r = f (base + n)) (fun p r q => ∃ n, Number num p n q ∧ r = f (base + n)) := by
  refine (bind_quiet (getbits_base_reads num base hnum d hd) (S := fun n p r q => r = f (base + n) ∧ q = p) ?_ ?_).congr
    fun r q => ?_
  · rintro v n e - he ⟨rfl, -⟩
    exact Reads.pure he ⟨rfl, n, rfl⟩
  · rintro n p r q ⟨-, rfl⟩
    rfl
  · constructor
    · rintro ⟨n, m, hn, rfl, rfl⟩
      exact ⟨n, hn, rfl⟩
    · rintro ⟨n, hn, rfl⟩
      exact ⟨n, q, hn, rfl, rfl⟩

theorem run_length_reads (ls : List Nat) (hls : ∀ l ∈ ls, l ≤ 15) (a : List (Option Nat)) (ha : Holds a ls) (s : Nat)
    (hs : s ≤ 18) (d : tinf_data) (hd : Good d) :
    Reads seen d (run_length a ls.length s d) (Is fun r => r.1 ≤ 15 ∧ 0 < r.2) (Times ls s) := by
  rw [run_length]
  by_cases h16 : s = 16
  · subst h16
    rw [if_pos rfl]
    by_cases hnil : ls.length = 0
    · rw [if_pos hnil]
      refine Reads.fail ?_
      obtain rfl := List.length_eq_zero_iff.mp hnil
      rintro r q (⟨h, -⟩ | ⟨-, l, n, hl, -⟩ | ⟨h, -⟩ | ⟨h, -⟩) -
      · omega
      · cases hl
      · omega
      · omega
    · obtain ⟨l, hl⟩ : ∃ l, ls[ls.length - 1]? = some l := ⟨_, List.getElem?_eq_getElem (by omega)⟩
      rw [if_neg hnil, load, must_bind (load_holds ha hl)]
      refine ((number_reads 2 3 (by omega) (l, ·) d hd).mono ?_).congr fun r q => ?_
      · rintro r c ⟨rfl, n, rfl⟩
        exact ⟨rfl, hls l (List.mem_of_getElem? hl), by omega⟩
      · simp only [Times, List.getLast?_eq_getElem?, hl]
        simp
  · rw [if_neg h16]
    by_cases h17 : s = 17
    · subst h17
      rw [if_pos rfl]
      refine ((number_reads 3 3 (by omega) (0, ·) d hd).mono ?_).congr fun r q => ?_
      · rintro r c ⟨rfl, n, rfl⟩
        exact ⟨rfl, Nat.zero_le 15, by omega⟩
      · simp [Times]
    · rw [if_neg h17]
      by_cases h18 : s = 18
      · subst h18
        rw [if_pos rfl]
        refine ((number_reads 7 11 (by omega) (0, ·) d hd).mono ?_).congr fun r q => ?_
        · rintro r c ⟨rfl, n, rfl⟩
          exact ⟨rfl, Nat.zero_le 15, by omega⟩
        · simp [Times]
      · rw [if_neg h18]
        refine (Reads.pure hd ⟨rfl, (by omega : s ≤ 15), Nat.one_pos⟩).congr fun r q => ?_
        have hlt : s < 16 := by omega
        simp [Times, h16, h17, h18, hlt]

theorem read_lengths_reads {lt : tinf_tree} {cl : List Nat} (h : Served lt cl) (hm : lt.max_sym ≠ -1)
    (hcl : cl.length = 19) (total : Nat) (a : List (Option Nat)) (ha : total ≤ a.length) (fuel : Nat) (ls : List Nat)
    (hfuel : total - ls.length < fuel) (hle : ls.length ≤ total) (hls : ∀ l ∈ ls, l ≤ 15) (d : tinf_data)
    (hd : Good d) :
    Reads seen d (read_lengths lt total fuel ls.length (laid ls a) d)
      (fun b all => b = laid all a ∧ all.length = total ∧ ∀ l ∈ all, l ≤ 15) (Lengths cl total ls) := by
  induction fuel generalizing ls d with
  | zero => omega
  | succ fuel ih =>
    rw [read_lengths]
    by_cases hnum : ls.length < total
    · obtain ⟨full, A, hdecode, hsym⟩ := h.reads hm
      rw [if_pos hnum]
      refine (bind_quiet (hdecode d hd) (S := fun (s : Nat) p all q => (s : Int) ≤ lt.max_sym ∧ ∃ r m,
        Times ls s p r m ∧
        ls.length + r.2 ≤ total ∧ Lengths cl total (ls ++ List.replicate r.2 r.1) m all q) ?_ ?_).congr fun all q => ?_
      · rintro s _ e - he ⟨rfl, -⟩
        by_cases hs : (s : Int) > lt.max_sym
        · rw [if_pos hs]
          refine Reads.fail ?_
          rintro all q ⟨hle, -⟩ -
          omega
        · have hs18 : s ≤ 18 := by
            rcases h.last.is with h | ⟨u, l, hu, hl, -⟩
            · exact absurd h hm
            · have := (List.getElem?_eq_some_iff.mp hl).1
              omega
          rw [if_neg hs]
          refine (bind_quiet (run_length_reads ls hls _ (laid_holds ls a) s hs18 e he) (S := fun r p all q =>
            ls.length + r.2 ≤ total ∧ Lengths cl total (ls ++ List.replicate r.2 r.1) p all q) ?_ ?_).congr fun all
              q => ?_
          · rintro ⟨v, n⟩ _ g - hg ⟨rfl, hv, hn⟩
            dsimp only at hv hn ⊢
            by_cases hroom : n > total - ls.length
            · rw [if_pos hroom]
              refine Reads.fail ?_
              rintro all q ⟨hfit, -⟩ -
              omega
            · rw [if_neg hroom, bind_ok (put_lengths_spec v n ls a (by omega) g)]
              have hnext : (ls ++ List.replicate n v).length = ls.length + n := by
                rw [List.length_append, List.length_replicate]
              have hvs : ∀ l ∈ ls ++ List.replicate n v, l ≤ 15 := by
                intro l hl
                rcases List.mem_append.mp hl with hl | hl
                · exact hls l hl
                · rw [List.eq_of_mem_replicate hl]
                  exact hv
              have hgo := ih (ls ++ List.replicate n v) (by omega) (by omega) hvs g hg
              rw [hnext] at hgo
              refine hgo.congr fun all q => ?_
              exact ⟨fun hl => ⟨by omega, hl⟩, fun hl => hl.2⟩
          · rintro r p all q ⟨-, hl⟩
            exact hl.length.2.1
          · constructor
            · rintro ⟨r, m, ht, hfit, hl⟩
              exact ⟨by omega, r, m, ht, hfit, hl⟩
            · rintro ⟨-, r, m, ht, hfit, hl⟩
              exact ⟨r, m, ht, hfit, hl⟩
      · rintro s p all q ⟨-, r, m, ht, -, hl⟩
        exact ht.out.trans hl.length.2.1
      · constructor
        · rintro ⟨s, m, hs, hmax, r, m', ht, hfit, hl⟩
          exact .more (entry_iff.mpr ⟨s, m, r, (hsym s hmax _ _).mp hs, ht, rfl⟩) (by simpa using hfit) hl
        · rintro (hlen | ⟨hentry, hfit, hl⟩)
          · omega
          · obtain ⟨s, m, r, hs, ht, rfl⟩ := entry_iff.mp hentry
            have hmax := h.le hs
            exact ⟨s, m, (hsym s hmax _ _).mpr hs, hmax, r, _, ht, by simpa using hfit, hl⟩
    · rw [if_neg hnum]
      refine (Reads.pure hd ⟨rfl, by omega, hls⟩).congr fun all q => ?_
      constructor
      · rintro ⟨rfl, rfl⟩
        exact .done (by omega)
      · rintro (hlen | ⟨hentry, hfit, hl⟩)
        · exact ⟨rfl, rfl⟩
        · have := hentry.length.2.2
          omega

/-! ## The two trees -/

/-- The trees are those of the two codes. -/
structure Stand (r : tinf_tree × tinf_tree) (c : List Nat × List Nat) : Prop where
  lit : Served r.1 c.1
  dist : Served r.2 c.2
  eob : 256 ≤ r.1.max_sym

theorem dynamic_trees_reads (lt dt : tinf_tree) (hlt : lt.symbols.length = 288) (hdt : dt.symbols.length = 288)
    (a : List (Option Nat)) (ls : List Nat) (ha : Holds a ls) (hls : ∀ l ∈ ls, l ≤ 15) (hlit hdist : Nat)
    (hlen : ls.length = hlit + hdist) (hmin : 257 ≤ hlit) (hmax : hlit ≤ 288) (hmaxd : hdist ≤ 288) (d : tinf_data)
    (hd : Good d) :
    Reads seen d (dynamic_trees lt dt a hlit hdist d) Stand (fun p c q => (c = (ls.take hlit, ls.drop hlit) ∧
      ls[256]? ≠ some 0 ∧ Usable (ls.take hlit) ∧ Usable (ls.drop hlit)) ∧ q = p) := by
  obtain ⟨l, hl⟩ : ∃ l, ls[256]? = some l := ⟨_, List.getElem?_eq_getElem (by omega)⟩
  rw [dynamic_trees, load, must_bind (load_holds ha hl)]
  by_cases h0 : l = 0
  · rw [if_pos h0]
    refine Reads.fail ?_
    rintro c q ⟨⟨-, hne, -⟩, -⟩ -
    exact hne (h0 ▸ hl)
  · rw [if_neg h0]
    have hholds : Holds a (ls.take hlit) := by
      intro i k hk
      rw [List.getElem?_take] at hk
      split at hk
      · exact ha i k hk
      · cases hk
    have hholdsd : Holds (a.drop hlit) (ls.drop hlit) := by
      intro i k hk
      rw [List.getElem?_drop] at hk ⊢
      exact ha _ k hk
    have hspec := build_tree_spec hholds (fun k hk => hls k (List.mem_of_mem_take hk)) (by simp; omega) lt hlt d
    have hspecd := build_tree_spec hholdsd (fun k hk => hls k (List.mem_of_mem_drop hk)) (by simp; omega) dt hdt d
    rw [List.length_take, Nat.min_eq_left (by omega)] at hspec
    rw [List.length_drop, show ls.length - hlit = hdist by omega] at hspecd
    rcases hspec with ⟨husable, u, hrun, hserved⟩ | ⟨hno, hrun⟩
    · rw [bind_ok hrun]
      rcases hspecd with ⟨husabled, v, hrund, hservedd⟩ | ⟨hno, hrund⟩
      · rw [bind_ok hrund]
        have heob : 256 ≤ u.max_sym := hserved.last.le 256 l (by rw [List.getElem?_take_of_lt (by omega), hl]) h0
        refine (Reads.pure (c := (ls.take hlit, ls.drop hlit)) hd ⟨hserved, hservedd, heob⟩).congr fun c q => ?_
        constructor
        · rintro ⟨rfl, rfl⟩
          exact ⟨⟨rfl, by rw [hl]; simpa using h0, husable, husabled⟩, rfl⟩
        · rintro ⟨⟨rfl, -⟩, rfl⟩
          exact ⟨rfl, rfl⟩
      · rw [bind_fail hrund]
        refine Reads.fail ?_
        rintro c q ⟨⟨-, -, -, hd⟩, -⟩ -
        exact hno hd
    · rw [bind_fail hrun]
      refine Reads.fail ?_
      rintro c q ⟨⟨-, -, hd, -⟩, -⟩ -
      exact hno hd

/-- What is behind the three numbers at the beginning. -/
def Codes (hlit hdist hclen : Nat) : Piece (List Nat × List Nat) := fun p c q =>
  hlit ≤ 29 ∧ hdist ≤ 29 ∧ ∃ cl m ls, (∃ clens, Row 3 (hclen + 4) p clens m ∧ cl = ordered clens ∧ Usable cl ∧
    ∃ l ∈ cl, l ≠ 0) ∧ Lengths cl (257 + hlit + (1 + hdist)) [] m ls q ∧ c =
      (ls.take (257 + hlit), ls.drop (257 + hlit)) ∧
    ls[256]? ≠ some 0 ∧ Usable (ls.take (257 + hlit)) ∧ Usable (ls.drop (257 + hlit))

theorem codes_quiet (hlit hdist hclen : Nat) : Quiet (Codes hlit hdist hclen) := by
  rintro p c q ⟨-, -, cl, m, ls, ⟨clens, hrow, -⟩, hl, -⟩
  exact hrow.length.2.1.trans hl.length.2.1

theorem trees_iff {p q : Point} {c : List Nat × List Nat} :
    Trees p c q ↔ ((Number 5).andThen fun hlit => (Number 5).andThen fun hdist => (Number 4).andThen fun hclen =>
      Codes hlit hdist hclen) p c q := by
  constructor
  · rintro ⟨h1, h2, h3, hl, hd, h4, hcl, hsome, h5, heob, hul, hud⟩
    exact ⟨_, _, h1, _, _, h2, _, _, h3, hl, hd, _, _, _, ⟨_, h4, rfl, hcl, hsome⟩, h5, rfl, heob, hul, hud⟩
  · rintro ⟨_, _, h1, _, _, h2, _, _, h3, hl, hd, _, _, _, ⟨_, h4, rfl, hcl, hsome⟩, h5, rfl, heob, hul, hud⟩
    exact .intro h1 h2 h3 hl hd h4 hcl hsome h5 heob hul hud

theorem number_quiet (n : Nat) : Quiet (Number n) := fun _ _ _ h => h.out

theorem decode_trees_reads (lt dt : tinf_tree) (hlt : lt.symbols.length = 288) (hdt : dt.symbols.length = 288)
    (d : tinf_data) (hd : Good d) : Reads seen d (tinf_decode_trees lt dt d) Stand Trees := by
  rw [tinf_decode_trees]
  refine (bind_quiet (getbits_base_reads 5 257 (by omega) d hd) ?_ fun hlit => (number_quiet 5).andThen fun hdist =>
    (number_quiet 4).andThen fun hclen => codes_quiet hlit hdist hclen).congr fun c q => trees_iff.symm
  rintro _ hlit d1 - hd1 ⟨rfl, hlit32⟩
  refine bind_quiet (getbits_base_reads 5 1 (by omega) d1 hd1) ?_ fun hdist =>
    (number_quiet 4).andThen fun hclen => codes_quiet hlit hdist hclen
  rintro _ hdist d2 - hd2 ⟨rfl, hdist32⟩
  refine bind_quiet (getbits_base_reads 4 4 (by omega) d2 hd2) ?_ fun hclen => codes_quiet hlit hdist hclen
  rintro _ hclen d3 - hd3 ⟨rfl, hclen16⟩
  by_cases hmax : 257 + hlit > 286 ∨ 1 + hdist > 30
  · rw [if_pos hmax]
    refine Reads.fail ?_
    rintro c q ⟨hl, hd, -⟩ -
    omega
  · rw [if_neg hmax]
    let Both (ls : List Nat) (c : List Nat × List Nat) : Prop := c = (ls.take (257 + hlit), ls.drop (257 + hlit)) ∧
      ls[256]? ≠ some 0 ∧ Usable (ls.take (257 + hlit)) ∧ Usable (ls.drop (257 + hlit))
    refine (bind_quiet (code_tree_reads lt hlt (4 + hclen) (by omega) d3 hd3) (S := fun cl p c q =>
      ∃ ls, Lengths cl (257 + hlit + (1 + hdist)) [] p ls q ∧ Both ls c) ?_ ?_).congr fun c q => ?_
    · rintro ⟨ct, a⟩ cl d4 - hd4 ⟨hserved, hm, hsize, hcl⟩
      dsimp only at hserved hm hsize ⊢
      have hread := read_lengths_reads hserved hm hcl (257 + hlit + (1 + hdist)) a (by omega)
        (257 + hlit + (1 + hdist) + 1) [] (by omega) (Nat.zero_le _) nofun d4 hd4
      rw [show laid [] a = a from rfl, List.length_nil] at hread
      refine (bind_quiet hread (S := fun ls p c q => Both ls c ∧ q = p) ?_ ?_).congr fun c q => ?_
      · rintro _ ls d5 - hd5 ⟨rfl, hlen, hls⟩
        exact dynamic_trees_reads ct dt hserved.size hdt _ ls (laid_holds ls a) hls (257 + hlit) (1 + hdist) hlen
          (by omega) (by omega) (by omega) d5 hd5
      · rintro ls p c q ⟨-, rfl⟩
        rfl
      · constructor
        · rintro ⟨ls, m, hl, hboth, rfl⟩
          exact ⟨ls, hl, hboth⟩
        · rintro ⟨ls, hl, hboth⟩
          exact ⟨ls, q, hl, hboth, rfl⟩
    · rintro cl p c q ⟨ls, hl, -⟩
      exact hl.length.2.1
    · constructor
      · rintro ⟨cl, m, hcl, ls, hl, hboth⟩
        exact ⟨by omega, by omega, cl, m, ls, Nat.add_comm 4 hclen ▸ hcl, hl, hboth⟩
      · rintro ⟨-, -, cl, m, ls, hcl, hl, hboth⟩
        exact ⟨cl, m, Nat.add_comm hclen 4 ▸ hcl, ls, hl, hboth⟩

end Coins.Tinf
