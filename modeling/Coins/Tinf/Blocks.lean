import Coins.Tinf.Dynamic

/-!
# Blocks

A block is inflated if it is one, as far as there is room. No step of it does what it may not: every copy stays
inside of what has been written, and every read of the tables inside of them.
-/

open Coins.Bits Coins.Decoder Coins.Huffman

namespace Coins.Tinf

/-! ## Writing -/

theorem put_bind {α : Type} {d : tinf_data} (h : d.dest.length < d.room) (b : UInt8) (f : Unit → Inflate α) :
    (put b >>= f) d = f () { d with dest := d.dest ++ [b] } := by
  change ((assert (d.dest.length < d.room) >>= fun _ => set { d with dest := d.dest ++ [b] }) d).bind
    (fun p => f p.1 p.2) = _
  rw [assert_bind h]
  rfl

theorem Good.write {d : tinf_data} (h : Good d) {out : List UInt8} (hroom : out.length ≤ d.room) :
    Good { d with dest := out } :=
  ⟨h.few, h.tag_lt, h.ended, hroom, h.ltree, h.dtree⟩

theorem copy_match_spec (offs n : Nat) (hoffs : 0 < offs) (d : tinf_data) (hback : offs ≤ d.dest.length)
    (hroom : d.dest.length + n ≤ d.room) :
    copy_match offs n d = .ok ((), { d with dest := copied offs n d.dest }) := by
  induction n generalizing d with
  | zero => rfl
  | succ n ih =>
    have hget : d.dest[d.dest.length - offs]? = some (d.dest.getD (d.dest.length - offs) 0) := by
      rw [List.getD_eq_getElem?_getD, List.getElem?_eq_getElem (by omega)]
      rfl
    have hgo := ih { d with dest := d.dest ++ [d.dest.getD (d.dest.length - offs) 0] }
      (by rw [List.length_append]; omega) (by rw [List.length_append, List.length_singleton]; dsimp only; omega)
    rw [copy_match, get_bind, if_pos hback, must_bind hget, put_bind (by omega)]
    exact hgo

/-! ## Copies -/

/-- What is behind the symbol of a length. -/
def Behind (dist : List Nat) (i : Nat) : Piece Unit := fun p _ q =>
  i < 29 ∧ ∃ v p2, Number (more_length i) p v p2 ∧ ∃ j p3, Symbol dist p2 j p3 ∧ j < 30 ∧
    ∃ w p4, Number (more_dist j) p3 w p4 ∧ from_dist j + w ≤ p4.out.length ∧
      q = ⟨p4.bits, copied (from_dist j + w) (from_length i + v) p4.out⟩

theorem copy_iff {lit dist : List Nat} {p q : Point} :
    Copy lit dist p q ↔ ∃ i m, Symbol lit p (257 + i) m ∧ Behind dist i m () q := by
  constructor
  · rintro ⟨hi, h1, h2, hj, h3, h4, hback⟩
    exact ⟨_, _, h1, hi, _, _, h2, _, _, h3, hj, _, _, h4, hback, rfl⟩
  · rintro ⟨i, m, h1, hi, v, p2, h2, j, p3, h3, hj, w, p4, h4, hback, rfl⟩
    exact .intro hi h1 h2 hj h3 h4 hback

theorem behind_grows (dist : List Nat) (i : Nat) : Grows (Behind dist i) := by
  rintro p c q ⟨hi, v, p2, h2, j, p3, h3, hj, w, p4, h4, hback, rfl⟩
  rw [h2.out, h3.out, h4.out, copied_length]
  exact Nat.le_add_right _ _

theorem behind_length {dist : List Nat} {i : Nat} {p q : Point} {c : Unit} (h : Behind dist i p c q) :
    q.bits.length ≤ p.bits.length := by
  obtain ⟨hi, v, p2, h2, j, p3, h3, hj, w, p4, h4, hback, rfl⟩ := h
  have := h2.length
  have := h3.length
  have := h4.length
  dsimp only
  omega

theorem length_tables : ∀ i < 29, length_bits[i]? = some (more_length i) ∧ length_base[i]? = some (from_length i) ∧
    more_length i ≤ 24 := by decide

theorem dist_tables : ∀ j < 30, dist_bits[j]? = some (more_dist j) ∧ dist_base[j]? = some (from_dist j) ∧
    more_dist j ≤ 24 := by decide

theorem copy_reads (offs length : Nat) (hoffs : 0 < offs) (d : tinf_data) (hd : Good d) :
    Reads seen d ((do
        let d ← get
        if offs > d.dest.length then fail .TINF_DATA_ERROR
        else if d.room - d.dest.length < length then fail .TINF_BUF_ERROR
        else copy_match offs length : Inflate Unit) d) (fun _ (_ : Unit) => True)
      (fun p _ q => offs ≤ p.out.length ∧ q = ⟨p.bits, copied offs length p.out⟩) := by
  rw [get_bind]
  by_cases hback : offs > d.dest.length
  · rw [if_pos hback]
    refine Reads.fail ?_
    rintro _ q ⟨hle, -⟩ -
    simp only [seen] at hle
    omega
  · rw [if_neg hback]
    have hroom := hd.room
    by_cases hfull : d.room - d.dest.length < length
    · rw [if_pos hfull]
      refine Reads.fail_full (V := seen) ?_
      rintro _ q ⟨-, rfl⟩ hfit
      simp only [seen, copied_length] at hfit
      omega
    · rw [if_neg hfull, copy_match_spec offs length hoffs d (by omega) (by omega)]
      have hgood : Good { d with dest := copied offs length d.dest } := hd.write (by rw [copied_length]; omega)
      have hdone : Reads seen { d with dest := copied offs length d.dest }
        (.ok ((), { d with dest := copied offs length d.dest }))
          (fun _ (_ : Unit) => True) (fun p c q => c = () ∧ q = p) := Reads.pure hgood trivial
      refine hdone.after rfl Iff.rfl fun c v => ?_
      constructor
      · rintro ⟨-, rfl⟩
        exact ⟨Nat.le_of_not_lt hback, rfl⟩
      · rintro ⟨-, rfl⟩
        exact ⟨rfl, rfl⟩

theorem from_dist_pos (j : Nat) : 0 < from_dist j := by
  unfold from_dist
  omega

theorem inflate_match_reads (lt : tinf_tree) {dt : tinf_tree} {dist : List Nat} (hdt : Serves 30 dt dist) (i : Nat)
    (d : tinf_data)
    (hd : Good d) :
    Reads seen d (inflate_match lt dt (257 + i) d) (fun _ (_ : Unit) => True)
      (fun p c q => ((257 + i : Nat) : Int) ≤ lt.max_sym ∧ Behind dist i p c q) := by
  rw [inflate_match]
  by_cases hbad : ((257 + i : Nat) : Int) > lt.max_sym ∨ 257 + i - 257 > 28 ∨ dt.max_sym = -1
  · rw [if_pos hbad]
    refine Reads.fail ?_
    rintro c q ⟨hmax, hi, v, p2, h2, j, p3, h3, hj, -⟩ -
    have := hdt.le j _ _ hj h3
    omega
  · rw [if_neg hbad]
    have hi : i < 29 := by omega
    obtain ⟨hbits, hbase, hsmall⟩ := length_tables i hi
    obtain ⟨full, A, hdecode, hsym⟩ := hdt.reads (by omega)
    rw [Nat.add_sub_cancel_left, must_bind hbits, must_bind hbase]
    let Far (v j : Nat) : Piece Unit := fun p _ q => ∃ w p4, Number (more_dist j) p w p4 ∧
      from_dist j + w ≤ p4.out.length ∧ q = ⟨p4.bits, copied (from_dist j + w) (from_length i + v) p4.out⟩
    have hfar : ∀ v j, Grows (Far v j) := by
      rintro v j p c q ⟨w, p4, h4, -, rfl⟩
      rw [h4.out, copied_length]
      exact Nat.le_add_right _ _
    refine (bind_grows (getbits_base_reads _ _ hsmall d hd) (S := fun v p c q =>
      ∃ j p3, Symbol dist p j p3 ∧ j < 30 ∧ Far v j p3 c q) ?_ ?_).congr fun c q => ?_
    · rintro _ v d1 - hd1 ⟨rfl, -⟩
      refine (bind_grows (hdecode d1 hd1) (S := fun (j : Nat) p c q =>
        ((j : Int) ≤ dt.max_sym ∧ j < 30) ∧ Far v j p c q) ?_ ?_).congr fun c q => ?_
      · rintro j _ d2 - hd2 ⟨rfl, -⟩
        by_cases hj : (j : Int) > dt.max_sym ∨ j > 29
        · rw [if_pos hj]
          refine Reads.fail ?_
          rintro c q ⟨⟨hle, hlt⟩, -⟩ -
          omega
        · obtain ⟨hbits, hbase, hsmall⟩ := dist_tables j (by omega)
          rw [if_neg hj, must_bind hbits, must_bind hbase]
          refine (bind_grows (getbits_base_reads _ _ hsmall d2 hd2)
            (S := fun w p c q => from_dist j + w ≤ p.out.length ∧
            q = ⟨p.bits, copied (from_dist j + w) (from_length i + v) p.out⟩) ?_ ?_).congr fun c q => ?_
          · rintro _ w d3 - hd3 ⟨rfl, -⟩
            exact copy_reads _ _ (Nat.add_pos_left (from_dist_pos j) w) d3 hd3
          · rintro w p c q ⟨-, rfl⟩
            rw [copied_length]
            exact Nat.le_add_right _ _
          · constructor
            · rintro ⟨w, m, hw, hback, hq⟩
              exact ⟨by omega, w, m, hw, hback, hq⟩
            · rintro ⟨-, w, m, hw, hback, hq⟩
              exact ⟨w, m, hw, hback, hq⟩
      · rintro j p c q ⟨-, h⟩
        exact hfar v j p c q h
      · constructor
        · rintro ⟨j, m, hs, ⟨hle, hlt⟩, h⟩
          exact ⟨j, m, (hsym j hle _ _).mp hs, hlt, h⟩
        · rintro ⟨j, m, hs, hlt, h⟩
          have hle := hdt.le j _ _ hlt hs
          exact ⟨j, m, (hsym j hle _ _).mpr hs, ⟨hle, hlt⟩, h⟩
    · rintro v p c q ⟨j, p3, hs, -, h⟩
      rw [hs.out]
      exact hfar v j p3 c q h
    · constructor
      · rintro ⟨v, m, hv, h⟩
        exact ⟨by omega, hi, v, m, hv, h⟩
      · rintro ⟨-, -, v, m, hv, h⟩
        exact ⟨v, m, hv, h⟩

/-! ## Compressed blocks -/

theorem data_grows (lit dist : List Nat) : Grows fun p (_ : Unit) q => Data lit dist p q := fun _ _ _ h => h.length.2

/-- What a symbol goes on to: a literal, the end of the block, or a match. -/
def Leads (lt : tinf_tree) (lit dist : List Nat) (s : Nat) : Piece Unit := fun p _ q =>
  (s < 256 ∧ Data lit dist ⟨p.bits, p.out ++ [UInt8.ofNat s]⟩ q) ∨ (s = 256 ∧ q = p) ∨
    ∃ i m, s = 257 + i ∧ (((257 + i : Nat) : Int) ≤ lt.max_sym ∧ Behind dist i p () m) ∧ Data lit dist m q

theorem leads_grows (lt : tinf_tree) (lit dist : List Nat) (s : Nat) : Grows (Leads lt lit dist s) := by
  rintro p c q (⟨-, h⟩ | ⟨-, rfl⟩ | ⟨i, m, -, ⟨-, hb⟩, h⟩)
  · have := h.length.2
    rw [List.length_append] at this
    omega
  · exact le_refl _
  · exact (behind_grows dist i p () m hb).trans h.length.2

section
variable {lt dt : tinf_tree} {lit dist : List Nat} {fuel : Nat}
  (hmore : ∀ d : tinf_data, Good d → (d.overflow = false → d.bits.length < fuel) →
    Reads seen d (tinf_inflate_block_data lt dt fuel d) (fun _ _ => True) fun p (_ : Unit) q => Data lit dist p q)

include hmore in
/-- A literal is put out if there is room. -/
theorem literal_reads (s : Nat) (hs : s < 256) (e : tinf_data) (hgood : Good e) (hless : e.bits.length < fuel) :
    Reads seen e ((if e.dest.length = e.room then fail tinf_error_code.TINF_BUF_ERROR
      else do
        put (UInt8.ofNat s)
        tinf_inflate_block_data lt dt fuel : Inflate Unit) e) (fun _ _ => True) (Leads lt lit dist s) := by
  by_cases hfull : e.dest.length = e.room
  · rw [if_pos hfull]
    refine Reads.fail_full (V := seen) ?_
    rintro c q (⟨-, h⟩ | ⟨h, -⟩ | ⟨i, m, h, -⟩) hfit
    · have := h.length.2
      simp only [seen, List.length_append, List.length_singleton] at this hfit
      omega
    · omega
    · omega
  · have hroom : e.dest.length < e.room := Nat.lt_of_le_of_ne hgood.room hfull
    have hgood' : Good { e with dest := e.dest ++ [UInt8.ofNat s] } :=
      hgood.write (by rw [List.length_append, List.length_singleton]; exact hroom)
    rw [if_neg hfull, put_bind hroom]
    refine (hmore _ hgood' fun _ => hless).after rfl Iff.rfl fun c q => ?_
    constructor
    · exact fun h => .inl ⟨hs, h⟩
    · rintro (⟨-, h⟩ | ⟨h, -⟩ | ⟨i, m, h, -⟩)
      · exact h
      · omega
      · omega

include hmore in
/-- A match is copied, and the block goes on. -/
theorem copied_reads (hdt : Serves 30 dt dist) (i : Nat) (e : tinf_data) (hgood : Good e)
    (hless : e.bits.length < fuel) :
    Reads seen e ((do
      inflate_match lt dt (257 + i)
      tinf_inflate_block_data lt dt fuel : Inflate Unit) e) (fun _ _ => True) (Leads lt lit dist (257 + i)) := by
  have hmatch := inflate_match_reads lt hdt i e hgood
  refine (bind_grows hmatch (S := fun _ p _ q => Data lit dist p q) ?_ fun _ => data_grows lit dist).congr
    fun c q => ?_
  · rintro _ _ f hf hgood' -
    refine hmore f hgood' fun hlost => ?_
    obtain ⟨c, -, -, hread⟩ := hmatch.sound _ f hf (by simp [seen, hlost])
    exact (behind_length hread).trans_lt hless
  · constructor
    · rintro ⟨_, m, hm, h⟩
      exact .inr (.inr ⟨i, m, rfl, hm, h⟩)
    · rintro (⟨h, -⟩ | ⟨h, -⟩ | ⟨j, m, hj, hm, h⟩)
      · omega
      · omega
      · obtain rfl : i = j := by omega
        exact ⟨(), m, hm, h⟩

end

theorem stop_reads (lt : tinf_tree) (lit dist : List Nat) (e : tinf_data) (hgood : Good e) :
    Reads seen e ((pure () : Inflate Unit) e) (fun _ _ => True) (Leads lt lit dist 256) := by
  refine (Reads.pure (c := ()) hgood trivial).congr fun c q => ?_
  constructor
  · exact fun h => .inr (.inl ⟨rfl, h.2⟩)
  · rintro (⟨h, -⟩ | ⟨-, h⟩ | ⟨i, m, h, -⟩)
    · omega
    · exact ⟨rfl, h⟩
    · omega

theorem block_data_reads {lt dt : tinf_tree} {lit dist : List Nat} (hlt : Serves 286 lt lit) (hdt : Serves 30 dt dist)
    (heob : 256 ≤ lt.max_sym) (fuel : Nat) (d : tinf_data) (hd : Good d) (hfuel : 0 < fuel)
    (hbits : d.overflow = false → d.bits.length < fuel) :
    Reads seen d (tinf_inflate_block_data lt dt fuel d) (fun _ _ => True)
      (fun p (_ : Unit) q => Data lit dist p q) := by
  induction fuel generalizing d with
  | zero => omega
  | succ fuel ih =>
    obtain ⟨full, A, hdecode, hsym⟩ := hlt.reads (by omega)
    have hfirst := hdecode d hd
    rw [tinf_inflate_block_data]
    refine (bind_grows hfirst (S := Leads lt lit dist) ?_ (leads_grows lt lit dist)).congr fun c q => ?_
    · rintro s _ e he hgood ⟨rfl, -⟩
      rw [get_bind]
      cases hover : e.overflow with
      | true =>
        rw [if_pos rfl]
        exact Reads.fail fun c q _ hl => hl hover
      | false =>
        rw [if_neg Bool.false_ne_true]
        -- the symbol has been read, so that fewer bits are left
        have hless : e.bits.length < fuel := by
          obtain ⟨-, -, -, hlost⟩ := hfirst.kept s e he
          have hdover : d.overflow = false := by
            cases h : d.overflow with
            | false => rfl
            | true => exact absurd (hlost h) (by simp [seen, hover])
          obtain ⟨c, ⟨rfl, -⟩, hread⟩ := hfirst.sound s e he (by simp [seen, hover])
          have hlen := hread.length
          have := hbits hdover
          simp only [seen] at hlen
          omega
        have hmore := fun d hd hbits => ih d hd (Nat.zero_lt_of_lt hless) hbits
        by_cases hlit : s < 256
        · rw [if_pos hlit]
          exact literal_reads hmore s hlit e hgood hless
        · rw [if_neg hlit]
          by_cases h256 : s = 256
          · rw [if_pos h256, h256]
            exact stop_reads lt lit dist e hgood
          · obtain ⟨i, rfl⟩ : ∃ i, s = 257 + i := ⟨s - 257, by omega⟩
            rw [if_neg h256]
            exact copied_reads hmore hdt i e hgood hless
    · constructor
      · rintro ⟨s, m, hs, ⟨hlit, h⟩ | ⟨rfl, rfl⟩ | ⟨i, m', rfl, ⟨hmax, hb⟩, h⟩⟩
        · exact .byte ((hsym s (by omega) _ _).mp hs) hlit h
        · exact .stop ((hsym 256 heob _ _).mp hs)
        · exact .copy (copy_iff.mpr ⟨i, m, (hsym _ hmax _ _).mp hs, hb⟩) h
      · rintro (hs | ⟨hs, hlit, h⟩ | ⟨hc, h⟩)
        · exact ⟨256, _, (hsym 256 heob _ _).mpr hs, .inr (.inl ⟨rfl, rfl⟩)⟩
        · have hle := hlt.le _ _ _ (by omega) hs
          exact ⟨_, _, (hsym _ hle _ _).mpr hs, .inl ⟨hlit, h⟩⟩
        · obtain ⟨i, m, hs, hb⟩ := copy_iff.mp hc
          have hle := hlt.le _ _ _ (by have := hb.1; omega) hs
          exact ⟨_, _, (hsym _ hle _ _).mpr hs, .inr (.inr ⟨i, _, rfl, ⟨hle, hb⟩, h⟩)⟩

theorem block_data_found (lt dt : tinf_tree) (fuel : Nat) (d e : tinf_data)
    (h : tinf_inflate_block_data lt dt fuel d = .ok ((), e)) : e.overflow = false := by
  induction fuel generalizing d with
  | zero => cases h
  | succ fuel ih =>
    rw [tinf_inflate_block_data, bind_apply] at h
    obtain ⟨⟨s, g⟩, -, h⟩ := Outcome.bind_eq_ok h
    rw [get_bind] at h
    cases hover : g.overflow with
    | true =>
      rw [hover, if_pos rfl] at h
      cases h
    | false =>
      rw [hover, if_neg Bool.false_ne_true] at h
      split at h
      · split at h
        · cases h
        · rw [bind_apply] at h
          obtain ⟨⟨_, k⟩, -, h⟩ := Outcome.bind_eq_ok h
          exact ih k h
      · split at h
        · cases h
          exact hover
        · rw [bind_apply] at h
          obtain ⟨⟨_, k⟩, -, h⟩ := Outcome.bind_eq_ok h
          exact ih k h

/-! ## Fixed codes -/

theorem ascending_get (a : List (Option Nat)) (k v n i : Nat) (hlen : k + n ≤ a.length) :
    (ascending a k v n)[i]? = if k ≤ i ∧ i < k + n then some (some (v + (i - k))) else a[i]? := by
  induction n with
  | zero => rw [if_neg (by omega), ascending]
  | succ n ih =>
    have hsize : ∀ m, (ascending a k v m).length = a.length := by
      intro m
      induction m with
      | zero => rfl
      | succ m ih => rw [ascending, List.length_set, ih]
    rw [ascending, List.getElem?_set, hsize, ih (by omega)]
    by_cases hi : k + n = i
    · subst hi
      rw [if_pos rfl, if_pos (by omega), if_pos (by omega), Nat.add_sub_cancel_left]
    · rw [if_neg hi]
      exact if_congr (by omega) rfl rfl

theorem fixed_lit_length : fixed_lit.length = 288 := by decide +kernel

theorem fixed_lit_counts : ∀ k ≤ 15,
    ((((List.replicate 16 0).set 7 24).set 8 152).set 9 112)[k]? = some (counts fixed_lit k) := by decide +kernel

theorem fixed_lit_place : ∀ s < 288, place fixed_lit s
    = if s < 144 then 24 + s else if s < 256 then 176 + (s - 144) else if s < 280 then s - 256 else 168 +
      (s - 280) := by
  decide +kernel

theorem fixed_dist_counts : ∀ k ≤ 15, ((List.replicate 16 0).set 5 32)[k]? = some (counts fixed_dist k) := by decide

theorem fixed_dist_place : ∀ s < 32, place fixed_dist s = s := by decide

@[simp] theorem ascending_length (a : List (Option Nat)) (k v n : Nat) : (ascending a k v n).length = a.length := by
  induction n with
  | zero => rfl
  | succ n ih => rw [ascending, List.length_set, ih]

theorem fixed_lit_built (lt dt : tinf_tree) (h : lt.symbols.length = 288) :
    Built (tinf_build_fixed_trees lt dt).1 fixed_lit := by
  have hle : ∀ l ∈ fixed_lit, l ≤ 15 := by decide +kernel
  have hkraft : kraft 15 fixed_lit = 2 ^ 15 := by decide +kernel
  have hfree := counts_le_free hle (Nat.le_of_eq hkraft)
  refine ⟨fixed_lit_counts, fun s k hs => ?_, by simp [tinf_build_fixed_trees, h], hle, hfree,
    (full_iff hle hfree).mpr hkraft⟩
  have hlt : s < 288 := fixed_lit_length ▸ (List.getElem?_eq_some_iff.mp hs).1
  rw [fixed_lit_place s hlt]
  dsimp only [tinf_build_fixed_trees]
  rw [ascending_get _ _ _ _ _ (by simp [h]), ascending_get _ _ _ _ _ (by simp [h]),
    ascending_get _ _ _ _ _ (by simp [h]),
    ascending_get _ _ _ _ _ (by simp [h])]
  -- the four runs of symbols are in the order of their lengths
  by_cases h1 : s < 144
  · rw [if_pos h1, if_neg (by omega), if_neg (by omega), if_pos (by omega)]
    simp only [Option.some.injEq]
    omega
  · rw [if_neg h1]
    by_cases h2 : s < 256
    · rw [if_pos h2, if_pos (by omega)]
      simp only [Option.some.injEq]
      omega
    · rw [if_neg h2]
      by_cases h3 : s < 280
      · rw [if_pos h3, if_neg (by omega), if_neg (by omega), if_neg (by omega), if_pos (by omega)]
        simp only [Option.some.injEq]
        omega
      · rw [if_neg h3, if_neg (by omega), if_pos (by omega)]
        simp only [Option.some.injEq]
        omega

theorem fixed_dist_built (lt dt : tinf_tree) (h : dt.symbols.length = 288) :
    Built (tinf_build_fixed_trees lt dt).2 fixed_dist := by
  have hle : ∀ l ∈ fixed_dist, l ≤ 15 := by decide
  have hkraft : kraft 15 fixed_dist = 2 ^ 15 := by decide
  have hfree := counts_le_free hle (Nat.le_of_eq hkraft)
  refine ⟨fixed_dist_counts, fun s k hs => ?_, by simp [tinf_build_fixed_trees, h], hle, hfree,
    (full_iff hle hfree).mpr hkraft⟩
  have hlt : s < 32 := by simpa [fixed_dist] using (List.getElem?_eq_some_iff.mp hs).1
  rw [fixed_dist_place s hlt]
  dsimp only [tinf_build_fixed_trees]
  rw [ascending_get _ _ _ _ _ (by simp [h]), if_pos (by omega)]
  simp only [Option.some.injEq]
  omega

theorem Built.serves {t : tinf_tree} {ls : List Nat} (h : Built t ls) (n : Nat) (hmax : t.max_sym = n) :
    Serves (n + 1) t ls :=
  ⟨fun s _ _ hs _ => by omega, fun _ => ⟨ls, _, decode_symbol_reads h, fun _ _ _ _ => Iff.rfl⟩⟩

/-! ## Stored blocks -/

theorem ofBytes_split {source l : List UInt8} {rest : List Bool} (h : ofBytes source = ofBytes l ++ rest) :
    source = l ++ source.drop l.length ∧ rest = ofBytes (source.drop l.length) := by
  have hlen := congrArg List.length h
  rw [List.length_append, ofBytes_length, ofBytes_length] at hlen
  have hsplit := congrArg ofBytes (List.take_append_drop l.length source)
  rw [ofBytes_append, h] at hsplit
  obtain ⟨htake, hdrop⟩ := List.append_inj hsplit (by rw [ofBytes_length, ofBytes_length, List.length_take]; omega)
  refine ⟨?_, hdrop.symm⟩
  conv_lhs => rw [← List.take_append_drop l.length source, ofBytes_inj htake]

theorem le16_eq (n : Nat) (hn : n < 65536) (a b : UInt8) : le16 n = [a, b] ↔ a.toNat + 256 * b.toNat = n := by
  have ha := a.toNat_lt
  have hb := b.toNat_lt
  simp only [le16, List.cons.injEq, and_true, ← UInt8.toNat_inj, UInt8.toNat_ofNat']
  omega

theorem read_le16_spec {p : List UInt8} {a b : UInt8} {rest : List UInt8} (hp : p = a :: b :: rest) (d : tinf_data) :
    read_le16 p d = .ok (a.toNat + 256 * b.toNat, d) := by
  have ha := a.toNat_lt
  have hor : a.toNat ||| b.toNat <<< 8 = a.toNat + 256 * b.toNat := by
    rw [Nat.or_comm, ← Nat.shiftLeft_add_eq_or_of_lt ha, Nat.shiftLeft_eq]
    omega
  have h0 : p[0]? = some a := by rw [hp]; rfl
  have h1 : p[1]? = some b := by rw [hp]; rfl
  rw [read_le16, must_bind h0, must_bind h1, hor]
  rfl

theorem copy_block_spec (n : Nat) (d : tinf_data) (hn : n ≤ d.source.length) (hroom : d.dest.length + n ≤ d.room) :
    copy_block n d = .ok ((), { d with source := d.source.drop n, dest := d.dest ++ d.source.take n }) := by
  induction n generalizing d with
  | zero => simp [copy_block, pure_apply]
  | succ n ih =>
    cases hsource : d.source with
    | nil =>
      rw [hsource] at hn
      cases hn
    | cons b source =>
      have hhead : d.source.head? = some b := by rw [hsource]; rfl
      rw [hsource, List.length_cons] at hn
      rw [copy_block, get_bind, must_bind hhead, put_bind (by omega), modify_bind]
      have hgo := ih { d with source := d.source.tail, dest := d.dest ++ [b] } (by rw [hsource]; simpa using hn)
        (by rw [List.length_append, List.length_singleton]; dsimp only; omega)
      rw [hsource] at hgo ⊢
      simpa using hgo

theorem stored_iff {d : tinf_data} (hd : Good d) {q : Point} :
    Stored ⟨d.bits, d.dest⟩ q ↔ ∃ a b c e rest, d.source = a :: b :: c :: e :: rest ∧
      c.toNat + 256 * e.toNat = 65535 - (a.toNat + 256 * b.toNat) ∧ a.toNat + 256 * b.toNat ≤ rest.length ∧
      q = ⟨ofBytes (rest.drop (a.toNat + 256 * b.toNat)), d.dest ++ rest.take (a.toNat + 256 * b.toNat)⟩ := by
  have hmod : d.bits.length % 8 = d.bitcount := by
    have := hd.few
    rw [tinf_data.bits, List.length_append, lsb_length, ofBytes_length]
    omega
  constructor
  · intro h
    generalize hp : (⟨d.bits, d.dest⟩ : Point) = p at h
    obtain @⟨pad, rest, data, out, hlen, hpad⟩ := h
    obtain ⟨hbits, rfl⟩ := Point.mk.inj hp
    rw [← hbits, hmod] at hpad
    rw [tinf_data.bits, List.append_assoc] at hbits
    obtain ⟨-, hsource⟩ := List.append_inj hbits (by rw [lsb_length, hpad])
    obtain ⟨hbytes, rfl⟩ := ofBytes_split hsource
    obtain ⟨a, b, hab⟩ : ∃ a b, le16 data.length = [a, b] := ⟨_, _, rfl⟩
    obtain ⟨c, e, hce⟩ : ∃ c e, le16 (65535 - data.length) = [c, e] := ⟨_, _, rfl⟩
    have hlow := (le16_eq data.length hlen a b).mp hab
    have hhigh := (le16_eq (65535 - data.length) (by omega) c e).mp hce
    generalize hrest : d.source.drop (le16 data.length ++ le16 (65535 - data.length) ++ data).length = rest at hbytes
    rw [hab, hce] at hbytes
    refine ⟨a, b, c, e, data ++ rest, hbytes, by rw [hlow, hhigh], ?_, ?_⟩
    · rw [hlow, List.length_append]
      omega
    · rw [hlow, List.drop_left, List.take_left]
  · rintro ⟨a, b, c, e, rest, hsource, hinv, hle, rfl⟩
    have ha := a.toNat_lt
    have hb := b.toNat_lt
    generalize hn : a.toNat + 256 * b.toNat = n at hinv hle ⊢
    have hlen : (rest.take n).length = n := by
      rw [List.length_take]
      omega
    have hab := (le16_eq n (by omega) a b).mpr hn
    have hce := (le16_eq (65535 - n) (by omega) c e).mpr hinv
    have hbits : d.bits = lsb d.bitcount d.tag ++ ofBytes (le16 (rest.take n).length ++
        le16 (65535 - (rest.take n).length) ++ rest.take n) ++ ofBytes (rest.drop n) := by
      rw [hlen, hab, hce, List.append_assoc, ← ofBytes_append, tinf_data.bits, hsource]
      simp
    rw [hbits]
    refine .intro (by omega) ?_
    rw [← hbits, hmod, lsb_length]

theorem uncompressed_block_run (d : tinf_data) (hd : Good d) :
    (∃ x, tinf_inflate_uncompressed_block d = .fail x ∧ ∀ q, ¬ Stored ⟨d.bits, d.dest⟩ q) ∨
      (tinf_inflate_uncompressed_block d = .fail .TINF_BUF_ERROR ∧
        ∀ q, Stored ⟨d.bits, d.dest⟩ q → ¬ q.out.length ≤ d.room) ∨
      (∃ e, tinf_inflate_uncompressed_block d = .ok ((), e) ∧ Good e ∧ e.room = d.room ∧ d.overflow = false ∧
        e.overflow = false ∧ ∀ q, Stored ⟨d.bits, d.dest⟩ q ↔ q = ⟨e.bits, e.dest⟩) := by
  have hroom := hd.room
  rw [tinf_inflate_uncompressed_block, get_bind]
  by_cases hfour : d.source.length < 4
  · rw [if_pos hfour]
    refine .inl ⟨_, rfl, fun q h => ?_⟩
    obtain ⟨a, b, c, e, rest, hsource, -⟩ := (stored_iff hd).mp h
    rw [hsource] at hfour
    simp only [List.length_cons] at hfour
    omega
  · obtain ⟨a, b, c, e, rest, hsource⟩ : ∃ a b c e rest, d.source = a :: b :: c :: e :: rest := by
      rcases hs : d.source with _ | ⟨a, _ | ⟨b, _ | ⟨c, _ | ⟨e, rest⟩⟩⟩⟩
      · rw [hs] at hfour; simp at hfour
      · rw [hs] at hfour; simp at hfour
      · rw [hs] at hfour; simp at hfour
      · rw [hs] at hfour; simp at hfour
      · exact ⟨a, b, c, e, rest, rfl⟩
    have hdrop : d.source.drop 2 = c :: e :: rest := by
      rw [hsource]
      rfl
    rw [if_neg hfour, bind_ok (read_le16_spec hsource d), bind_ok (read_le16_spec hdrop d)]
    have ha := a.toNat_lt
    have hb := b.toNat_lt
    have hc := c.toNat_lt
    have he := e.toNat_lt
    have hmask : (2 ^ 32 - 1 - (c.toNat + 256 * e.toNat)) &&& 0xFFFF = 65535 - (c.toNat + 256 * e.toNat) := by
      rw [show 0xFFFF = 2 ^ 16 - 1 from rfl, Nat.and_two_pow_sub_one_eq_mod]
      omega
    -- there is one way to take the source apart
    have hone : ∀ q, Stored ⟨d.bits, d.dest⟩ q → c.toNat + 256 * e.toNat = 65535 - (a.toNat + 256 * b.toNat) ∧
        a.toNat + 256 * b.toNat ≤ rest.length ∧
        q = ⟨ofBytes (rest.drop (a.toNat + 256 * b.toNat)), d.dest ++ rest.take (a.toNat + 256 * b.toNat)⟩ := by
      intro q h
      obtain ⟨a', b', c', e', rest', hsource', hrest⟩ := (stored_iff hd).mp h
      rw [hsource] at hsource'
      obtain ⟨rfl, rfl, rfl, rfl, rfl⟩ : a = a' ∧ b = b' ∧ c = c' ∧ e = e' ∧ rest = rest' := by simpa using hsource'
      exact hrest
    rw [hmask]
    generalize hn : a.toNat + 256 * b.toNat = n at hone ⊢
    by_cases hinv : n ≠ 65535 - (c.toNat + 256 * e.toNat)
    · rw [if_pos hinv]
      refine .inl ⟨_, rfl, fun q h => ?_⟩
      have := (hone q h).1
      omega
    · rw [if_neg hinv, modify_bind, get_bind]
      dsimp only
      have hafter : d.source.drop 4 = rest := by
        rw [hsource]
        rfl
      rw [hafter]
      by_cases hshort : rest.length < n
      · rw [if_pos hshort]
        refine .inl ⟨_, rfl, fun q h => ?_⟩
        have := (hone q h).2.1
        omega
      · rw [if_neg hshort]
        by_cases hfull : d.room - d.dest.length < n
        · rw [if_pos hfull]
          refine .inr (.inl ⟨rfl, fun q h hfit => ?_⟩)
          obtain ⟨-, hle, rfl⟩ := hone q h
          simp only [List.length_append, List.length_take] at hfit
          omega
        · have hcopy := copy_block_spec n { d with source := rest } (by dsimp only; omega) (by dsimp only; omega)
          have hover : d.overflow = false := by
            cases h : d.overflow with
            | false => rfl
            | true =>
              rw [hd.ended h] at hsource
              cases hsource
          rw [if_neg hfull, bind_ok hcopy]
          refine .inr (.inr ⟨_, rfl, ⟨Nat.succ_pos 7, Nat.one_pos, fun h => ?_, ?_, hd.ltree, hd.dtree⟩, rfl,
            hover, hover,
            fun q => ⟨fun h => (hone q h).2.2, ?_⟩⟩)
          · rw [show d.overflow = true from h] at hover
            cases hover
          · simp only [List.length_append, List.length_take]
            omega
          · rintro rfl
            exact (stored_iff hd).mpr ⟨a, b, c, e, rest, hsource, by omega, by omega, by rw [hn]; rfl⟩

theorem uncompressed_block_reads (d : tinf_data) (hd : Good d) :
    Reads seen d (tinf_inflate_uncompressed_block d) (fun _ _ => True) (fun p (_ : Unit) q => Stored p q) := by
  rcases uncompressed_block_run d hd with
    ⟨x, hrun, hno⟩ | ⟨hrun, hfull⟩ | ⟨e, hrun, hgood, hroom, hover, hovere, hiff⟩
  · rw [hrun]
    exact Reads.fail fun _ q h _ => hno q h
  · rw [hrun]
    exact Reads.fail_full (V := seen) fun _ q h => hfull q h
  · rw [hrun]
    have hlost : seen.lost d ↔ seen.lost e := by simp [seen, hover, hovere]
    have hfits : seen.fits e = seen.fits d := by
      funext p
      simp only [seen, hroom]
    have hdone : Reads seen e (.ok ((), e)) (fun _ (_ : Unit) => True) (fun p c q => c = () ∧ q = p) :=
      Reads.pure hgood trivial
    refine hdone.after hfits hlost fun _ v => ?_
    exact ⟨fun h => (hiff v).mpr h.2, fun h => ⟨rfl, (hiff v).mp h⟩⟩

theorem uncompressed_block_found {d e : tinf_data} (hd : Good d) (h : tinf_inflate_uncompressed_block d = .ok ((), e)) :
    e.overflow = false := by
  rcases uncompressed_block_run d hd with ⟨x, hrun, -⟩ | ⟨hrun, -⟩ | ⟨e', hrun, -, -, -, hover, -⟩
  · rw [hrun] at h
    cases h
  · rw [hrun] at h
    cases h
  · rw [hrun] at h
    cases h
    exact hover

end Coins.Tinf
