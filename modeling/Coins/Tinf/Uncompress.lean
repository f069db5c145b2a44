import Coins.Tinf.Blocks

/-!
# `tinf_uncompress`

For any bytes and any room it comes back, with the bytes of the stream if there is one and they fit, and with an
error if not.
-/

open Coins.Bits Coins.Decoder Coins.Huffman

namespace Coins.Tinf

/-- What a type of block stands for. -/
inductive Kind : Nat → Point → Unit → Point → Prop
  | stored {p q : Point} (h : Stored p q) : Kind 0 p () q
  | fixed {p q : Point} (h : Data fixed_lit fixed_dist p q) : Kind 1 p () q
  | dynamic {lit dist : List Nat} {p m q : Point} (ht : Trees p (lit, dist) m) (h : Data lit dist m q) : Kind 2 p () q

theorem block_iff {p q : Point} : Block p q ↔ ∃ t m, Number 2 p t m ∧ Kind t m () q := by
  constructor
  · rintro (⟨h, hs⟩ | ⟨h, hd⟩ | ⟨h, ht, hd⟩)
    · exact ⟨0, _, h, .stored hs⟩
    · exact ⟨1, _, h, .fixed hd⟩
    · exact ⟨2, _, h, .dynamic ht hd⟩
  · rintro ⟨t, m, h, hs | hd | ⟨ht, hd⟩⟩
    · exact .stored h hs
    · exact .fixed h hd
    · exact .dynamic h ht hd

theorem Kind.length {t : Nat} {p q : Point} {c : Unit} (h : Kind t p c q) :
    q.bits.length < p.bits.length ∧ p.out.length ≤ q.out.length := by
  cases h with
  | stored h => exact h.length
  | fixed h => exact h.length
  | dynamic ht h =>
    have hlen := h.length
    rw [ht.length.2]
    exact ⟨hlen.1.trans ht.length.1, hlen.2⟩

theorem Good.trees {d : tinf_data} (h : Good d) {lt dt : tinf_tree} (hlt : lt.symbols.length = 288)
    (hdt : dt.symbols.length = 288) : Good { d with ltree := lt, dtree := dt } :=
  ⟨h.few, h.tag_lt, h.ended, h.room, hlt, hdt⟩

theorem inflate_block_reads (fuel t : Nat) (d : tinf_data) (hd : Good d) (hfuel : 0 < fuel)
    (hbits : d.overflow = false → d.bits.length < fuel) :
    Reads seen d (inflate_block fuel t d) (fun _ _ => True) (Kind t) := by
  rw [inflate_block]
  by_cases h0 : t = 0
  · subst h0
    rw [if_pos rfl]
    refine (uncompressed_block_reads d hd).congr fun c q => ⟨.stored, ?_⟩
    rintro ⟨h⟩
    exact h
  · rw [if_neg h0]
    by_cases h1 : t = 1
    · subst h1
      have hlit := fixed_lit_built d.ltree d.dtree hd.ltree
      have hdist := fixed_dist_built d.ltree d.dtree hd.dtree
      have hgood := hd.trees hlit.size hdist.size
      have heob : 256 ≤ (tinf_build_fixed_trees d.ltree d.dtree).1.max_sym := (by decide : (256 : Int) ≤ 285)
      rw [if_pos rfl, tinf_inflate_fixed_block, modify_bind, get_bind]
      refine (block_data_reads (hlit.serves 285 rfl) (hdist.serves 29 rfl) heob fuel _ hgood hfuel hbits).after
        rfl Iff.rfl fun c q => ⟨.fixed, ?_⟩
      rintro (_ | h)
      exact h
    · rw [if_neg h1]
      by_cases h2 : t = 2
      · subst h2
        have htrees := decode_trees_reads d.ltree d.dtree hd.ltree hd.dtree d hd
        rw [if_pos rfl, tinf_inflate_dynamic_block, get_bind]
        refine (bind_grows htrees (S := fun c p (_ : Unit) q => Data c.1 c.2 p q) ?_ fun c => data_grows c.1 c.2).congr
          fun c q => ?_
        · rintro ⟨lt, dt⟩ ⟨lit, dist⟩ e he hgood hstand
          have hgood' := hgood.trees hstand.lit.size hstand.dist.size
          refine (block_data_reads (hstand.lit.serves 286)
            (hstand.dist.serves 30) hstand.eob fuel _ hgood' hfuel ?_).after
            rfl Iff.rfl fun c q => Iff.rfl
          intro hover
          obtain ⟨-, -, -, hlost⟩ := htrees.kept _ e he
          obtain ⟨c, -, hread⟩ := htrees.sound _ e he (by simpa [seen] using hover)
          have hdover : d.overflow = false := by
            cases h : d.overflow with
            | false => rfl
            | true => exact absurd (hlost h) (by simpa [seen] using hover)
          exact hread.length.1.trans (hbits hdover)
        · constructor
          · rintro ⟨⟨lit, dist⟩, m, ht, h⟩
            exact .dynamic ht h
          · rintro (_ | _ | ⟨ht, h⟩)
            exact ⟨_, _, ht, h⟩
      · rw [if_neg h2]
        refine Reads.fail ?_
        rintro c q (_ | _ | _) -
        · exact h0 rfl
        · exact h1 rfl
        · exact h2 rfl

theorem inflate_block_found {fuel t : Nat} {d e : tinf_data} (hd : Good d) (h : inflate_block fuel t d = .ok ((), e)) :
    e.overflow = false := by
  rw [inflate_block] at h
  split at h
  · exact uncompressed_block_found hd h
  · split at h
    · exact block_data_found _ _ fuel _ e h
    · split at h
      · rw [tinf_inflate_dynamic_block, get_bind, bind_apply] at h
        obtain ⟨⟨⟨lt, dt⟩, g⟩, -, h⟩ := Outcome.bind_eq_ok h
        exact block_data_found _ _ fuel _ e h
      · cases h

theorem getbits_found {num v : Nat} (hnum : num ≤ 24) {d e : tinf_data} (hd : Good d)
    (h : tinf_getbits num d = .ok (v, e)) (hover : e.overflow = false) :
    d.overflow = false ∧ d.bits.length = num + e.bits.length := by
  have hread := getbits_reads num hnum d hd
  obtain ⟨-, -, -, hlost⟩ := hread.kept v e h
  obtain ⟨n, -, hn⟩ := hread.sound v e h (by simp [seen, hover])
  refine ⟨?_, hn.length⟩
  cases hdover : d.overflow with
  | false => rfl
  | true => exact absurd (hlost hdover) (by simp [seen, hover])

theorem inflate_blocks_reads (deep fuel : Nat) (d : tinf_data) (hd : Good d) (hbits : d.bits.length < fuel)
    (hdeep : fuel ≤ deep) :
    Reads seen d (inflate_blocks deep fuel d) (fun _ _ => True) (fun p (_ : Unit) q => Stream p q) := by
  induction fuel generalizing d with
  | zero => omega
  | succ fuel ih =>
    let Rest (b : Nat) : Piece Unit := fun p _ q => (b = 0 ∧ Stream p q) ∨ (b ≠ 0 ∧ q = p)
    have hrest : ∀ b, Grows (Rest b) := by
      rintro b p c q (⟨-, h⟩ | ⟨-, rfl⟩)
      · exact h.length
      · exact le_refl _
    have hkind : ∀ t b, Grows fun p (c : Unit) q => ∃ m, Kind t p () m ∧ Rest b m c q := by
      rintro t b p c q ⟨m, hk, h⟩
      exact hk.length.2.trans (hrest b m c q h)
    rw [inflate_blocks]
    refine (bind_grows (getbits_reads 1 (by omega) d hd) (S := fun b p c q =>
      ∃ t m, Number 2 p t m ∧ ∃ n, Kind t m () n ∧ Rest b n c q) ?_ ?_).congr fun c q => ?_
    · rintro b _ d1 h1 hd1 ⟨rfl, hb⟩
      refine (bind_grows (getbits_reads 2 (by omega) d1 hd1) (S := fun t p c q =>
        ∃ n, Kind t p () n ∧ Rest b n c q) ?_ fun t => hkind t b).congr fun c q => Iff.rfl
      rintro t _ d2 h2 hd2 ⟨rfl, ht⟩
      have hless : d2.overflow = false → d2.bits.length < fuel := by
        intro hover
        obtain ⟨hover1, hlen1⟩ := getbits_found (by omega) hd1 h2 hover
        obtain ⟨-, hlen⟩ := getbits_found (by omega) hd h1 hover1
        omega
      have hblock := inflate_block_reads deep t d2 hd2 (by omega) fun h => by have := hless h; omega
      refine (bind_grows hblock (S := fun _ p c q => Rest b p c q) ?_ fun _ => hrest b).congr fun c q => ?_
      · rintro _ _ d3 h3 hd3 -
        have hover := inflate_block_found hd2 h3
        obtain ⟨-, -, -, hlost⟩ := hblock.kept _ d3 h3
        obtain ⟨_, -, hk⟩ := hblock.sound _ d3 h3 (by simp [seen, hover])
        have hover2 : d2.overflow = false := by
          cases h : d2.overflow with
          | false => rfl
          | true => exact absurd (hlost h) (by simp [seen, hover])
        have hlen3 : d3.bits.length < d2.bits.length := hk.length.1
        by_cases h0 : b = 0
        · rw [if_pos h0]
          refine (ih d3 hd3 (by have := hless hover2; omega) (by omega)).congr fun c q => ?_
          constructor
          · exact fun h => .inl ⟨h0, h⟩
          · rintro (⟨-, h⟩ | ⟨h, -⟩)
            · exact h
            · exact absurd h0 h
        · rw [if_neg h0]
          refine (Reads.pure (c := ()) hd3 trivial).congr fun c q => ?_
          constructor
          · exact fun h => .inr ⟨h0, h.2⟩
          · rintro (⟨h, -⟩ | ⟨-, h⟩)
            · exact absurd h h0
            · exact ⟨rfl, h⟩
      · constructor
        · rintro ⟨_, m, hk, h⟩
          exact ⟨m, hk, h⟩
        · rintro ⟨m, hk, h⟩
          exact ⟨(), m, hk, h⟩
    · rintro b p c q ⟨t, m, ht, h⟩
      rw [ht.out]
      exact hkind t b m c q h
    · constructor
      · rintro ⟨b, p1, hb, t, p2, ht, p3, hk, ⟨rfl, h⟩ | ⟨hne, rfl⟩⟩
        · exact .more hb (block_iff.mpr ⟨t, p2, ht, hk⟩) h
        · obtain rfl : b = 1 := by
            have := hb.1
            omega
          exact .last hb (block_iff.mpr ⟨t, p2, ht, hk⟩)
      · rintro (⟨h, hb⟩ | ⟨h, hb, hs⟩)
        · obtain ⟨t, m, ht, hk⟩ := block_iff.mp hb
          exact ⟨1, _, h, t, m, ht, q, hk, .inr ⟨Nat.one_ne_zero, rfl⟩⟩
        · obtain ⟨t, m, ht, hk⟩ := block_iff.mp hb
          exact ⟨0, _, h, t, m, ht, _, hk, .inl ⟨rfl, hs⟩⟩

/-! ## All of it -/

theorem Good.init (source : List UInt8) (room : Nat) : Good (.init source room) :=
  ⟨Nat.succ_pos 7, Nat.one_pos, nofun, Nat.zero_le room, List.length_replicate, List.length_replicate⟩

theorem inflate_all_reads (source : List UInt8) (room : Nat) :
    Reads seen (.init source room) (inflate_all (8 * source.length + 1) (.init source room)) (Is fun _ => True)
      (fun p out q => Stream p q ∧ out = q.out) := by
  have hbits : (tinf_data.init source room).bits.length = 8 * source.length := ofBytes_length source
  have hblocks := inflate_blocks_reads (8 * source.length + 1) (8 * source.length + 1) _ (.init source room)
    (by omega) (le_refl _)
  rw [inflate_all]
  refine (bind_quiet hblocks (S := fun _ p out q => out = q.out ∧ q = p) ?_ ?_).congr fun out q => ?_
  · rintro _ _ e - he -
    rw [get_bind]
    cases hover : e.overflow with
    | true =>
      rw [if_pos rfl]
      exact Reads.fail fun c q _ hl => hl hover
    | false =>
      rw [if_neg Bool.false_ne_true]
      refine (Reads.pure he ⟨rfl, trivial⟩).congr fun out q => ?_
      constructor
      · rintro ⟨rfl, rfl⟩
        exact ⟨rfl, rfl⟩
      · rintro ⟨rfl, rfl⟩
        exact ⟨rfl, rfl⟩
  · rintro _ p out q ⟨-, rfl⟩
    rfl
  · constructor
    · rintro ⟨_, m, hs, rfl, rfl⟩
      exact ⟨hs, rfl⟩
    · rintro ⟨hs, rfl⟩
      exact ⟨(), q, hs, rfl, rfl⟩

theorem inflate_all_found {fuel : Nat} {d e : tinf_data} {out : List UInt8} (h : inflate_all fuel d = .ok (out, e)) :
    e.overflow = false := by
  rw [inflate_all, bind_apply] at h
  obtain ⟨⟨_, g⟩, -, h⟩ := Outcome.bind_eq_ok h
  rw [get_bind] at h
  cases hover : g.overflow with
  | true =>
    rw [hover, if_pos rfl] at h
    cases h
  | false =>
    rw [hover, if_neg Bool.false_ne_true] at h
    cases h
    exact hover

theorem uncompress_ok_iff (source : List UInt8) (room : Nat) (out : List UInt8) :
    tinf_uncompress source room = .ok out ↔
      (∃ rest, Stream ⟨ofBytes source, []⟩ ⟨rest, out⟩) ∧ out.length ≤ room := by
  have hread := inflate_all_reads source room
  constructor
  · intro h
    obtain ⟨⟨a, d⟩, hrun, ha⟩ := Outcome.bind_eq_ok h
    obtain rfl : a = out := Outcome.ok.inj ha
    obtain ⟨hgood, -, hfits, -⟩ := hread.kept a d hrun
    obtain ⟨c, ⟨rfl, -⟩, hs, hout⟩ := hread.sound a d hrun (by simp [seen, inflate_all_found hrun])
    subst hout
    have hroom : seen.fits (.init source room) ⟨[], d.dest⟩ := hfits ▸ hgood.room
    exact ⟨⟨d.bits, hs⟩, hroom⟩
  · rintro ⟨⟨rest, hs⟩, hroom⟩
    obtain ⟨a, d, hrun, ⟨rfl, -⟩, -⟩ := hread.complete out ⟨rest, out⟩ ⟨hs, rfl⟩ (by simp [seen, tinf_data.init]) hroom
    rw [tinf_uncompress, hrun]
    rfl

theorem uncompress_full (source : List UInt8) (room : Nat) (q : Point) (h : Stream ⟨ofBytes source, []⟩ q)
    (hroom : room < q.out.length) : tinf_uncompress source room = .fail .TINF_BUF_ERROR := by
  have hfull := (inflate_all_reads source room).full q.out q ⟨h, rfl⟩ (by simp [seen, tinf_data.init])
    (Nat.not_le.mpr hroom)
  rw [tinf_uncompress, hfull]
  rfl

theorem stream_unique {source : List UInt8} {q r : Point} (hq : Stream ⟨ofBytes source, []⟩ q)
    (hr : Stream ⟨ofBytes source, []⟩ r) : q = r := by
  have hread := inflate_all_reads source (q.out.length + r.out.length)
  obtain ⟨a, d, hrun, -, hview, -⟩ := hread.complete q.out q ⟨hq, rfl⟩ (by simp [seen, tinf_data.init])
    (Nat.le_add_right _ _)
  obtain ⟨b, e, hrun', -, hview', -⟩ := hread.complete r.out r ⟨hr, rfl⟩ (by simp [seen, tinf_data.init])
    (Nat.le_add_left _ _)
  rw [hrun] at hrun'
  obtain ⟨-, rfl⟩ := Prod.mk.inj (Outcome.ok.inj hrun')
  exact hview.symm.trans hview'

/-- **No run goes wrong**: none fails an assertion, leaves an array, reads what is not written,
writes behind the room or does not end. -/
theorem tinf_uncompress_safe (source : List UInt8) (room : Nat) : tinf_uncompress source room ≠ .crash := by
  apply Outcome.bind_ne_crash (inflate_all_reads source room).safe
  exact nofun

/-- **It inflates**: what comes out with `TINF_OK` is what the stream at the beginning of the source stands for, and a
stream for which there is no room is told from what is no stream. -/
theorem tinf_uncompress_correct (source : List UInt8) (room : Nat) :
    (∀ out, tinf_uncompress source room = .ok out ↔
      (∃ rest, Stream ⟨ofBytes source, []⟩ ⟨rest, out⟩) ∧ out.length ≤ room) ∧
    ∀ q, Stream ⟨ofBytes source, []⟩ q → room < q.out.length →
      tinf_uncompress source room = .fail .TINF_BUF_ERROR :=
  ⟨fun out => uncompress_ok_iff source room out, fun q h hroom => uncompress_full source room q h hroom⟩

end Coins.Tinf
