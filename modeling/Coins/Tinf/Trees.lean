import Coins.Tinf.Reader

/-!
# Trees

A tree has for each length how many words there are, and the symbols in the order of their words. It is built from
the lengths of the words, and going down in it finds the symbol whose word comes next.
-/

open Coins.Bits Coins.Decoder Coins.Huffman

namespace Coins.Tinf

/-- The tree of a code that leaves no node behind level 15. -/
structure Built (t : tinf_tree) (ls : List Nat) : Prop where
  counts : ∀ k ≤ 15, t.counts[k]? = some (counts ls k)
  symbols : ∀ s k, ls[s]? = some (k + 1) → t.symbols[place ls s]? = some (some s)
  size : t.symbols.length = 288
  le : ∀ l ∈ ls, l ≤ 15
  free : ∀ k ≤ 15, Huffman.counts ls k ≤ free (Huffman.counts ls) k
  full : Huffman.free (Huffman.counts ls) 16 = 0

/-! ## Going down -/

theorem bit_of_one {b : Nat} (h : b < 2) : lsb 1 b = [decide (b % 2 = 1)] ∧ (decide (b % 2 = 1)).toNat = b := by
  refine ⟨rfl, ?_⟩
  rw [bit_toNat, Nat.mod_eq_of_lt h]

theorem decode_index_reads {t : tinf_tree} {ls : List Nat} (ht : Built t ls) (n len offs : Nat) (hlen : n + len = 16)
    (hoffs : 2 * offs + 2 ≤ free (counts ls) len) (d : tinf_data) (hd : Good d) :
    Reads seen d (decode_index t (n + 1) len (shorter (counts ls) len) offs d) (Is (· < shorter (counts ls) 16))
      (fun p i q => walk (counts ls) n len (shorter (counts ls) len) offs p.bits = some (i, q.bits) ∧
        q.out = p.out) := by
  induction n generalizing len offs d with
  | zero =>
    obtain rfl : len = 16 := by omega
    rw [ht.full] at hoffs
    omega
  | succ n ih =>
    have hcount := ht.counts len (by omega)
    rw [decode_index]
    refine (bind_quiet (getbits_reads 1 (by omega) d hd)
      (S := fun b p i q => (if 2 * offs + b < counts ls len then
          some (shorter (counts ls) len + (2 * offs + b), p.bits)
        else walk (counts ls) n (len + 1) (shorter (counts ls) (len + 1)) (2 * offs + b - counts ls len) p.bits)
          = some (i, q.bits) ∧ q.out = p.out) ?_ ?_).congr ?_
    · rintro b _ e - he ⟨rfl, hb⟩
      rw [assert_bind (by omega : len ≤ 15), must_bind hcount]
      by_cases hleaf : 2 * offs + b < counts ls len
      · simp only [if_pos hleaf]
        have hplace : shorter (counts ls) len + (2 * offs + b) < shorter (counts ls) 16 :=
          (Nat.add_lt_add_left hleaf _).trans_le (shorter_mono (c := counts ls) (by omega : len + 1 ≤ 16))
        refine (Reads.pure he ⟨rfl, hplace⟩).congr fun i q => ?_
        simp only [seen, Option.some.injEq, Prod.mk.injEq]
        constructor
        · rintro ⟨rfl, rfl⟩
          exact ⟨⟨rfl, rfl⟩, rfl⟩
        · rintro ⟨⟨rfl, hbits⟩, hout⟩
          exact ⟨rfl, by cases q; simp_all⟩
      · simp only [if_neg hleaf]
        exact ih (len + 1) _ (by omega) (free_step hoffs hb hleaf) e he
    · rintro b p i q ⟨-, hout⟩
      exact hout.symm
    · intro i q
      simp only [Format.andThen, seen]
      constructor
      · rintro ⟨b, m, ⟨hb, hm⟩, hw, hout⟩
        obtain ⟨hbit, hnat⟩ := bit_of_one hb
        obtain ⟨hbits, hdest⟩ := Point.mk.inj hm
        rw [hbits, hbit, List.singleton_append, walk, hnat]
        exact ⟨hw, hout.trans hdest.symm⟩
      · rintro ⟨hw, hout⟩
        cases hbits : d.bits with
        | nil =>
          rw [hbits] at hw
          cases hw
        | cons b bs =>
          rw [hbits, walk] at hw
          refine ⟨b.toNat, ⟨bs, d.dest⟩, ⟨b.toNat_lt, ?_⟩, hw, hout⟩
          cases b <;> rfl

theorem decode_symbol_reads {t : tinf_tree} {ls : List Nat} (ht : Built t ls) (d : tinf_data) (hd : Good d) :
    Reads seen d (tinf_decode_symbol t d) (Is fun s => ∃ k, ls[s]? = some (k + 1)) (Symbol ls) := by
  have hfirst : 2 * 0 + 2 ≤ free (counts ls) 1 := by simp [free, counts]
  have hindex := decode_index_reads ht 15 1 0 rfl hfirst d hd
  rw [tinf_decode_symbol]
  refine (bind_quiet hindex (S := fun i p s q => place ls s = i ∧ (∃ k, ls[s]? = some (k + 1)) ∧ q = p) ?_ ?_).congr ?_
  · rintro i _ e - he ⟨rfl, hi⟩
    obtain ⟨s, k, hs, rfl⟩ := exists_place hi
    have hsym := ht.symbols s k hs
    have hbound : place ls s < 288 := by
      rw [← ht.size]
      exact (List.getElem?_eq_some_iff.mp hsym).1
    rw [assert_bind hbound, load, hsym]
    refine (Reads.pure he ⟨rfl, k, hs⟩).congr fun u q => ?_
    constructor
    · rintro ⟨rfl, rfl⟩
      exact ⟨rfl, ⟨k, hs⟩, rfl⟩
    · rintro ⟨hplace, ⟨m, hm⟩, rfl⟩
      exact ⟨place_inj hm hs hplace, rfl⟩
  · rintro i p s q ⟨-, -, rfl⟩
    rfl
  · intro s q
    simp only [Format.andThen, seen]
    constructor
    · rintro ⟨i, m, ⟨hw, hout⟩, hplace, ⟨k, hk⟩, rfl⟩
      obtain ⟨u, w, hword, hbits, hu⟩ := word_of_walk ls hw
      obtain ⟨j, hj, -⟩ := id hword
      obtain rfl := place_inj hk hj (hplace.trans hu.symm)
      exact ⟨w, hword, by rw [hbits, hout]⟩
    · rintro ⟨w, hword, hq⟩
      obtain ⟨hbits, hdest⟩ := Point.mk.inj hq
      obtain ⟨k, hk, -⟩ := id hword
      refine ⟨place ls s, q, ⟨?_, hdest.symm⟩, rfl, ⟨k, hk⟩, rfl⟩
      rw [hbits]
      exact walk_of_word hword ht.free ht.le q.bits

end Coins.Tinf
