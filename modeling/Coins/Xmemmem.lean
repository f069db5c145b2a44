import Coins.Lib.Search

/-!
# `xmemmem`

Every program carries its own copy. The copies differ in what they give back: the place of the
match, or the place behind it.
-/

open Coins.Search

namespace Coins.Xmemmem

/-- A signed `char` as an `unsigned int`. -/
def uchr (c : UInt8) : UInt32 := if c < 128 then c.toUInt32 else c.toUInt32 ||| 0xffffff00

/-- `for (...; hsum ^= *hp, ...)`: the exclusive or of the characters `l`, from `s` on. -/
def xsum (s : UInt32) (l : List UInt8) : UInt32 := l.foldl (fun s c => s ^^^ uchr c) s

/-- The loop through the rest of the haystack: `cand` at offset `i`, and `hp` up to the end. -/
def slide (ndl : List UInt8) (nsum : UInt32) : List UInt8 → List UInt8 → UInt32 → Nat → Option Nat
  | _, [], _, _ => none
  | cand, h :: hs, hsum, i =>
    let hsum := hsum ^^^ uchr (cand.headD 0) ^^^ uchr h
    if hsum = nsum ∧ cand.tail.take (ndl.length - 1) = ndl.take (ndl.length - 1) then some (i + 1)
    else slide ndl nsum cand.tail hs hsum (i + 1)

/-- The offset of the match, from the start of `hay`. -/
def xmemmem (hay ndl : List UInt8) : Option Nat :=
  match ndl with
  | [] => some 0
  | n0 :: ns =>
    let skip := (hay.takeWhile (· != n0)).length
    match hay.drop skip with
    | [] => none
    | h0 :: hs =>
      if hs.length < ns.length then none
      else if hs.take ns.length = ns then some skip
      else
        (slide ndl (xsum (uchr h0) ns) (h0 :: hs) (hs.drop ns.length)
          (xsum (uchr h0) (hs.take ns.length)) 0).map (· + skip)

/-! ## The sums -/

theorem toUInt8_uchr (c : UInt8) : (uchr c).toUInt8 = c := by
  unfold uchr
  split
  · simp
  · apply UInt8.toBitVec_inj.mp
    simp

theorem uchr_inj (a b : UInt8) (h : uchr a = uchr b) : a = b := by
  rw [← toUInt8_uchr a, ← toUInt8_uchr b, h]

theorem xsum_append (s : UInt32) (a b : List UInt8) : xsum s (a ++ b) = xsum (xsum s a) b := by
  simp [xsum]

theorem xsum_eq (s : UInt32) (l : List UInt8) : xsum s l = s ^^^ xsum 0 l := by
  induction l generalizing s with
  | nil => simp [xsum]
  | cons c cs ih =>
    have h1 := ih (s ^^^ uchr c)
    have h2 := ih (0 ^^^ uchr c)
    simp only [xsum, List.foldl_cons] at h1 h2 ⊢
    rw [h1, h2, UInt32.zero_xor, UInt32.xor_assoc]

theorem xsum_cons (s : UInt32) (c : UInt8) (l : List UInt8) : xsum s (c :: l) = xsum (s ^^^ uchr c) l := rfl

theorem eq_of_xsum (a b : List UInt8) (x y : UInt8) (hab : a = b)
    (h : xsum 0 (a ++ [x]) = xsum 0 (b ++ [y])) : x = y := by
  subst hab
  rw [xsum_append, xsum_append, xsum_eq _ [x], xsum_eq _ [y]] at h
  apply uchr_inj
  simpa [xsum] using h

theorem cheap_test (w ndl : List UInt8) (hl : w.length = ndl.length) (hn : ndl ≠ []) :
    (xsum 0 w = xsum 0 ndl ∧ w.take (ndl.length - 1) = ndl.take (ndl.length - 1)) ↔ w = ndl := by
  constructor
  · rintro ⟨hs, ht⟩
    have hw : w ≠ [] := by
      intro he
      apply hn
      rw [← List.length_eq_zero_iff, ← hl, he, List.length_nil]
    have hwd : w.take (ndl.length - 1) = w.dropLast := by rw [List.dropLast_eq_take, hl]
    have hnd : ndl.take (ndl.length - 1) = ndl.dropLast := by rw [List.dropLast_eq_take]
    have hfront : w.dropLast = ndl.dropLast := by rw [← hwd, ← hnd, ht]
    rw [← List.dropLast_concat_getLast hw, ← List.dropLast_concat_getLast hn] at hs ⊢
    rw [eq_of_xsum _ _ _ _ hfront hs, hfront]
  · rintro rfl
    exact ⟨rfl, rfl⟩

/-! ## The loop -/

theorem slide_spec (ndl : List UInt8) (hn : ndl ≠ []) (cand hs : List UInt8) (i : Nat)
    (hlen : ndl.length ≤ cand.length) (hdrop : cand.drop ndl.length = hs)
    (hne : ¬ ndl <+: cand) :
    slide ndl (xsum 0 ndl) cand hs (xsum 0 (cand.take ndl.length)) i =
      (find ndl cand).map (· + i) := by
  induction hs generalizing cand i with
  | nil =>
    -- The window is all there is left.
    have hle : cand.length ≤ ndl.length := by
      have := congrArg List.length hdrop
      simp only [List.length_drop, List.length_nil] at this
      omega
    have hfind : find ndl cand = none := by
      rw [find_eq_none]
      intro hin
      exact hne (by rw [hin.eq_of_length (by have := hin.length_le; omega)])
    rw [hfind]
    rfl
  | cons h hs ih =>
    obtain ⟨n0, ns, rfl⟩ := List.exists_cons_of_ne_nil hn
    obtain ⟨c, cs, rfl⟩ : ∃ c cs, cand = c :: cs := by
      cases cand with
      | nil => simp at hlen
      | cons c cs => exact ⟨c, cs, rfl⟩
    simp only [List.length_cons, List.drop_succ_cons] at hdrop
    have hcs : cs = cs.take ns.length ++ h :: hs := by rw [← hdrop, List.take_append_drop]
    have hk : ns.length < cs.length := by
      have := congrArg List.length hdrop
      simp only [List.length_drop, List.length_cons] at this
      omega
    have htake : cs.take (ns.length + 1) = cs.take ns.length ++ [h] := by
      conv => lhs; rw [hcs]
      rw [List.take_append, List.take_of_length_le (by simp)]
      simp [Nat.min_eq_left hk.le]
    -- The sum of the window that starts one further on.
    have hsum : xsum 0 ((c :: cs).take (n0 :: ns).length) ^^^ uchr c ^^^ uchr h =
        xsum 0 (cs.take (ns.length + 1)) := by
      rw [htake, List.length_cons, List.take_succ_cons, xsum_cons, xsum_eq, xsum_append]
      simp only [xsum, List.foldl_cons, List.foldl_nil, UInt32.zero_xor]
      rw [UInt32.xor_comm (uchr c), UInt32.xor_assoc, UInt32.xor_assoc, ← UInt32.xor_assoc (uchr c),
        UInt32.xor_self, UInt32.zero_xor]
    have hwlen : (cs.take (ns.length + 1)).length = (n0 :: ns).length := by simp; omega
    have hpre : (cs.take (ns.length + 1) = n0 :: ns) ↔ (n0 :: ns) <+: cs := by
      rw [List.prefix_iff_eq_take, eq_comm]
      rfl
    have htest := cheap_test _ _ hwlen (List.cons_ne_nil n0 ns)
    rw [List.take_take] at htest
    rw [find_later _ _ _ hne]
    simp only [slide, List.headD_cons, List.tail_cons, hsum]
    rw [show min ((n0 :: ns).length - 1) (ns.length + 1) = (n0 :: ns).length - 1 by simp] at htest
    split
    · rename_i ht
      rw [find_here _ _ (hpre.mp (htest.mp ht))]
      simp [Nat.add_comm]
    · rename_i ht
      have hnp : ¬ (n0 :: ns) <+: cs := fun hp => ht (htest.mpr (hpre.mpr hp))
      have hd : cs.drop (n0 :: ns).length = hs := by
        rw [List.length_cons, ← List.drop_drop, hdrop]
        rfl
      rw [show ns.length + 1 = (n0 :: ns).length from rfl,
        ih cs (i + 1) (by simp; omega) hd hnp, Option.map_map]
      congr 1
      funext k
      simp only [Function.comp_apply]
      omega

theorem find_skip (n0 : UInt8) (ns hay : List UInt8) :
    find (n0 :: ns) hay = (find (n0 :: ns) (hay.drop (hay.takeWhile (· != n0)).length)).map
      (· + (hay.takeWhile (· != n0)).length) := by
  induction hay with
  | nil => simp [find]
  | cons c cs ih =>
    by_cases hc : c = n0
    · simp [hc]
    · have hnp : ¬ (n0 :: ns) <+: c :: cs := by
        intro hp
        exact hc (List.cons_prefix_cons.mp hp).1.symm
      rw [find_later _ _ _ hnp, ih, List.takeWhile_cons_of_pos (by simpa using hc)]
      simp only [List.length_cons, List.drop_succ_cons, Option.map_map]
      rfl

theorem xmemmem_spec (hay ndl : List UInt8) : xmemmem hay ndl = find ndl hay := by
  cases ndl with
  | nil => cases hay <;> simp [xmemmem, find]
  | cons n0 ns =>
    rw [find_skip]
    simp only [xmemmem]
    generalize hskip : (hay.takeWhile (· != n0)).length = skip
    cases hd : hay.drop skip with
    | nil => simp [find]
    | cons h0 hs =>
      -- `memchr` stopped at the needle's first character.
      have h0n : h0 = n0 := by
        have hdw : hay.dropWhile (· != n0) = h0 :: hs := by
          rw [← hd, ← hskip]
          conv_rhs => rw [← List.takeWhile_append_dropWhile (p := (· != n0)) (l := hay)]
          rw [List.drop_left']
          rw [List.takeWhile_append_dropWhile]
        have := List.head_dropWhile_not (p := (· != n0)) (l := hay) (by simp [hdw])
        simpa [hdw] using this
      subst h0n
      simp only
      split
      · rename_i hlt
        have : find (h0 :: ns) (h0 :: hs) = none := by
          rw [find_eq_none]
          intro hin
          have := hin.length_le
          simp only [List.length_cons] at this
          omega
        simp [this]
      · rename_i hge
        split
        · rename_i heq
          rw [find_here]
          · simp
          · rw [List.cons_prefix_cons]
            exact ⟨rfl, heq ▸ List.take_prefix _ _⟩
        · rename_i hne
          have hsl := slide_spec (h0 :: ns) (by simp) (h0 :: hs) (hs.drop ns.length) 0 (by simp; omega)
            (by simp) (by
              rw [List.cons_prefix_cons]
              rintro ⟨-, hp⟩
              exact hne (List.prefix_iff_eq_take.mp hp).symm)
          simp only [List.length_cons, List.take_succ_cons, xsum_cons, UInt32.zero_xor] at hsl
          rw [hsl]
          simp

end Coins.Xmemmem
