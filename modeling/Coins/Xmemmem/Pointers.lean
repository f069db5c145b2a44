import Coins.Xmemmem
import Coins.Lib.Questions

/-!
# The bytes `xmemmem` reads

The search as the programs carry it, with pointers into the haystack and the needle. It reads no byte
outside of these, and finds what `find` does.
-/

open Coins.Questions Coins.Search

namespace Coins.Xmemmem.Pointers

/-- Bytes by their distance from the start of the haystack, or of the needle. -/
inductive Cell
  | hay (p : Int)
  | ndl (p : Int)

abbrev Prog := Query Cell fun _ => UInt8

def hay_at (p : Int) : Prog UInt8 := Query.get (Cell.hay p)

def ndl_at (p : Int) : Prog UInt8 := Query.get (Cell.ndl p)

/-- The copies: `place` of `okfix.c`, `btcc.c`, `derifix.c`, `btsp.c` and `trtwss.c`, `behind` of `ws.c`,
`bitfin2b.c`, `ok2b.c`, `btcc2b.c` and the Socket.IO feeds. -/
inductive Copy
  | place
  | behind

/-- What is given back for a match at `p`. -/
def Copy.ret (c : Copy) (p : Int) (ndlz : Nat) : Int :=
  match c with
  | place => p
  | behind => p + ndlz

/-- `hp`, `np`, the sums, and whether all characters so far were equal. -/
structure Front where
  hp : Int
  np : Int
  hsum : UInt32
  nsum : UInt32
  eqp : Bool

/-- `for (hp = hay + 1U, np = ndl + 1U, ...; hp < eoh && np < eon; ...)` -/
def front (eoh eon : Int) : Nat → Front → Prog Front
  | 0, f => pure f
  | fuel + 1, f => do
    if f.hp < eoh ∧ f.np < eon then
      let h ← hay_at f.hp
      let n ← ndl_at f.np
      front eoh eon fuel
        ⟨f.hp + 1, f.np + 1, f.hsum ^^^ uchr h, f.nsum ^^^ uchr n, f.eqp && decide (h = n)⟩
    else pure f

/-- `memcmp(p, ndl, n) == 0` -/
def memcmp (p : Int) (n : Nat) : Prog Bool := do
  let a ← Query.stretch hay_at p n
  let b ← Query.stretch ndl_at 0 n
  pure (decide (a = b))

/-- `for (cand = hay; hp < eoh; hp++)`: the `cand` that it returns with. -/
def through (eoh : Int) (ndlz : Nat) (nsum : UInt32) : Nat → Int → Int → UInt32 → Prog (Option Int)
  | 0, _, _, _ => pure none
  | fuel + 1, cand, hp, hsum => do
    if hp < eoh then
      let c ← hay_at cand
      let h ← hay_at hp
      let cand := cand + 1
      let hsum := hsum ^^^ uchr c ^^^ uchr h
      let eq ← if hsum = nsum then memcmp cand (ndlz - 1) else pure false
      if eq then pure (some cand) else through eoh ndlz nsum fuel cand (hp + 1) hsum
    else pure none

def xmemmem (c : Copy) (hayz ndlz : Nat) : Prog (Option Int) := do
  if ndlz = 0 then pure (some 0) else
  match ← Query.first hay_at (← ndl_at 0) 0 hayz with
  | none => pure none
  | some hay =>
    let h0 ← hay_at hay
    let f ← front hayz ndlz ndlz ⟨hay + 1, 1, uchr h0, uchr h0, true⟩
    if f.np < ndlz then pure none
    else if f.eqp then pure (some (c.ret hay ndlz))
    else
      let cand ← through hayz ndlz f.nsum hayz hay f.hp f.hsum
      pure (cand.map fun p => c.ret p ndlz)

/-! ## What is there -/

section
variable (hay ndl : List UInt8)

def known : Cell → Option UInt8
  | .hay p => if 0 ≤ p then hay[p.toNat]? else none
  | .ndl p => if 0 ≤ p then ndl[p.toNat]? else none

variable {hay ndl}

theorem run_hay_at (p : Nat) : Query.run (known hay ndl) (hay_at p) = hay[p]? := by
  refine (Query.run_get (known hay ndl) (Cell.hay p)).trans ?_
  change (if 0 ≤ (p : Int) then hay[(p : Int).toNat]? else none) = hay[p]?
  rw [if_pos (Int.natCast_nonneg p), Int.toNat_natCast]

theorem run_ndl_at (p : Nat) : Query.run (known hay ndl) (ndl_at p) = ndl[p]? := by
  refine (Query.run_get (known hay ndl) (Cell.ndl p)).trans ?_
  change (if 0 ≤ (p : Int) then ndl[(p : Int).toNat]? else none) = ndl[p]?
  rw [if_pos (Int.natCast_nonneg p), Int.toNat_natCast]

theorem shows_hay (p : Nat) {l : List UInt8} (h : hay.drop p = l) : Query.Shows (known hay ndl) hay_at p l := by
  intro j x hx
  rw [← h, List.getElem?_drop] at hx
  rw [← Int.natCast_add, run_hay_at, hx]

theorem shows_ndl : Query.Shows (known hay ndl) ndl_at 0 ndl := by
  intro j x hx
  rw [Int.zero_add, run_ndl_at, hx]

/-! ## The loops -/

theorem run_memcmp (p n : Nat) (hp : n ≤ (hay.drop p).length) (hn : n ≤ ndl.length) :
    Query.run (known hay ndl) (memcmp p n) = some (decide ((hay.drop p).take n = ndl.take n)) := by
  unfold memcmp
  rw [Query.run_then _ (Query.run_stretch n (shows_hay p rfl) hp), Query.run_then _ (Query.run_stretch n shows_ndl hn)]
  rfl

theorem run_front (hs ns : List UInt8) (eoh eon : Int) (fuel : Nat) (f : Front)
    (hh : Query.Shows (known hay ndl) hay_at f.hp hs) (hn : Query.Shows (known hay ndl) ndl_at f.np ns)
    (heoh : f.hp + hs.length = eoh) (heon : f.np + ns.length = eon) (hfuel : ns.length ≤ fuel) :
    Query.run (known hay ndl) (front eoh eon fuel f) =
      some ⟨f.hp + min hs.length ns.length, f.np + min hs.length ns.length, xsum f.hsum (hs.take ns.length),
        xsum f.nsum (ns.take hs.length), f.eqp && decide (hs.take ns.length = ns.take hs.length)⟩ := by
  induction ns generalizing hs fuel f with
  | nil =>
    have hstop : ¬ (f.hp < eoh ∧ f.np < eon) := by
      rintro ⟨-, hlt⟩
      rw [List.length_nil] at heon
      omega
    have hrun : Query.run (known hay ndl) (front eoh eon fuel f) = some f := by
      cases fuel with
      | zero => rfl
      | succ fuel =>
        unfold front
        rw [if_neg hstop]
        rfl
    rw [hrun]
    simp [xsum]
  | cons n ns ih =>
    obtain ⟨fuel, rfl⟩ := Nat.exists_eq_succ_of_ne_zero (Nat.ne_of_gt (Nat.lt_of_lt_of_le (Nat.succ_pos _) hfuel))
    rw [List.length_cons] at heon hfuel
    unfold front
    cases hs with
    | nil =>
      have hstop : ¬ (f.hp < eoh ∧ f.np < eon) := by
        rintro ⟨hlt, -⟩
        rw [List.length_nil] at heoh
        omega
      rw [if_neg hstop, Query.run_pure]
      simp [xsum]
    | cons h hs =>
      rw [List.length_cons] at heoh
      rw [if_pos (by omega), Query.run_then _ hh.head, Query.run_then _ hn.head,
        ih hs fuel _ hh.tail hn.tail (by simp only; omega) (by simp only; omega) (by omega)]
      simp only [List.length_cons, List.take_succ_cons, xsum_cons, Nat.succ_min_succ, List.cons.injEq]
      congr 2
      · omega
      · omega
      · rw [Bool.and_assoc, ← Bool.decide_and]

theorem run_through (fuel p q i : Nat) (hsum : UInt32) (hndl : ndl ≠ [])
    (hcand : ndl.length ≤ (hay.drop p).length) (hp : p + ndl.length = q) (hfuel : hay.length ≤ q + fuel) :
    Query.run (known hay ndl) (through hay.length ndl.length (xsum 0 ndl) fuel p q hsum) =
      some ((slide ndl (xsum 0 ndl) (hay.drop p) (hay.drop q) hsum i).map fun k : Nat => (p : Int) - i + k) := by
  induction fuel generalizing p q i hsum with
  | zero =>
    rw [List.drop_eq_nil_of_le (by omega : hay.length ≤ q)]
    rfl
  | succ fuel ih =>
    have hpos := List.length_pos_of_ne_nil hndl
    rw [List.length_drop] at hcand
    unfold through
    by_cases hq : q < hay.length
    · have hc : Query.run (known hay ndl) (hay_at p) = some hay[p] := by
        rw [run_hay_at, List.getElem?_eq_getElem]
      have hh : Query.run (known hay ndl) (hay_at q) = some hay[q] := by
        rw [run_hay_at, List.getElem?_eq_getElem]
      have htail : (hay.drop p).tail = hay.drop (p + 1) := List.tail_drop
      rw [if_pos (by omega), Query.run_then _ hc, Query.run_then _ hh, List.drop_eq_getElem_cons hq]
      unfold slide
      rw [htail, List.drop_eq_getElem_cons (by omega : p < hay.length), List.headD_cons]
      generalize hsum ^^^ uchr hay[p] ^^^ uchr hay[q] = s
      have hnext := ih (p + 1) (q + 1) (i + 1) s (by rw [List.length_drop]; omega) (by omega) (by omega)
      have hoff : ((p + 1 : Nat) : Int) - (i + 1 : Nat) = p - i := by omega
      rw [hoff, Nat.cast_succ, Nat.cast_succ] at hnext
      by_cases hs : s = xsum 0 ndl
      · have hcmp := @run_memcmp hay ndl (p + 1) (ndl.length - 1) (by rw [List.length_drop]; omega) (by omega)
        rw [Nat.cast_succ] at hcmp
        rw [if_pos hs, Query.run_then _ hcmp]
        by_cases heq : (hay.drop (p + 1)).take (ndl.length - 1) = ndl.take (ndl.length - 1)
        · rw [if_pos ⟨hs, heq⟩, decide_eq_true heq, Option.map_some]
          have hat : (p : Int) - i + (i + 1 : Nat) = p + 1 := by omega
          rw [hat]
          rfl
        · rw [if_neg (fun h => heq h.2), decide_eq_false heq]
          exact hnext
      · rw [if_neg hs, if_neg (fun h => hs h.1)]
        exact hnext
    · rw [if_neg (by omega), List.drop_eq_nil_of_le (by omega : hay.length ≤ q)]
      rfl

/-! ## The search -/

theorem takeWhile_plain {c : UInt8} {a : List UInt8} (h : c ∉ a) (l : List UInt8) :
    (a ++ l).takeWhile (· != c) = a ++ l.takeWhile (· != c) := by
  apply List.takeWhile_append_of_pos
  intro x hx
  simp only [bne_iff_ne, ne_eq]
  rintro rfl
  exact h hx

theorem run_xmemmem (c : Copy) (hay ndl : List UInt8) :
    Query.run (known hay ndl) (xmemmem c hay.length ndl.length) =
      some ((Xmemmem.xmemmem hay ndl).map fun i : Nat => c.ret i ndl.length) := by
  unfold xmemmem Xmemmem.xmemmem
  cases ndl with
  | nil => cases c <;> rfl
  | cons n0 ns =>
    have hn0 : Query.run (known hay (n0 :: ns)) (ndl_at 0) = some n0 := shows_ndl.head
    have hall : Query.Shows (known hay (n0 :: ns)) hay_at 0 hay := shows_hay 0 rfl
    rw [if_neg (by simp), Query.run_then _ hn0]
    by_cases hin : n0 ∈ hay
    · obtain ⟨a, b, hab, hna⟩ := List.eq_append_cons_of_mem hin
      have hskip : hay.takeWhile (· != n0) = a := by
        rw [hab, takeWhile_plain hna]
        simp
      have hdrop : hay.drop a.length = n0 :: b := by rw [hab, List.drop_left]
      have hlen : hay.length = a.length + 1 + b.length := by
        rw [hab, List.length_append, List.length_cons]
        omega
      have hfirst := Query.run_first a b hay.length (by rwa [← hab]) hna (by omega)
      rw [Query.run_then _ hfirst]
      have hat : Query.run (known hay (n0 :: ns)) (hay_at (0 + a.length)) = some n0 := by
        rw [Int.zero_add]
        exact (shows_hay a.length hdrop).head
      have hb : Query.Shows (known hay (n0 :: ns)) hay_at (0 + a.length + 1) b := by
        rw [Int.zero_add]
        exact (shows_hay a.length hdrop).tail
      have hfront := run_front b ns hay.length (n0 :: ns).length (n0 :: ns).length
        ⟨0 + a.length + 1, 1, uchr n0, uchr n0, true⟩ hb shows_ndl.tail (by simp only; omega)
        (by simp only [List.length_cons]; omega) (by simp)
      simp only
      rw [hskip, hdrop, Query.run_then _ hat, Query.run_then _ hfront]
      simp only
      by_cases hshort : b.length < ns.length
      · -- the haystack ends first
        rw [if_pos hshort, if_pos (by rw [List.length_cons]; omega)]
        rfl
      · have hns : ns.take b.length = ns := List.take_of_length_le (by omega)
        have hmin : min b.length ns.length = ns.length := by omega
        rw [if_neg hshort, hmin, hns, if_neg (by rw [List.length_cons]; omega), Bool.true_and]
        by_cases heq : b.take ns.length = ns
        · rw [if_pos heq, decide_eq_true heq, if_pos rfl, Int.zero_add]
          rfl
        · have hthrough := @run_through hay (n0 :: ns) hay.length a.length
            (a.length + (n0 :: ns).length) 0 (xsum (uchr n0) (b.take ns.length)) (by simp)
            (by rw [hdrop, List.length_cons, List.length_cons]; omega) rfl (by omega)
          have hq : ((a.length + (n0 :: ns).length : Nat) : Int) = 0 + a.length + 1 + ns.length := by
            rw [List.length_cons]
            omega
          have hrest : hay.drop (a.length + (n0 :: ns).length) = b.drop ns.length := by
            rw [← List.drop_drop, hdrop, List.length_cons, List.drop_succ_cons]
          rw [hq, hrest, hdrop, xsum_cons, UInt32.zero_xor] at hthrough
          rw [if_neg heq, decide_eq_false heq, if_neg (by simp), Int.zero_add]
          rw [Int.zero_add] at hthrough
          rw [Query.run_then _ hthrough, Option.map_map, Query.run_pure, Option.map_map]
          congr 2
          funext k
          simp only [Function.comp_apply]
          congr 1
          omega
    · have hnone := Query.run_first_none hay hall hin
      have hskip := takeWhile_plain hin []
      rw [List.append_nil, List.takeWhile_nil, List.append_nil] at hskip
      rw [Query.run_then _ hnone]
      simp only
      rw [hskip, List.drop_length]
      rfl

/-- **The leftmost occurrence**, or nothing if there is none. Whatever there is around the haystack and the
needle, every byte that is read is one of theirs. -/
theorem xmemmem_leftmost (c : Copy) (hay ndl : List UInt8) (old : Cell → UInt8) :
    let q := xmemmem c hay.length ndl.length
    let m := Query.patched (known hay ndl) old
    (q.eval m = none ↔ ¬ ndl <:+: hay) ∧
      (∀ p, q.eval m = some p → ∃ i : Nat, p = c.ret i ndl.length ∧ i + ndl.length ≤ hay.length ∧
        ndl <+: hay.drop i ∧ ∀ j < i, ¬ ndl <+: hay.drop j) ∧
      ∀ x ∈ q.asked m, (known hay ndl x).isSome = true := by
  intro q m
  obtain ⟨heval, hasked⟩ := Query.run_some (Query.patched_extends _ old) q _ (run_xmemmem c hay ndl)
  have hm : q.eval m = (find ndl hay).map fun i : Nat => c.ret i ndl.length := by
    rw [heval, xmemmem_spec]
  refine ⟨?_, ?_, hasked⟩
  · rw [hm, Option.map_eq_none_iff]
    exact find_eq_none ndl hay
  · intro p hp
    rw [hm, Option.map_eq_some_iff] at hp
    obtain ⟨i, hi, rfl⟩ := hp
    obtain ⟨hhere, -, hmin⟩ := (find_eq_some ndl hay i).mp hi
    exact ⟨i, rfl, find_le ndl hay i hi, hhere, hmin⟩

end

end Coins.Xmemmem.Pointers
