import Mathlib.Data.List.Basic
import Mathlib.Data.List.Induction
import Mathlib.Tactic.Linarith
import Mathlib.Tactic.Ring

/-!
# Numbers as text

Digit strings and their values, the decimal text of a number, and `strtoul` of the C standard.
-/

namespace Coins.Numeral

def ascii (s : String) : List UInt8 := s.toList.map fun c => UInt8.ofNat c.toNat

/-- Goes through the text, not through every byte there is. -/
instance decidableEvery (l : List UInt8) (p : UInt8 → Bool) : Decidable (∀ b ∈ l, p b = true) :=
  List.decidableBAll _ l

/-! ## Digits -/

/-- The value of a digit, in the bases that go on with letters. -/
def digit (b : UInt8) : Option Nat :=
  if 48 ≤ b ∧ b ≤ 57 then some (b.toNat - 48)
  else if 97 ≤ b ∧ b ≤ 122 then some (b.toNat - 87)
  else if 65 ≤ b ∧ b ≤ 90 then some (b.toNat - 55)
  else none

def isDigit (base : Nat) (b : UInt8) : Bool :=
  match digit b with
  | some d => d < base
  | none => false

def digitsVal (base : Nat) (l : List UInt8) : Nat :=
  l.foldl (fun v b => base * v + (digit b).getD 0) 0

def digitChar (d : Nat) : UInt8 := UInt8.ofNat (48 + d)

theorem digitsVal_concat (base : Nat) (l : List UInt8) (b : UInt8) :
    digitsVal base (l ++ [b]) = base * digitsVal base l + (digit b).getD 0 := by
  simp [digitsVal]

theorem digitChar_toNat (d : Nat) (h : d < 10) : (digitChar d).toNat = 48 + d := by
  simp only [digitChar, UInt8.toNat_ofNat']
  omega

@[simp] theorem digit_digitChar (d : Nat) (h : d < 10) : digit (digitChar d) = some d := by
  have := digitChar_toNat d h
  have h1 : 48 ≤ digitChar d ∧ digitChar d ≤ 57 := by
    constructor
    · rw [UInt8.le_iff_toNat_le]; simp [this]
    · rw [UInt8.le_iff_toNat_le]; simp [this]; omega
  rw [digit, if_pos h1, this]
  simp

theorem isDigit_digitChar (d : Nat) (h : d < 10) : isDigit 10 (digitChar d) = true := by
  simp [isDigit, h]

/-! ## Fixed width -/

/-- The last `k` decimal digits of `n`. -/
def fixed : Nat → Nat → List UInt8
  | 0, _ => []
  | k + 1, n => fixed k (n / 10) ++ [digitChar (n % 10)]

@[simp] theorem fixed_length (k n : Nat) : (fixed k n).length = k := by
  induction k generalizing n with
  | zero => rfl
  | succ k ih => simp [fixed, ih]

theorem digitsVal_fixed (k n : Nat) : digitsVal 10 (fixed k n) = n % 10 ^ k := by
  induction k generalizing n with
  | zero => simp [fixed, digitsVal, Nat.mod_one]
  | succ k ih =>
    rw [fixed, digitsVal_concat, ih, digit_digitChar _ (Nat.mod_lt _ (by omega)), pow_succ,
      mul_comm (10 ^ k) 10, Nat.mod_mul]
    simp
    omega

theorem fixed_digits (k n : Nat) : ∀ b ∈ fixed k n, isDigit 10 b = true := by
  induction k generalizing n with
  | zero => simp [fixed]
  | succ k ih =>
    intro b hb
    rw [fixed, List.mem_append, List.mem_singleton] at hb
    rcases hb with hb | rfl
    · exact ih _ b hb
    · exact isDigit_digitChar _ (Nat.mod_lt _ (by omega))

/-! ## As many digits as it takes -/

/-- The decimal digits of `n`, last one first, none for 0. The fuel bounds their number. -/
def revDigits : Nat → Nat → List UInt8
  | 0, _ => []
  | fuel + 1, n => if n = 0 then [] else digitChar (n % 10) :: revDigits fuel (n / 10)

def decimal (n : Nat) : List UInt8 := if n = 0 then [digitChar 0] else (revDigits n n).reverse

theorem revDigits_fuel (f g n : Nat) (hf : n < 10 ^ f) (hg : n < 10 ^ g) :
    revDigits f n = revDigits g n := by
  induction f generalizing g n with
  | zero =>
    obtain rfl : n = 0 := by simpa using hf
    cases g <;> simp [revDigits]
  | succ f ih =>
    by_cases hn : n = 0
    · subst hn
      cases g <;> simp [revDigits]
    · cases g with
      | zero => exact absurd (by simpa using hg) hn
      | succ g =>
        rw [pow_succ] at hf hg
        rw [revDigits, revDigits, if_neg hn, if_neg hn, ih g (n / 10) (by omega) (by omega)]

theorem revDigits_digits (fuel n : Nat) : ∀ b ∈ revDigits fuel n, isDigit 10 b = true := by
  induction fuel generalizing n with
  | zero => simp [revDigits]
  | succ fuel ih =>
    intro b hb
    rw [revDigits] at hb
    split at hb
    · simp at hb
    · rcases List.mem_cons.mp hb with rfl | hb
      · exact isDigit_digitChar _ (Nat.mod_lt _ (by omega))
      · exact ih _ b hb

theorem revDigits_length_le (fuel n k : Nat) (h : n < 10 ^ k) : (revDigits fuel n).length ≤ k := by
  induction fuel generalizing n k with
  | zero => simp [revDigits]
  | succ fuel ih =>
    rw [revDigits]
    split
    · simp
    · rename_i hn
      obtain ⟨k, rfl⟩ : ∃ j, k = j + 1 := by
        cases k with
        | zero => simp at h; omega
        | succ j => exact ⟨j, rfl⟩
      have := ih (n / 10) k (by rw [pow_succ] at h; omega)
      simpa using this

theorem lt_revDigits_length (fuel n k : Nat) (hf : n ≤ fuel) (h : 10 ^ k ≤ n) :
    k < (revDigits fuel n).length := by
  induction fuel generalizing n k with
  | zero =>
    have : 0 < 10 ^ k := by positivity
    omega
  | succ fuel ih =>
    have hpos : 0 < 10 ^ k := by positivity
    rw [revDigits, if_neg (by omega), List.length_cons]
    cases k with
    | zero => omega
    | succ k =>
      have := ih (n / 10) k (by omega) (by rw [pow_succ] at h; omega)
      omega

theorem decimal_length (n k : Nat) (h1 : 10 ^ k ≤ n) (h2 : n < 10 ^ (k + 1)) :
    (decimal n).length = k + 1 := by
  have hpos : 0 < 10 ^ k := by positivity
  rw [decimal, if_neg (by omega), List.length_reverse]
  have := revDigits_length_le n n (k + 1) h2
  have := lt_revDigits_length n n k le_rfl h1
  omega

theorem decimal_length_le (n k : Nat) (hk : 0 < k) (h : n < 10 ^ k) : (decimal n).length ≤ k := by
  rw [decimal]
  split
  · exact hk
  · rw [List.length_reverse]
    exact revDigits_length_le n n k h

theorem digitsVal_revDigits (fuel n : Nat) (h : n < 10 ^ fuel) : digitsVal 10 (revDigits fuel n).reverse = n := by
  induction fuel generalizing n with
  | zero =>
    obtain rfl : n = 0 := by simpa using h
    rfl
  | succ fuel ih =>
    rw [pow_succ] at h
    rw [revDigits]
    split
    · rename_i hn
      rw [hn]
      rfl
    · rw [List.reverse_cons, digitsVal_concat, ih (n / 10) (by omega), digit_digitChar _ (Nat.mod_lt _ (by omega)),
        Option.getD_some]
      omega

theorem decimal_spec (n : Nat) :
    decimal n ≠ [] ∧ (∀ b ∈ decimal n, isDigit 10 b = true) ∧ digitsVal 10 (decimal n) = n := by
  unfold decimal
  split
  · rename_i hn
    rw [hn]
    exact ⟨List.cons_ne_nil _ _, by decide, by decide⟩
  · rename_i hn
    have hval := digitsVal_revDigits n n (Nat.lt_pow_self (by omega))
    refine ⟨fun hnil => ?_, fun b hb => revDigits_digits n n b (List.mem_reverse.mp hb), hval⟩
    rw [hnil] at hval
    exact hn hval.symm

theorem digitsVal_lt (l : List UInt8) (hl : ∀ b ∈ l, isDigit 10 b = true) : digitsVal 10 l < 10 ^ l.length := by
  induction l using List.reverseRecOn with
  | nil => decide
  | append_singleton l b ih =>
    have hb := hl b (by simp)
    have hlt := ih fun c hc => hl c (by simp [hc])
    have hdigit : (digit b).getD 0 < 10 := by
      unfold isDigit at hb
      cases hd : digit b with
      | none => decide
      | some d =>
        rw [hd] at hb
        simpa using hb
    rw [digitsVal_concat, List.length_append, List.length_singleton, pow_succ]
    omega

theorem digit_zero (b : UInt8) (h : isDigit 10 b = true) : (digit b).getD 0 = 0 ↔ b = 48 := by
  constructor
  · intro hz
    unfold isDigit at h
    unfold digit at h hz
    split at h
    · rename_i d hd
      split at hd
      · rename_i hrange
        rw [if_pos hrange, Option.getD_some] at hz
        rw [UInt8.le_iff_toNat_le, UInt8.le_iff_toNat_le] at hrange
        have h48 : (48 : UInt8).toNat = 48 := rfl
        exact UInt8.toNat_inj.mp (by omega)
      · rename_i hrange
        simp only [decide_eq_true_eq] at h
        split at hd
        · rename_i hlow
          rw [UInt8.le_iff_toNat_le] at hlow
          have h97 : (97 : UInt8).toNat = 97 := rfl
          simp only [Option.some.injEq] at hd
          omega
        · split at hd
          · rename_i hup
            rw [UInt8.le_iff_toNat_le] at hup
            have h65 : (65 : UInt8).toNat = 65 := rfl
            simp only [Option.some.injEq] at hd
            omega
          · cases hd
    · cases h
  · rintro rfl
    rfl

theorem digitsVal_zero (l : List UInt8) (hl : ∀ b ∈ l, isDigit 10 b = true) :
    digitsVal 10 l = 0 ↔ ∀ b ∈ l, b = 48 := by
  induction l using List.reverseRecOn with
  | nil => simp [digitsVal]
  | append_singleton l b ih =>
    have hb := digit_zero b (hl b (by simp))
    have hfront := ih fun c hc => hl c (by simp [hc])
    rw [digitsVal_concat]
    constructor
    · intro hz c hc
      rcases List.mem_append.mp hc with hc | hc
      · exact hfront.mp (by omega) c hc
      · rw [List.mem_singleton.mp hc]
        exact hb.mp (by omega)
    · intro hall
      have h1 := hfront.mpr fun c hc => hall c (by simp [hc])
      have h2 := hb.mpr (hall b (by simp))
      omega

/-! ## `strtoul` -/

def isSpace (b : UInt8) : Bool := b = 32 ∨ (9 ≤ b ∧ b ≤ 13)

def ulongMax : Nat := 2 ^ 64 - 1

/-- The value, the offset where the number ends, and the number of characters looked at. -/
structure Scan where
  val : Nat
  stop : Nat
  seen : Nat
  deriving DecidableEq, Repr

/-- The sign of a number, and what is behind it. -/
def sign : List UInt8 → Bool × Nat × List UInt8
  | 45 :: t => (true, 1, t)
  | 43 :: t => (false, 1, t)
  | l => (false, 0, l)

/-- The `0x` that base 16 allows: how much of it there is to skip, and to look ahead. -/
def hexPrefix (base : Nat) : List UInt8 → Nat × Nat
  | 48 :: x :: t =>
    if base = 16 ∧ (x = 120 ∨ x = 88) then
      (match t with
        | h :: _ => if isDigit 16 h then (2, 0) else (0, 1)
        | [] => (0, 1))
    else (0, 0)
  | _ => (0, 0)

def strtoul (base : Nat) (l : List UInt8) : Scan :=
  let sp := (l.takeWhile isSpace).length
  let s := sign (l.drop sp)
  let px := hexPrefix base s.2.2
  let ds := (s.2.2.drop px.1).takeWhile (isDigit base)
  let stop := sp + s.2.1 + px.1 + ds.length
  let v := digitsVal base ds
  if ds = [] then ⟨0, 0, stop + 1⟩
  else ⟨if ulongMax < v then ulongMax else if s.1 then (2 ^ 64 - v) % 2 ^ 64 else v, stop,
    stop + px.2 + 1⟩

theorem isDigit_not_space (base : Nat) (b : UInt8) (h : isDigit base b = true) : isSpace b = false := by
  by_contra hs
  simp only [Bool.not_eq_false, isSpace, decide_eq_true_eq] at hs
  have hd : digit b = none := by
    have h32 : b.toNat ≤ 32 := by
      rcases hs with rfl | ⟨-, h2⟩
      · decide
      · rw [UInt8.le_iff_toNat_le] at h2; simp at h2; omega
    have n1 : ¬ (48 ≤ b ∧ b ≤ 57) := by
      rw [UInt8.le_iff_toNat_le]; simp; intro h; omega
    have n2 : ¬ (97 ≤ b ∧ b ≤ 122) := by
      rw [UInt8.le_iff_toNat_le]; simp; intro h; omega
    have n3 : ¬ (65 ≤ b ∧ b ≤ 90) := by
      rw [UInt8.le_iff_toNat_le]; simp; intro h; omega
    rw [digit, if_neg n1, if_neg n2, if_neg n3]
  simp [isDigit, hd] at h

theorem isDigit_ne (base : Nat) (hb : base ≤ 16) (b : UInt8) (h : isDigit base b = true) :
    b ≠ 45 ∧ b ≠ 43 ∧ b ≠ 120 ∧ b ≠ 88 := by
  have key : ∀ d ∈ digit b, d < 16 := by
    intro d hd
    simp only [Option.mem_def] at hd
    simp only [isDigit, hd, decide_eq_true_eq] at h
    omega
  have hsome : digit b ≠ none := by
    intro hn
    simp [isDigit, hn] at h
  refine ⟨?_, ?_, ?_, ?_⟩
  · rintro rfl; exact hsome (by decide)
  · rintro rfl; exact hsome (by decide)
  · rintro rfl; exact absurd (key 33 (by decide)) (by decide)
  · rintro rfl; exact absurd (key 33 (by decide)) (by decide)

theorem takeWhile_run {α : Type} (p : α → Bool) (l : List α) (t : α) (r : List α)
    (hl : ∀ b ∈ l, p b = true) (ht : p t = false) : (l ++ t :: r).takeWhile p = l := by
  rw [List.takeWhile_append_of_pos hl, List.takeWhile_cons_of_neg (by simp [ht]), List.append_nil]

/-- **A number with its end in sight** is read for what it is, whatever follows. -/
theorem strtoul_number (base : Nat) (hb : base ≤ 16) (w ds : List UInt8) (t : UInt8) (r : List UInt8)
    (hw : ∀ b ∈ w, isSpace b = true) (hds : ∀ b ∈ ds, isDigit base b = true) (hne : ds ≠ [])
    (ht : isDigit base t = false) (hx : base = 16 → t ≠ 120 ∧ t ≠ 88) :
    strtoul base (w ++ ds ++ t :: r) =
      ⟨if ulongMax < digitsVal base ds then ulongMax else digitsVal base ds, w.length + ds.length,
        w.length + ds.length + 1⟩ := by
  obtain ⟨d, ds', rfl⟩ := List.exists_cons_of_ne_nil hne
  have hd := hds d (by simp)
  have hsp : ((w ++ d :: ds' ++ t :: r).takeWhile isSpace) = w := by
    rw [List.append_assoc, List.cons_append]
    exact takeWhile_run _ _ _ _ hw (isDigit_not_space base d hd)
  have hdrop : (w ++ d :: ds' ++ t :: r).drop w.length = d :: ds' ++ t :: r := by
    rw [List.append_assoc, List.drop_left]
  obtain ⟨h45, h43, -, -⟩ := isDigit_ne base hb d hd
  have hsign : sign (d :: ds' ++ t :: r) = (false, 0, d :: ds' ++ t :: r) := by
    rw [List.cons_append]
    unfold sign
    split <;> simp_all
  have hhex : hexPrefix base (d :: ds' ++ t :: r) = (0, 0) := by
    cases ds' with
    | nil =>
      simp only [List.cons_append, List.nil_append, hexPrefix]
      split
      · rename_i x u heq
        simp only [List.cons.injEq] at heq
        rw [← heq.2.1, if_neg (by tauto)]
      · rfl
    | cons e es =>
      have he := (isDigit_ne base hb e (hds e (by simp))).2.2
      simp only [List.cons_append, hexPrefix]
      split
      · rename_i x u heq
        simp only [List.cons.injEq] at heq
        rw [← heq.2.1, if_neg (by tauto)]
      · rfl
  have htw : (d :: ds' ++ t :: r).takeWhile (isDigit base) = d :: ds' :=
    takeWhile_run _ _ _ _ hds ht
  simp only [strtoul, hsp, hdrop, hsign, hhex, List.drop_zero, htw]
  simp

theorem takeWhile_front {α : Type} (p : α → Bool) (l r : List α) (hl : ∀ b ∈ l, p b = true)
    (hr : ∀ b ∈ r.head?, p b = false) : (l ++ r).takeWhile p = l := by
  rw [List.takeWhile_append_of_pos hl]
  cases r with
  | nil => simp
  | cons b r => rw [List.takeWhile_cons_of_neg (by simp [hr b rfl]), List.append_nil]

theorem hexPrefix_ten (l : List UInt8) : hexPrefix 10 l = (0, 0) := by
  unfold hexPrefix
  split
  · rw [if_neg (by omega)]
  · rfl

theorem strtoul_signed (w sg ds r : List UInt8) (hw : ∀ b ∈ w, isSpace b = true)
    (hsg : sg = [] ∨ sg = [45] ∨ sg = [43]) (hds : ∀ b ∈ ds, isDigit 10 b = true) (hne : ds ≠ [])
    (hr : ∀ b ∈ r.head?, isDigit 10 b = false) :
    strtoul 10 (w ++ sg ++ ds ++ r) =
      ⟨if ulongMax < digitsVal 10 ds then ulongMax
        else if sg = [45] then (2 ^ 64 - digitsVal 10 ds) % 2 ^ 64 else digitsVal 10 ds,
        w.length + sg.length + ds.length, w.length + sg.length + ds.length + 1⟩ := by
  obtain ⟨d, ds', rfl⟩ := List.exists_cons_of_ne_nil hne
  have hd := hds d (by simp)
  have hsp : (w ++ (sg ++ (d :: ds' ++ r))).takeWhile isSpace = w := by
    refine takeWhile_front _ _ _ hw fun b hb => ?_
    rcases hsg with rfl | rfl | rfl
    · rw [List.nil_append, List.cons_append, List.head?_cons, Option.mem_some_iff] at hb
      exact hb ▸ isDigit_not_space 10 d hd
    all_goals
      rw [List.cons_append, List.head?_cons, Option.mem_some_iff] at hb
      rw [← hb]
      decide
  have hsign : sign (sg ++ (d :: ds' ++ r)) = (decide (sg = [45]), sg.length, d :: ds' ++ r) := by
    rcases hsg with rfl | rfl | rfl
    · obtain ⟨h45, h43, -, -⟩ := isDigit_ne 10 (by omega) d hd
      rw [List.nil_append, List.cons_append]
      unfold sign
      split <;> simp_all
    · rfl
    · rfl
  have htw : (d :: ds' ++ r).takeWhile (isDigit 10) = d :: ds' := takeWhile_front _ _ _ hds hr
  rw [List.append_assoc, List.append_assoc]
  simp only [strtoul, hsp, List.drop_left, hsign, hexPrefix_ten, List.drop_zero, htw]
  simp

theorem strtoul_digits (ds r : List UInt8) (hds : ∀ b ∈ ds, isDigit 10 b = true) (hne : ds ≠ [])
    (hr : ∀ b ∈ r.head?, isDigit 10 b = false) :
    strtoul 10 (ds ++ r) = ⟨if ulongMax < digitsVal 10 ds then ulongMax else digitsVal 10 ds, ds.length,
      ds.length + 1⟩ := by
  have h := strtoul_signed [] [] ds r (by simp) (Or.inl rfl) hds hne hr
  simpa using h

theorem sign_spec (l : List UInt8) : ∃ sg, (sg = [] ∨ sg = [45] ∨ sg = [43]) ∧ l = sg ++ (sign l).2.2 ∧
    ((sign l).1 = true ↔ sg = [45]) := by
  unfold sign
  split
  · exact ⟨[45], Or.inr (Or.inl rfl), rfl, by simp⟩
  · exact ⟨[43], Or.inr (Or.inr rfl), rfl, by simp⟩
  · exact ⟨[], Or.inl rfl, rfl, by simp⟩

theorem strtoul_val_lt (base : Nat) (l : List UInt8) : (strtoul base l).val < 2 ^ 64 := by
  have hmax : ulongMax = 2 ^ 64 - 1 := rfl
  unfold strtoul
  dsimp only
  split
  · exact Nat.two_pow_pos 64
  · dsimp only
    split
    · decide
    · split
      · exact Nat.mod_lt _ (by decide)
      · omega

theorem number_or_none (l : List UInt8) :
    (∃ w sg ds r, l = w ++ sg ++ ds ++ r ∧ (∀ b ∈ w, isSpace b = true) ∧ (sg = [] ∨ sg = [45] ∨ sg = [43]) ∧
      ds ≠ [] ∧ (∀ b ∈ ds, isDigit 10 b = true) ∧ ∀ b ∈ r.head?, isDigit 10 b = false) ∨
      (strtoul 10 l).val = 0 ∧ (strtoul 10 l).stop = 0 := by
  have hblanks : l.takeWhile isSpace ++ l.dropWhile isSpace = l := List.takeWhile_append_dropWhile
  have hdrop : l.drop (l.takeWhile isSpace).length = l.dropWhile isSpace := by
    conv_lhs => rw [← hblanks]
    exact List.drop_left' (by rw [hblanks])
  obtain ⟨sg, hsg, hsign, -⟩ := sign_spec (l.dropWhile isSpace)
  have hdigits : (sign (l.dropWhile isSpace)).2.2.takeWhile (isDigit 10) ++
      (sign (l.dropWhile isSpace)).2.2.dropWhile (isDigit 10) = (sign (l.dropWhile isSpace)).2.2 :=
    List.takeWhile_append_dropWhile
  by_cases hnone : (sign (l.dropWhile isSpace)).2.2.takeWhile (isDigit 10) = []
  · right
    simp only [strtoul, hdrop, hexPrefix_ten, List.drop_zero, hnone, if_true, and_self]
  · refine Or.inl ⟨l.takeWhile isSpace, sg, _, (sign (l.dropWhile isSpace)).2.2.dropWhile (isDigit 10), ?_,
      fun b hb => List.all_eq_true.mp List.all_takeWhile b hb, hsg,
        hnone, fun b hb => List.all_eq_true.mp List.all_takeWhile b hb, fun b hb => ?_⟩
    · rw [List.append_assoc, hdigits, List.append_assoc, ← hsign, hblanks]
    · have hhead := List.head?_dropWhile_not (isDigit 10) (sign (l.dropWhile isSpace)).2.2
      rw [Option.mem_def] at hb
      rw [hb] at hhead
      exact hhead

theorem strtoul_nothing (w r : List UInt8) (hw : ∀ b ∈ w, isSpace b = true)
    (hr : ∀ b ∈ r.head?, isSpace b = false ∧ isDigit 10 b = false ∧ b ≠ 45 ∧ b ≠ 43) :
    (strtoul 10 (w ++ r)).val = 0 ∧ (strtoul 10 (w ++ r)).stop = 0 := by
  have hsp : (w ++ r).takeWhile isSpace = w := takeWhile_front _ _ _ hw fun b hb => (hr b hb).1
  have hsign : sign r = (false, 0, r) := by
    cases r with
    | nil => rfl
    | cons b r =>
      obtain ⟨-, -, hminus, hplus⟩ := hr b rfl
      unfold sign
      split <;> simp_all
  have htw : r.takeWhile (isDigit 10) = [] := by
    have h := takeWhile_front (isDigit 10) [] r (fun b hb => by cases hb) fun b hb => (hr b hb).2.1
    rwa [List.nil_append] at h
  simp only [strtoul, hsp, List.drop_left, hsign, hexPrefix_ten, List.drop_zero, htw, if_true, and_self]

/-- The integer that a text says: blanks, a sign or none, and digits. -/
def integer (l : List UInt8) : Option Int :=
  let s := sign (l.dropWhile isSpace)
  if s.2.2 ≠ [] ∧ ∀ b ∈ s.2.2, isDigit 10 b = true then
    some (if s.1 = true then -(digitsVal 10 s.2.2 : Int) else digitsVal 10 s.2.2)
  else none

theorem integer_some {l : List UInt8} {n : Int} (h : integer l = some n) :
    ∃ w sg ds, l = w ++ sg ++ ds ∧ (∀ b ∈ w, isSpace b = true) ∧ (sg = [] ∨ sg = [45] ∨ sg = [43]) ∧
      (∀ b ∈ ds, isDigit 10 b = true) ∧ ds ≠ [] ∧
      n = if sg = [45] then -(digitsVal 10 ds : Int) else digitsVal 10 ds := by
  have hblanks : l.takeWhile isSpace ++ l.dropWhile isSpace = l := List.takeWhile_append_dropWhile
  obtain ⟨sg, hsg, hsplit, hminus⟩ := sign_spec (l.dropWhile isSpace)
  unfold integer at h
  simp only [hminus] at h
  split at h
  · rename_i hds
    refine ⟨l.takeWhile isSpace, sg, _, ?_, fun b hb => List.all_eq_true.mp List.all_takeWhile b hb, hsg, hds.2, hds.1,
      (Option.some.inj h).symm⟩
    rw [List.append_assoc, ← hsplit, hblanks]
  · cases h

theorem integer_signed (w sg ds : List UInt8) (hw : ∀ b ∈ w, isSpace b = true) (hsg : sg = [] ∨ sg = [45] ∨ sg = [43])
    (hds : ∀ b ∈ ds, isDigit 10 b = true) (hne : ds ≠ []) : integer (w ++ sg ++ ds) ≠ none := by
  obtain ⟨d, ds', rfl⟩ := List.exists_cons_of_ne_nil hne
  have hd := hds d List.mem_cons_self
  have hdrop : (w ++ sg ++ d :: ds').dropWhile isSpace = sg ++ d :: ds' := by
    rw [List.append_assoc, List.dropWhile_append_of_pos hw]
    rcases hsg with rfl | rfl | rfl
    · rw [List.nil_append, List.dropWhile_cons_of_neg]
      rw [isDigit_not_space 10 d hd]
      exact Bool.false_ne_true
    · rfl
    · rfl
  have hsign : (sign (sg ++ d :: ds')).2.2 = d :: ds' := by
    rcases hsg with rfl | rfl | rfl
    · obtain ⟨h45, h43, -, -⟩ := isDigit_ne 10 (by omega) d hd
      rw [List.nil_append]
      unfold sign
      split <;> simp_all
    · rfl
    · rfl
  unfold integer
  simp only [hdrop, hsign]
  rw [if_pos ⟨List.cons_ne_nil d ds', hds⟩]
  exact Option.some_ne_none _

example : strtoul 16 [48, 120, 49, 102, 13] = ⟨31, 4, 5⟩ := by decide
example : strtoul 10 [32, 45, 49, 59] = ⟨2 ^ 64 - 1, 3, 4⟩ := by decide

end Coins.Numeral
