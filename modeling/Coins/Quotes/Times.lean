import Coins.Quotes.Sent
import Coins.Quotes.Stamp

/-!
# Fractions of a second

Time stamps with 3, 6 or 9 digits behind the point are read back for what they are. Sending times may
have any number of digits there.
-/

open Coins.Numeral

namespace Coins.Quotes

/-! ## Time stamps -/

theorem tvtostr_text (t : tv_t) : tvtostr t =
    decimal (t.toNat / 10 ^ 9) ++ chr '.' :: fixed 9 (t.toNat % 10 ^ 9) := by
  have hdiv : (t / NSECS).toNat = t.toNat / 10 ^ 9 := UInt64.toNat_div ..
  have hmod : (t % NSECS).toNat = t.toNat % 10 ^ 9 := UInt64.toNat_mod ..
  unfold tvtostr
  rw [hdiv, hmod, List.append_assoc]
  rfl

/-- What is behind the point: as many nanoseconds as its digits say, for 3, 6 or 9 of them. -/
def nanoseconds (f : List Byte) : Option Nat :=
  if f.length = 3 ∨ f.length = 6 ∨ f.length = 9 then some (digitsVal 10 f * 10 ^ (9 - f.length)) else none

theorem nanoseconds_lt (f : List Byte) (hf : ∀ b ∈ f, isDigit 10 b = true) : ∀ n ∈ nanoseconds f, n < 10 ^ 9 := by
  intro n hn
  have hlt := digitsVal_lt f hf
  unfold nanoseconds at hn
  split at hn
  · rename_i hlen
    rw [Option.mem_some_iff] at hn
    rcases hlen with h | h | h
    all_goals
      rw [h] at hlt hn
      omega
  · cases hn

theorem strtotv_point (s f rest : List Byte) (hs : ∀ b ∈ s, isDigit 10 b = true) (hsne : s ≠ [])
    (hsec : digitsVal 10 s * 10 ^ 9 + 10 ^ 9 ≤ 2 ^ 64) (hf : ∀ b ∈ f, isDigit 10 b = true) (hfne : f ≠ [])
    (hrest : ∀ b ∈ rest.head?, isDigit 10 b = false) :
    match nanoseconds f with
    | some n =>
      (strtotv (s ++ chr '.' :: (f ++ rest))).1.toNat = digitsVal 10 s * 10 ^ 9 + n ∧
        (strtotv (s ++ chr '.' :: (f ++ rest))).2 = rest
    | none => (strtotv (s ++ chr '.' :: (f ++ rest))).1 = NOT_A_TIME := by
  have hsread := strtoul_digits s (chr '.' :: (f ++ rest)) hs hsne (fun b hb => by
    rw [List.head?_cons, Option.mem_some_iff] at hb
    rw [← hb]
    decide)
  have hfread := strtoul_digits f rest hf hfne hrest
  have hlt := nanoseconds_lt f hf
  have hdigits := digitsVal_lt f hf
  have hpos : f.length ≠ 0 := fun h => hfne (List.length_eq_zero_iff.mp h)
  have hmax : ulongMax = 2 ^ 64 - 1 := rfl
  rw [if_neg (by omega)] at hsread
  have hdot : deref (chr '.' :: (f ++ rest)) = chr '.' := rfl
  unfold strtotv
  simp only [hsread, List.drop_left, hdot, if_true, List.tail_cons, hfread]
  by_cases hlen : f.length = 3 ∨ f.length = 6 ∨ f.length = 9
  · have hfit : ¬ ulongMax < digitsVal 10 f := by
      have hle : 10 ^ f.length ≤ 10 ^ 9 := Nat.pow_le_pow_right (by omega) (by omega)
      omega
    have hnum : nanoseconds f = some (digitsVal 10 f * 10 ^ (9 - f.length)) := if_pos hlen
    have hsum := hlt _ hnum
    have hnsecs : NSECS.toNat = 10 ^ 9 := rfl
    have hmsecs : MSECS.toNat = 1000 := rfl
    rw [hnum, if_neg hfit, if_neg (by omega), if_neg (by omega), if_neg hpos]
    refine ⟨?_, rfl⟩
    dsimp only
    rcases hlen with h | h | h
    · rw [h] at hsum hdigits ⊢
      rw [if_pos (by omega), if_pos (by omega)]
      simp only [UInt64.toNat_add, UInt64.toNat_mul, UInt64.toNat_ofNat', hnsecs, hmsecs]
      omega
    · rw [h] at hsum hdigits ⊢
      rw [if_pos (by omega), if_neg (by omega)]
      simp only [UInt64.toNat_add, UInt64.toNat_mul, UInt64.toNat_ofNat', hnsecs, hmsecs]
      omega
    · rw [h] at hsum hdigits ⊢
      rw [if_neg (by omega), if_neg (by omega)]
      simp only [UInt64.toNat_add, UInt64.toNat_mul, UInt64.toNat_ofNat', hnsecs]
      omega
  · have hnum : nanoseconds f = none := if_neg hlen
    rw [hnum]
    dsimp only
    by_cases hlong : f.length > 9
    · rw [if_pos hlong]
    · rw [if_neg hlong, if_pos (by omega)]

theorem strtotv_tvtostr (t : tv_t) (rest : List Byte) (hrest : ∀ b ∈ rest.head?, isDigit 10 b = false) :
    strtotv (tvtostr t ++ rest) = (t, rest) := by
  obtain ⟨hne, hdigits, hval⟩ := decimal_spec (t.toNat / 10 ^ 9)
  have hsub := digitsVal_fixed 9 (t.toNat % 10 ^ 9)
  have hlen := fixed_length 9 (t.toNat % 10 ^ 9)
  have hmax : ulongMax = 2 ^ 64 - 1 := rfl
  have ht := t.toNat_lt
  have hfne : fixed 9 (t.toNat % 10 ^ 9) ≠ [] := fun h => by
    rw [h] at hlen
    cases hlen
  have hsread := strtoul_digits _ (chr '.' :: (fixed 9 (t.toNat % 10 ^ 9) ++ rest)) hdigits hne (fun b hb => by
    rw [List.head?_cons, Option.mem_some_iff] at hb
    rw [← hb]
    decide)
  have hfread := strtoul_digits _ rest (fixed_digits 9 (t.toNat % 10 ^ 9)) hfne hrest
  rw [hval, if_neg (by omega)] at hsread
  rw [hsub, hlen, if_neg (by omega)] at hfread
  have hdot : deref (chr '.' :: (fixed 9 (t.toNat % 10 ^ 9) ++ rest)) = chr '.' := rfl
  rw [tvtostr_text, List.append_assoc, List.cons_append]
  unfold strtotv
  simp only [hsread, List.drop_left, hdot, if_true, List.tail_cons, hfread]
  rw [if_neg (by omega), if_neg (by omega), if_neg (by omega), if_neg (by omega), if_neg (by omega),
    List.drop_left' hlen]
  refine Prod.ext (UInt64.toNat_inj.mp ?_) rfl
  have hnsecs : NSECS.toNat = 10 ^ 9 := rfl
  simp only [UInt64.toNat_add, UInt64.toNat_mul, UInt64.toNat_ofNat', hnsecs]
  omega

/-- **Time stamps are read back**: what `tvtostr` prints, and seconds with 3, 6 or 9 digits behind the
point, with the end pointer behind them. -/
theorem stamps_read :
    (∀ (t : tv_t) (rest : List Byte), (∀ b ∈ rest.head?, isDigit 10 b = false) →
      strtotv (tvtostr t ++ rest) = (t, rest)) ∧
    ∀ (s f rest : List Byte), s ≠ [] → (∀ b ∈ s, isDigit 10 b = true) → digitsVal 10 s * 10 ^ 9 + 10 ^ 9 ≤ 2 ^ 64 →
      f ≠ [] → (∀ b ∈ f, isDigit 10 b = true) → (∀ b ∈ rest.head?, isDigit 10 b = false) →
      match nanoseconds f with
      | some n =>
        (strtotv (s ++ chr '.' :: (f ++ rest))).1.toNat = digitsVal 10 s * 10 ^ 9 + n ∧
          (strtotv (s ++ chr '.' :: (f ++ rest))).2 = rest
      | none => (strtotv (s ++ chr '.' :: (f ++ rest))).1 = NOT_A_TIME :=
  ⟨strtotv_tvtostr, fun s f rest hsne hs hsec hfne hf hrest => strtotv_point s f rest hs hsne hsec hf hfne hrest⟩

theorem stamps_read_top :
    strtotv (tvtostr NOT_A_TIME ++ [tab]) = (NOT_A_TIME, [tab]) ∧
      (strtotv (ascii "12" ++ chr '.' :: (ascii "250" ++ [tab]))).1.toNat = 12250000000 ∧
      (strtotv (ascii "12" ++ chr '.' :: (ascii "2500" ++ [tab]))).1 = NOT_A_TIME :=
  ⟨stamps_read.1 NOT_A_TIME [tab] (by decide +kernel),
    (stamps_read.2 (ascii "12") (ascii "250") [tab] (by decide +kernel) (by decide +kernel) (by decide +kernel)
      (by decide +kernel) (by decide +kernel)
      (by decide +kernel)).1,
    stamps_read.2 (ascii "12") (ascii "2500") [tab] (by decide +kernel) (by decide +kernel) (by decide +kernel)
      (by decide +kernel) (by decide +kernel)
      (by decide +kernel)⟩

/-! ## Sending times -/

/-- What is read as a number here, behind blanks and a sign, is 0. -/
def Numberless (on : List Byte) : Prop :=
  ∀ w sg e r, on = w ++ sg ++ e ++ r → (∀ b ∈ w, isSpace b = true) → (sg = [] ∨ sg = [chr '-'] ∨ sg = [chr '+']) →
    (∀ b ∈ e, isDigit 10 b = true) → ∀ b ∈ e, b = chr '0'

/-- There are digits up to nanoseconds, or only zeros; or there are none, and nothing else to take for some. -/
def Exact (ds rest : List Byte) : Prop :=
  (ds = [] → Numberless rest) ∧ (ds ≠ [] → ds.length ≤ 9 ∨ ∀ b ∈ ds, b = chr '0')

theorem repeat_ten (k : Nat) (v : tv_t) : (Nat.repeat (· * 10) k v).toNat = v.toNat * 10 ^ k % 2 ^ 64 := by
  induction k with
  | zero =>
    have h := v.toNat_lt
    rw [Nat.pow_zero, Nat.mul_one, Nat.mod_eq_of_lt h]
    rfl
  | succ k ih =>
    have hstep : Nat.repeat (· * 10) (k + 1) v = Nat.repeat (· * 10) k v * 10 := rfl
    have hten : (10 : tv_t).toNat = 10 := rfl
    rw [hstep, UInt64.toNat_mul, ih, hten, pow_succ 10 k, Nat.mod_mul_mod, Nat.mul_assoc]

theorem strtons_toNat (on : List Byte) :
    (strtons (chr '.' :: on)).toNat = (strtoul 10 on).val * 10 ^ (9 - (strtoul 10 on).stop) % 2 ^ 64 := by
  have hdot : ¬ deref (chr '.' :: on) ≠ chr '.' := fun h => h rfl
  have hval : (UInt64.ofNat (strtoul 10 on).val).toNat = (strtoul 10 on).val := by
    rw [UInt64.toNat_ofNat', Nat.mod_eq_of_lt (strtoul_val_lt 10 on)]
  unfold strtons
  rw [if_neg hdot, List.tail_cons]
  dsimp only
  rw [repeat_ten, hval]

theorem scaled_ne_zero (w sg e r : List Byte) (hw : ∀ b ∈ w, isSpace b = true)
    (hsg : sg = [] ∨ sg = [chr '-'] ∨ sg = [chr '+']) (he : ∀ b ∈ e, isDigit 10 b = true)
    (hr : ∀ b ∈ r.head?, isDigit 10 b = false) (hv : digitsVal 10 e ≠ 0) :
    (strtons (chr '.' :: (w ++ sg ++ e ++ r))).toNat ≠ 0 := by
  have hmax : ulongMax = 2 ^ 64 - 1 := rfl
  have hne : e ≠ [] := fun h => hv (by rw [h]; rfl)
  have hlt := digitsVal_lt e he
  rw [strtons_toNat, strtoul_signed w sg e r hw hsg he hne hr]
  dsimp only
  generalize hstop : w.length + sg.length + e.length = stop
  by_cases hlong : 9 ≤ stop
  · rw [show 9 - stop = 0 by omega, Nat.pow_zero, Nat.mul_one]
    split
    · rw [hmax]
      decide
    · split
      all_goals omega
  · have hpow : digitsVal 10 e * 10 ^ (9 - stop) < 10 ^ 9 := by
      calc digitsVal 10 e * 10 ^ (9 - stop) < 10 ^ e.length * 10 ^ (9 - stop) :=
            Nat.mul_lt_mul_of_pos_right hlt (Nat.pow_pos (by decide))
        _ = 10 ^ (e.length + (9 - stop)) := (Nat.pow_add 10 _ _).symm
        _ ≤ 10 ^ 9 := Nat.pow_le_pow_right (by decide) (by omega)
    have hscale : 0 < 10 ^ (9 - stop) := Nat.pow_pos (by decide)
    have hprod : 0 < digitsVal 10 e * 10 ^ (9 - stop) := Nat.mul_pos (by omega) hscale
    have hfit : digitsVal 10 e ≤ digitsVal 10 e * 10 ^ (9 - stop) := Nat.le_mul_of_pos_right _ hscale
    rw [if_neg (by omega)]
    split
    · rw [Nat.mod_mul_mod, Nat.sub_mul]
      omega
    · omega

theorem strtons_none (rest : List Byte) :
    (strtons (chr '.' :: rest)).toNat = 0 ↔ Numberless rest := by
  constructor
  · rintro hzero w sg e r rfl hw hsg he
    by_contra hsome
    have hdigits : r.takeWhile (isDigit 10) ++ r.dropWhile (isDigit 10) = r := List.takeWhile_append_dropWhile
    have hall : ∀ b ∈ e ++ r.takeWhile (isDigit 10), isDigit 10 b = true := by
      intro b hb
      rcases List.mem_append.mp hb with hb | hb
      · exact he b hb
      · exact List.all_eq_true.mp List.all_takeWhile b hb
    refine scaled_ne_zero w sg (e ++ r.takeWhile (isDigit 10)) (r.dropWhile (isDigit 10)) hw hsg hall
      (fun b hb => ?_) (fun hv => hsome fun b hb => ?_) ?_
    · have hhead := List.head?_dropWhile_not (isDigit 10) r
      rw [Option.mem_def] at hb
      rw [hb] at hhead
      exact hhead
    · exact (digitsVal_zero _ hall).mp hv b (List.mem_append_left _ hb)
    · rw [← List.append_assoc (w ++ sg), List.append_assoc (w ++ sg ++ e), hdigits]
      exact hzero
  · intro hnum
    rw [strtons_toNat]
    rcases number_or_none rest with ⟨w, sg, ds, r, rfl, hw, hsg, hne, hds, hr⟩ | ⟨hval, -⟩
    · have hv : digitsVal 10 ds = 0 := (digitsVal_zero ds hds).mpr (hnum w sg ds r rfl hw hsg hds)
      rw [strtoul_signed w sg ds r hw hsg hds hne hr, hv]
      dsimp only
      rw [if_neg (by decide)]
      split
      · rw [Nat.sub_zero, Nat.mod_self, Nat.zero_mul, Nat.zero_mod]
      · rw [Nat.zero_mul, Nat.zero_mod]
    · rw [hval, Nat.zero_mul, Nat.zero_mod]

theorem strtons_some (ds rest : List Byte) (hds : ∀ b ∈ ds, isDigit 10 b = true) (hne : ds ≠ [])
    (hrest : ∀ b ∈ rest.head?, isDigit 10 b = false) :
    (strtons (chr '.' :: (ds ++ rest))).toNat = digitsVal 10 ds * 10 ^ 9 / 10 ^ ds.length ↔
      ds.length ≤ 9 ∨ ∀ b ∈ ds, b = chr '0' := by
  have hmax : ulongMax = 2 ^ 64 - 1 := rfl
  have hlt := digitsVal_lt ds hds
  have hpos : 0 < 10 ^ ds.length := Nat.pow_pos (by decide)
  rw [strtons_toNat, strtoul_digits ds rest hds hne hrest]
  dsimp only
  by_cases hlen : ds.length ≤ 9
  · have hsplit : 10 ^ 9 = 10 ^ (9 - ds.length) * 10 ^ ds.length := by
      rw [← Nat.pow_add]
      congr 1
      omega
    have hsum : digitsVal 10 ds * 10 ^ (9 - ds.length) < 10 ^ 9 := by
      rw [hsplit, Nat.mul_comm (10 ^ _) (10 ^ ds.length)]
      exact Nat.mul_lt_mul_of_pos_right hlt (Nat.pow_pos (by decide))
    have hfit : 10 ^ ds.length ≤ 10 ^ 9 := Nat.pow_le_pow_right (by decide) hlen
    have hfloor : digitsVal 10 ds * 10 ^ 9 / 10 ^ ds.length = digitsVal 10 ds * 10 ^ (9 - ds.length) := by
      rw [hsplit, ← Nat.mul_assoc, Nat.mul_div_cancel _ hpos]
    rw [if_neg (by omega), hfloor, Nat.mod_eq_of_lt (by omega)]
    exact ⟨fun _ => Or.inl hlen, fun _ => rfl⟩
  · have hzeros : (∀ b ∈ ds, b = chr '0') ↔ digitsVal 10 ds = 0 := (digitsVal_zero ds hds).symm
    rw [show 9 - ds.length = 0 by omega, Nat.pow_zero, Nat.mul_one, hzeros]
    obtain ⟨k, hk⟩ : ∃ k, ds.length = 10 + k := ⟨ds.length - 10, by omega⟩
    -- cut off behind the ninth digit, the value has a digit less at the least
    have hcut : digitsVal 10 ds * 10 ^ 9 / 10 ^ ds.length ≤ digitsVal 10 ds / 10 := by
      rw [hk, show 10 + k = 9 + (1 + k) by omega, Nat.pow_add 10 9, Nat.mul_comm (10 ^ 9),
        Nat.mul_div_mul_right _ _ (Nat.pow_pos (by decide))]
      refine Nat.div_le_div_left ?_ (by decide)
      calc 10 = 10 ^ 1 := rfl
        _ ≤ 10 ^ (1 + k) := Nat.pow_le_pow_right (by decide) (by omega)
    have hsmall : digitsVal 10 ds * 10 ^ 9 / 10 ^ ds.length < 10 ^ 9 := by
      rw [Nat.div_lt_iff_lt_mul hpos, Nat.mul_comm (10 ^ 9)]
      exact Nat.mul_lt_mul_of_pos_right hlt (by decide)
    by_cases hv : digitsVal 10 ds = 0
    · rw [hv]
      simp
    · split
      all_goals
        refine ⟨fun he => ?_, fun h => absurd h (by omega)⟩
        omega

/-- **Fractions of a second are scaled** to nanoseconds, up to nine digits, or with zeros for digits,
and with nothing behind the bare point that reads as a number. -/
theorem fractions_scaled (ds rest : List Byte) (hds : ∀ b ∈ ds, isDigit 10 b = true)
    (hrest : ∀ b ∈ rest.head?, isDigit 10 b = false) :
    ((strtons (chr '.' :: (ds ++ rest))).toNat = digitsVal 10 ds * 10 ^ 9 / 10 ^ ds.length ∧
      (strtons (chr '.' :: (ds ++ rest))).toNat < 10 ^ 9) ↔ Exact ds rest := by
  have hlt := digitsVal_lt ds hds
  have hsmall : digitsVal 10 ds * 10 ^ 9 / 10 ^ ds.length < 10 ^ 9 := by
    rw [Nat.div_lt_iff_lt_mul (Nat.pow_pos (by decide)), Nat.mul_comm (10 ^ 9)]
    exact Nat.mul_lt_mul_of_pos_right hlt (by decide)
  have heq : ((strtons (chr '.' :: (ds ++ rest))).toNat = digitsVal 10 ds * 10 ^ 9 / 10 ^ ds.length ∧
      (strtons (chr '.' :: (ds ++ rest))).toNat < 10 ^ 9) ↔
      (strtons (chr '.' :: (ds ++ rest))).toNat = digitsVal 10 ds * 10 ^ 9 / 10 ^ ds.length :=
    ⟨fun h => h.1, fun h => ⟨h, by omega⟩⟩
  rw [heq]
  unfold Exact
  by_cases hne : ds = []
  · subst hne
    rw [List.nil_append, show digitsVal 10 [] * 10 ^ 9 / 10 ^ ([] : List Byte).length = 0 from rfl, strtons_none]
    exact ⟨fun h => ⟨fun _ => h, fun h => absurd rfl h⟩, fun h => h.1 rfl⟩
  · rw [strtons_some ds rest hds hne hrest]
    exact ⟨fun h => ⟨fun h => absurd h hne, fun _ => h⟩, fun h => h.2 hne⟩

theorem fractions_scaled_millis :
    (strtons (chr '.' :: (ascii "789" ++ [nl]))).toNat = 789000000 ∧
      ((strtons (chr '.' :: (ascii "789" ++ [nl]))).toNat = digitsVal 10 (ascii "789") * 10 ^ 9 / 10 ^ 3 ∧
        (strtons (chr '.' :: (ascii "789" ++ [nl]))).toNat < 10 ^ 9 ↔ Exact (ascii "789") [nl]) :=
  ⟨by decide +kernel, fractions_scaled (ascii "789") [nl] (by decide +kernel) (by decide +kernel)⟩

/-- Ten digits are taken for that many nanoseconds. -/
theorem ten_digits_unscaled :
    ¬ ∀ ds rest : List Byte, (∀ b ∈ ds, isDigit 10 b = true) → (∀ b ∈ rest.head?, isDigit 10 b = false) →
      (strtons (chr '.' :: (ds ++ rest))).toNat = digitsVal 10 ds * 10 ^ 9 / 10 ^ ds.length ∧
        (strtons (chr '.' :: (ds ++ rest))).toNat < 10 ^ 9 := by
  intro h
  have hbad := (h (ascii "8455000000") [tab] (by decide +kernel) (by decide +kernel)).2
  exact absurd hbad (by decide +kernel)

end Coins.Quotes
