import Coins.Fix.Parse

/-!
# The bytes `fix_parse` looks at

Of the bytes it is given `fix_parse` counts the first twelve. What it looks at behind them may lie
behind the end.
-/

open Coins.Memory Coins.Numeral

namespace Coins.Fix

/-! ## What it wants to see -/

/-- The header and all that `fix_parse` looks at behind it: a digit it skips, others, the tag, the type
and the byte behind the type. -/
def looked (d : Byte) (ds : List Byte) (t c : Byte) : List Byte :=
  fhdr9 ++ d :: ds ++ [SOH] ++ ascii "35=" ++ [t, c]

theorem looked_length (d : Byte) (ds : List Byte) (t c : Byte) :
    (looked d ds t c).length = 19 + ds.length := by
  have h12 : fhdr9.length = 12 ∧ (ascii "35=").length = 3 := ⟨rfl, rfl⟩
  unfold looked
  simp only [List.length_append, List.length_cons, List.length_nil]
  omega

/-- The header is there, and the bytes end before `fix_parse` has seen all it wants to. -/
def CutOff (l : List Byte) : Prop :=
  fhdr9.length ≤ l.length ∧ ∃ d ds t c, SOH ∉ ds ∧ ds.length < 5 ∧ l <+: looked d ds t c ∧
    l.length < (looked d ds t c).length

/-- A message of some type whose length does not fit into 56 bits. -/
def Huge (l : List Byte) : Prop :=
  ∃ d ds t c v, l = looked d ds t c ++ v ∧ SOH ∉ ds ∧ ds.length < 5 ∧ t ≠ 0 ∧
    2 ^ 56 ≤ (if c = SOH then 1 else 0) + v.length

/-! ## What it sees -/

section
variable (soh : Byte)

theorem past_grows (m : Mem Byte) (buf : Int) (n j : Nat) : m.log <:+ (past soh m buf n j).1.log := by
  induction n generalizing m j with
  | zero => exact List.suffix_refl _
  | succ n ih =>
    unfold past
    simp only
    split
    · exact Mem.log_read _ _ _
    · exact (Mem.log_read _ _ _).trans (ih _ _)

theorem has_tag_grows (m : Mem Byte) (buf : Int) (ts : List Byte) (j : Nat) :
    m.log <:+ (has_tag m buf ts j).1.log := by
  induction ts generalizing m j with
  | nil => exact List.suffix_refl _
  | cons t ts ih =>
    unfold has_tag
    simp only
    split
    · exact (Mem.log_read _ _ _).trans (ih _ _)
    · exact Mem.log_read _ _ _

theorem past_reaches (m : Mem Byte) (buf : Int) (es : List Byte) (n j : Nat) (hes : soh ∉ es)
    (hn : es.length < n) (hview : m.view (buf + j) es.length = es) :
    ∃ m1 : Mem Byte, m.log <:+ m1.log ∧
      (m1.read (buf + (j + es.length : Nat)) 1).log <:+ (past soh m buf n j).1.log := by
  induction es generalizing m n j with
  | nil =>
    obtain ⟨n, rfl⟩ : ∃ k, n = k + 1 := ⟨n - 1, by rw [List.length_nil] at hn; omega⟩
    refine ⟨m, List.suffix_refl _, ?_⟩
    unfold past
    simp only
    split
    · exact List.suffix_refl _
    · exact past_grows soh _ _ _ _
  | cons e es ih =>
    rw [List.length_cons] at hn
    obtain ⟨n, rfl⟩ : ∃ k, n = k + 1 := ⟨n - 1, by omega⟩
    obtain ⟨hcell, htail⟩ : m.cell (buf + j) = e ∧ m.view (buf + j + 1) es.length = es := by
      simpa [Mem.view] using hview
    have he : e ≠ soh := fun h => hes (by simp [h])
    have hj : buf + ((j + 1 : Nat) : Int) = buf + j + 1 := by omega
    obtain ⟨m1, hm1, hread⟩ := ih (m.read (buf + j) 1) n (j + 1) (fun h => hes (by simp [h])) (by omega)
      (by rw [Mem.view_read, hj, htail])
    refine ⟨m1, (Mem.log_read _ _ _).trans hm1, ?_⟩
    have hlen : j + (e :: es).length = j + 1 + es.length := by
      rw [List.length_cons]
      omega
    rw [past, hlen]
    simp only [Mem.cell_read, hcell, if_neg he]
    exact hread

theorem has_tag_reaches (m : Mem Byte) (buf : Int) (es ts : List Byte) (t : Byte) (j : Nat)
    (hview : m.view (buf + j) es.length = es) :
    ∃ m1 : Mem Byte, m.log <:+ m1.log ∧
      (m1.read (buf + (j + es.length : Nat)) 1).log <:+ (has_tag m buf (es ++ t :: ts) j).1.log := by
  induction es generalizing m j with
  | nil =>
    refine ⟨m, List.suffix_refl _, ?_⟩
    rw [List.nil_append]
    unfold has_tag
    simp only
    split
    · exact has_tag_grows _ _ _ _
    · exact List.suffix_refl _
  | cons e es ih =>
    obtain ⟨hcell, htail⟩ : m.cell (buf + j) = e ∧ m.view (buf + j + 1) es.length = es := by
      simpa [Mem.view] using hview
    have hj : buf + ((j + 1 : Nat) : Int) = buf + j + 1 := by omega
    obtain ⟨m1, hm1, hread⟩ := ih (m.read (buf + j) 1) (j + 1) (by rw [Mem.view_read, hj, htail])
    refine ⟨m1, (Mem.log_read _ _ _).trans hm1, ?_⟩
    have hlen : j + (e :: es).length = j + 1 + es.length := by
      rw [List.length_cons]
      omega
    rw [List.cons_append, has_tag, hlen]
    simp only [Mem.cell_read, hcell, if_pos]
    exact hread

theorem has_tag_lost (m : Mem Byte) (buf : Int) (es ts : List Byte) (t b : Byte) (j : Nat) (hb : b ≠ t)
    (hview : m.view (buf + j) (es.length + 1) = es ++ [b]) :
    ∃ m', has_tag m buf (es ++ t :: ts) j = (m', false) ∧
      Mem.Within (buf + j) (buf + j + es.length + 1) m m' := by
  induction es generalizing m j with
  | nil =>
    have hcell : m.cell (buf + j) = b := by simpa [Mem.view] using hview
    refine ⟨m.read (buf + j) 1, ?_, Mem.Within.read _ _ (Or.inr (by simp))⟩
    rw [List.nil_append, has_tag]
    simp only [Mem.cell_read, hcell, if_neg hb]
  | cons e es ih =>
    obtain ⟨hcell, htail⟩ : m.cell (buf + j) = e ∧ m.view (buf + j + 1) (es.length + 1) = es ++ [b] := by
      simpa [Mem.view] using hview
    have hj : buf + ((j + 1 : Nat) : Int) = buf + j + 1 := by omega
    obtain ⟨m', htag, hin⟩ := ih (m.read (buf + j) 1) (j + 1) (by rw [Mem.view_read, hj, htail])
    rw [List.length_cons]
    refine ⟨m', ?_, (Mem.Within.read _ _ (Or.inr (by omega))).trans (hin.mono (by omega) (by omega))⟩
    rw [List.cons_append, has_tag]
    simp only [Mem.cell_read, hcell, if_pos, htag]

end

/-! ## Stage by stage -/

section
variable (m : Mem Byte) (buf : Int) (bsz : Nat) (h12 : 12 ≤ bsz) (hhead : m.view buf 12 = fhdr9)

include h12 hhead in
theorem fix_parse_lost {m1 : Mem Byte} {j : Nat} (hpast : past SOH (m.read buf 12) buf 5 13 = (m1, j, false)) :
    fix_parse m buf bsz = (m1, buggered) := by
  have hlen : (fhdr9_of SOH).length = 12 := rfl
  have hsame : fhdr9_of SOH = fhdr9 := rfl
  rw [fix_parse_eq]
  unfold parse
  rw [hlen, if_neg (by omega)]
  simp only [Mem.view_read, hhead, hsame, ne_eq, not_true_eq_false, if_false]
  rw [show 12 + 1 = 13 from rfl, hpast]
  rfl

include h12 hhead in
theorem fix_parse_untagged {m1 m2 : Mem Byte} {j : Nat}
    (hpast : past SOH (m.read buf 12) buf 5 13 = (m1, j, true))
    (htag : has_tag m1 buf (ascii "35=") j = (m2, false)) : fix_parse m buf bsz = (m2, buggered) := by
  have hlen : (fhdr9_of SOH).length = 12 := rfl
  have hsame : fhdr9_of SOH = fhdr9 := rfl
  rw [fix_parse_eq]
  unfold parse
  rw [hlen, if_neg (by omega)]
  simp only [Mem.view_read, hhead, hsame, ne_eq, not_true_eq_false, if_false]
  rw [show 12 + 1 = 13 from rfl, hpast]
  simp only [Bool.not_true, Bool.false_eq_true, if_false, htag, Bool.not_false, if_true]

include h12 hhead in
theorem fix_parse_past : (past SOH (m.read buf 12) buf 5 13).1.log <:+ (fix_parse m buf bsz).1.log := by
  have hlen : (fhdr9_of SOH).length = 12 := rfl
  have hsame : fhdr9_of SOH = fhdr9 := rfl
  rw [fix_parse_eq]
  unfold parse
  rw [hlen, if_neg (by omega)]
  simp only [Mem.view_read, hhead, hsame, ne_eq, not_true_eq_false, if_false]
  rw [show 12 + 1 = 13 from rfl]
  generalize past SOH (m.read buf 12) buf 5 13 = q
  split
  · exact List.suffix_refl _
  · have htag := has_tag_grows q.1 buf (ascii "35=") q.2.1
    split
    · exact htag
    · -- two reads, and the message read and written
      exact htag.trans (List.suffix_append [_, _, _, _] _)

include h12 hhead in
theorem fix_parse_tag {m1 : Mem Byte} {j : Nat} (hpast : past SOH (m.read buf 12) buf 5 13 = (m1, j, true)) :
    (has_tag m1 buf (ascii "35=") j).1.log <:+ (fix_parse m buf bsz).1.log ∧
      ((has_tag m1 buf (ascii "35=") j).2 = true →
        (((has_tag m1 buf (ascii "35=") j).1.read (buf + (j + 3 : Nat)) 1).read (buf + (j + 3 + 1 : Nat)) 1).log <:+
          (fix_parse m buf bsz).1.log) := by
  have hlen : (fhdr9_of SOH).length = 12 := rfl
  have hsame : fhdr9_of SOH = fhdr9 := rfl
  rw [fix_parse_eq]
  unfold parse
  rw [hlen, if_neg (by omega)]
  simp only [Mem.view_read, hhead, hsame, ne_eq, not_true_eq_false, if_false]
  rw [show 12 + 1 = 13 from rfl, hpast]
  generalize has_tag m1 buf (ascii "35=") j = q
  simp only [Bool.not_true, Bool.false_eq_true, if_false]
  split
  · rename_i hno
    exact ⟨List.suffix_refl _, fun hyes => by rw [hyes] at hno; cases hno⟩
  · exact ⟨List.suffix_append [_, _, _, _] _, fun _ => List.suffix_append [_, _] _⟩

end

/-! ## Bytes behind the end -/

theorem view_of_front (m : Mem Byte) (buf : Int) {l w : List Byte} (u x v : List Byte) (hl : l <+: w)
    (hview : m.view buf l.length = l) (hw : w = u ++ x ++ v) (hlen : u.length + x.length ≤ l.length) :
    m.view (buf + u.length) x.length = x := by
  have hux : u ++ x <+: l := List.prefix_of_prefix_length_le (by rw [hw]; exact List.prefix_append _ _) hl
    (by rw [List.length_append]; exact hlen)
  obtain ⟨v', hv'⟩ := hux
  exact Mem.view_mid m buf _ u x v' (hview.trans hv'.symm)

theorem cut_strays (m : Mem Byte) (buf : Int) (l : List Byte) (hview : m.view buf l.length = l) (h : CutOff l) :
    Mem.Strays (buf + l.length) m (fix_parse m buf l.length).1 := by
  obtain ⟨h12, d, ds, t, c, hds, h5, hl, hshort⟩ := h
  rw [looked_length] at hshort
  have hsize : fhdr9.length = 12 := rfl
  rw [hsize] at h12
  have hhead : m.view buf 12 = fhdr9 := by
    have := view_of_front m buf [] fhdr9 (d :: ds ++ [SOH] ++ ascii "35=" ++ [t, c]) hl hview
      (by simp [looked]) (by rw [hsize]; exact h12)
    simpa [hsize] using this
  by_cases hlong : l.length < 14 + ds.length
  · -- in the length
    have hes : m.view (buf + (13 : Nat)) (ds.take (l.length - 13)).length = ds.take (l.length - 13) := by
      rcases Nat.eq_or_lt_of_le h12 with heq | hlt
      · rw [← heq]
        rfl
      · have := view_of_front m buf (fhdr9 ++ [d]) (ds.take (l.length - 13))
          (ds.drop (l.length - 13) ++ [SOH] ++ ascii "35=" ++ [t, c]) hl hview ?_ ?_
        · rw [List.length_append] at this
          simpa [hsize] using this
        · simp only [looked, List.append_assoc, List.cons_append, List.nil_append]
          rw [← List.append_assoc (ds.take _), List.take_append_drop]
        · rw [List.length_append, hsize, List.length_take, List.length_singleton]
          omega
    obtain ⟨m1, hm1, hread⟩ := past_reaches SOH (m.read buf 12) buf (ds.take (l.length - 13)) 5 13
      (fun h => hds (List.mem_of_mem_take h)) (by rw [List.length_take]; omega) (by rw [Mem.view_read, hes])
    refine ⟨m1, _, 1, (Mem.log_read m buf 12).trans hm1,
      hread.trans (fix_parse_past m buf l.length h12 hhead), by omega, ?_⟩
    rw [List.length_take]
    omega
  · -- behind it
    have hdigits : m.view (buf + (13 : Nat)) (ds.length + 1) = ds ++ [SOH] := by
      have := view_of_front m buf (fhdr9 ++ [d]) (ds ++ [SOH]) (ascii "35=" ++ [t, c]) hl hview (by simp [looked])
        (by simp only [List.length_append, hsize, List.length_singleton]; omega)
      simp only [List.length_append, List.length_singleton, hsize] at this
      exact this
    obtain ⟨m1, hpast, hm1, hin1⟩ := past_found SOH (m.read buf 12) buf ds 5 13 hds h5
      (by rw [Mem.view_read, hdigits])
    have hlog1 : m.log <:+ m1.log := by
      have := past_grows SOH (m.read buf 12) buf 5 13
      rw [hpast] at this
      exact (Mem.log_read m buf 12).trans this
    obtain ⟨hrec, hrec'⟩ := fix_parse_tag m buf l.length h12 hhead hpast
    have h3 : (ascii "35=").length = 3 := rfl
    have htagview : ∀ es ts, ascii "35=" = es ++ ts → 14 + ds.length + es.length ≤ l.length →
        m1.view (buf + (13 + ds.length + 1 : Nat)) es.length = es := by
      intro es ts hes hle
      have := view_of_front m buf (fhdr9 ++ [d] ++ ds ++ [SOH]) es (ts ++ [t, c]) hl hview
        (by simp [looked, hes]) (by simp only [List.length_append, hsize, List.length_singleton]; omega)
      simp only [List.length_append, List.length_singleton, hsize] at this
      rw [Mem.view_congr m m1 _ _ (fun i _ _ => by rw [hm1]; rfl)]
      rw [show 13 + ds.length + 1 = 12 + 1 + ds.length + 1 by omega]
      exact this
    by_cases htag : l.length < 17 + ds.length
    · -- in the tag
      obtain ⟨es, t', ts, hes, hlen⟩ : ∃ es t' ts, ascii "35=" = es ++ t' :: ts ∧
          es.length = l.length - (14 + ds.length) := by
        have hne : (ascii "35=").drop (l.length - (14 + ds.length)) ≠ [] := by
          rw [Ne, List.drop_eq_nil_iff]
          omega
        obtain ⟨t', ts, hdrop⟩ := List.exists_cons_of_ne_nil hne
        refine ⟨(ascii "35=").take (l.length - (14 + ds.length)), t', ts, ?_, by rw [List.length_take]; omega⟩
        rw [← hdrop, List.take_append_drop]
      obtain ⟨m2, hm2, hread⟩ := has_tag_reaches m1 buf es ts t' (13 + ds.length + 1)
        (htagview es _ hes (by omega))
      rw [← hes] at hread
      exact ⟨m2, _, 1, hlog1.trans hm2, hread.trans hrec, by omega, by omega⟩
    · -- behind the tag
      obtain ⟨m2, hfound, hm2, hin2⟩ := has_tag_here m1 buf (ascii "35=") (13 + ds.length + 1)
        (htagview _ [] (List.append_nil _).symm (by omega))
      have hlog2 : m.log <:+ m2.log := by
        have := has_tag_grows m1 buf (ascii "35=") (13 + ds.length + 1)
        rw [hfound] at this
        exact hlog1.trans this
      have hread := hrec' (by rw [hfound])
      rw [hfound] at hread
      by_cases htyp : l.length = 17 + ds.length
      · exact ⟨m2, _, 1, hlog2, (Mem.log_read _ _ _).trans hread, by omega, by omega⟩
      · exact ⟨_, _, 1, hlog2.trans (Mem.log_read _ _ _), hread, by omega, by omega⟩

/-! ## Bytes that are enough -/

theorem beside (ts l : List Byte) :
    l <+: ts ∧ l.length < ts.length ∨ ts <+: l ∨
      ∃ es t ts' b l', ts = es ++ t :: ts' ∧ l = es ++ b :: l' ∧ b ≠ t := by
  induction ts generalizing l with
  | nil => exact Or.inr (Or.inl (List.nil_prefix))
  | cons t ts ih =>
    cases l with
    | nil => exact Or.inl ⟨List.nil_prefix, Nat.succ_pos _⟩
    | cons b l =>
      by_cases hb : b = t
      · subst hb
        rcases ih l with ⟨h, hlt⟩ | h | ⟨es, t', ts', b', l', rfl, rfl, hne⟩
        · exact Or.inl ⟨List.cons_prefix_cons.mpr ⟨rfl, h⟩, Nat.succ_lt_succ hlt⟩
        · exact Or.inr (Or.inl (List.cons_prefix_cons.mpr ⟨rfl, h⟩))
        · exact Or.inr (Or.inr ⟨b :: es, t', ts', b', l', rfl, rfl, hne⟩)
      · exact Or.inr (Or.inr ⟨[], t, ts, b, l, rfl, rfl, hb⟩)

theorem upto_soh (l : List Byte) : SOH ∉ l ∨ ∃ ds w, l = ds ++ SOH :: w ∧ SOH ∉ ds := by
  induction l with
  | nil => exact Or.inl List.not_mem_nil
  | cons b l ih =>
    by_cases hb : b = SOH
    · exact Or.inr ⟨[], l, by rw [hb]; rfl, List.not_mem_nil⟩
    · rcases ih with h | ⟨ds, w, rfl, hds⟩
      · exact Or.inl fun hmem => (List.mem_cons.mp hmem).elim (fun he => hb he.symm) h
      · refine Or.inr ⟨b :: ds, w, rfl, fun hmem => ?_⟩
        exact (List.mem_cons.mp hmem).elim (fun he => hb he.symm) hds

/-- The ways in which bytes that are not cut go on behind the header. -/
inductive Enough (l : List Byte) : Prop
  | none (h : ¬ fhdr9 <+: l)
  | long {d : Byte} {ds v : List Byte} (hl : l = fhdr9 ++ d :: ds ++ v) (hds : SOH ∉ ds) (h5 : ds.length = 5)
  | other {d : Byte} {ds es ts v : List Byte} {t b : Byte} (hl : l = fhdr9 ++ d :: ds ++ [SOH] ++ es ++ b :: v)
      (hds : SOH ∉ ds) (h5 : ds.length < 5) (htag : ascii "35=" = es ++ t :: ts) (hb : b ≠ t)
  | found {d : Byte} {ds v : List Byte} {t c : Byte} (hl : l = looked d ds t c ++ v) (hds : SOH ∉ ds)
      (h5 : ds.length < 5)

theorem enough (l : List Byte) (h : ¬ CutOff l) : Enough l := by
  by_cases hhead : fhdr9 <+: l
  · obtain ⟨r, rfl⟩ := hhead
    have hcut : ∀ d ds t c x, fhdr9 ++ r ++ x = looked d ds t c → SOH ∉ ds → ds.length < 5 → x = [] := by
      intro d ds t c x hx hds h5
      by_contra hne
      refine h ⟨by simp, d, ds, t, c, hds, h5, ⟨x, hx⟩, ?_⟩
      have := List.length_pos_of_ne_nil hne
      rw [← hx]
      simp only [List.length_append]
      omega
    cases r with
    | nil => exact absurd (hcut 0 [] 0 0 ([0] ++ [SOH] ++ ascii "35=" ++ [0, 0]) (by simp [looked]) (by simp)
        (by simp)) (by simp)
    | cons d u =>
      rcases upto_soh u with hu | ⟨ds, w, rfl, hds⟩
      · by_cases h5 : u.length < 5
        · exact absurd (hcut d u 0 0 ([SOH] ++ ascii "35=" ++ [0, 0]) (by simp [looked]) hu h5) (by simp)
        · have hfive : (u.take 5).length = 5 := by
            rw [List.length_take]
            omega
          refine .long (d := d) (v := u.drop 5) ?_ (fun hm => hu (List.mem_of_mem_take hm)) hfive
          rw [List.append_assoc, List.cons_append, List.take_append_drop]
      · by_cases h5 : ds.length < 5
        · rcases beside (ascii "35=") w with ⟨⟨x, hx⟩, -⟩ | ⟨w', rfl⟩ | ⟨es, t, ts, b, v, htag, rfl, hb⟩
          · exact absurd (hcut d ds 0 0 (x ++ [0, 0]) (by simp [looked, ← hx]) hds h5) (by simp)
          · match w' with
            | [] => exact absurd (hcut d ds 0 0 [0, 0] (by simp [looked]) hds h5) (by simp)
            | [t] => exact absurd (hcut d ds t 0 [0] (by simp [looked]) hds h5) (by simp)
            | t :: c :: v => exact .found (d := d) (t := t) (c := c) (v := v) (by simp [looked]) hds h5
          · exact .other (d := d) (v := v) (by simp) hds h5 htag hb
        · have hfive : (ds.take 5).length = 5 := by
            rw [List.length_take]
            omega
          refine .long (d := d) (v := ds.drop 5 ++ SOH :: w) ?_ (fun hm => hds (List.mem_of_mem_take hm)) hfive
          rw [List.append_assoc, List.cons_append, ← List.append_assoc (ds.take 5), List.take_append_drop]
  · exact .none hhead

/-! ## What comes of it -/

/-- There is no message, and nothing but the first `n` bytes was looked at. -/
def Rejects (buf : Int) (n : Nat) (m : Mem Byte) : Prop :=
  ∃ m', fix_parse m buf n = (m', buggered) ∧ Mem.Within buf (buf + n) m m'

/-- There is one of type `t`, from the `k`-th of the `n` bytes on. -/
def Finds (buf : Int) (n : Nat) (t : Byte) (k : Nat) (m : Mem Byte) : Prop :=
  ∃ m', fix_parse m buf n = (m', ⟨t, (((n : Int) - k) % 2 ^ 56).toNat, buf + k⟩) ∧ Mem.Within buf (buf + n) m m'

theorem rejects_head (m : Mem Byte) (buf : Int) (l : List Byte) (hview : m.view buf l.length = l)
    (h : ¬ fhdr9 <+: l) : Rejects buf l.length m := by
  have h12 : fhdr9.length = 12 := rfl
  have hsame : fhdr9_of SOH = fhdr9 := rfl
  unfold Rejects fix_parse parse
  rw [hsame]
  by_cases hlen : l.length < fhdr9.length
  · rw [if_pos hlen]
    exact ⟨m, rfl, Mem.Within.refl m⟩
  · have hne : m.view buf fhdr9.length ≠ fhdr9 := by
      intro heq
      refine h ⟨l.drop fhdr9.length, ?_⟩
      conv_lhs => rw [← heq]
      conv_rhs => rw [← List.take_append_drop fhdr9.length l]
      congr 1
      conv_rhs => rw [← hview]
      rw [Mem.view_take, Nat.min_eq_left (by omega)]
    rw [if_neg hlen]
    simp only [Mem.view_read]
    rw [if_pos hne]
    exact ⟨_, rfl, Mem.Within.read _ _ (Or.inr (by omega))⟩

theorem length_front (d : Byte) (ds : List Byte) : (fhdr9 ++ [d] ++ ds ++ [SOH]).length = 14 + ds.length := by
  have h12 : fhdr9.length = 12 := rfl
  simp only [List.length_append, List.length_singleton, h12]
  omega

section
variable (m : Mem Byte) (buf : Int) {l : List Byte} (hview : m.view buf l.length = l)

include hview in
theorem view_at (p : Nat) (u x w : List Byte) (hl : l = u ++ x ++ w) (hp : u.length = p) :
    m.view (buf + p) x.length = x := by
  subst hp
  exact Mem.view_mid m buf _ u x w (hview.trans hl)

include hview in
theorem view_head (w : List Byte) (hl : l = fhdr9 ++ w) : m.view buf 12 = fhdr9 := by
  have := view_at m buf hview 0 [] fhdr9 w hl rfl
  rwa [Nat.cast_zero, add_zero] at this

include hview in
theorem rejects_long {d : Byte} {ds v : List Byte} (hl : l = fhdr9 ++ d :: ds ++ v) (hds : SOH ∉ ds)
    (h5 : ds.length = 5) : Rejects buf l.length m := by
  have h12 : fhdr9.length = 12 := rfl
  have hlen : l.length = 18 + v.length := by
    rw [hl]
    simp only [List.length_append, List.length_cons, h12, h5]
  have hhead := view_head m buf hview (d :: ds ++ v) (by simp [hl])
  have hdigits := view_at m buf hview 13 (fhdr9 ++ [d]) ds v (by simp [hl]) rfl
  obtain ⟨m', hlost, hin⟩ := past_lost SOH (m.read buf 12) buf ds 13 hds (by rw [Mem.view_read, hdigits])
  rw [h5] at hlost
  refine ⟨m', fix_parse_lost m buf l.length (by omega) hhead hlost, ?_⟩
  exact (Mem.Within.read _ _ (Or.inr (by omega))).trans (hin.mono (by omega) (by omega))

include hview in
theorem rejects_other {d : Byte} {ds es ts v : List Byte} {t b : Byte}
    (hl : l = fhdr9 ++ d :: ds ++ [SOH] ++ es ++ b :: v) (hds : SOH ∉ ds) (h5 : ds.length < 5)
    (htag : ascii "35=" = es ++ t :: ts) (hb : b ≠ t) : Rejects buf l.length m := by
  have h12 : fhdr9.length = 12 := rfl
  have hlen : l.length = 15 + ds.length + es.length + v.length := by
    rw [hl]
    simp only [List.length_append, List.length_cons, List.length_nil, h12]
    omega
  have hhead := view_head m buf hview (d :: ds ++ [SOH] ++ es ++ b :: v) (by simp [hl])
  have hdigits := view_at m buf hview 13 (fhdr9 ++ [d]) (ds ++ [SOH]) (es ++ b :: v) (by simp [hl]) rfl
  have hother := view_at m buf hview (13 + ds.length + 1) (fhdr9 ++ [d] ++ ds ++ [SOH]) (es ++ [b]) v
    (by simp [hl]) (by rw [length_front]; omega)
  rw [List.length_append, List.length_singleton] at hdigits hother
  obtain ⟨m1, hpast, hm1, hin1⟩ := past_found SOH (m.read buf 12) buf ds 5 13 hds h5
    (by rw [Mem.view_read, hdigits])
  obtain ⟨m2, hlost, hin2⟩ := has_tag_lost m1 buf es ts t b (13 + ds.length + 1) hb (by
    rw [Mem.view_congr m m1 _ _ (fun i _ _ => by rw [hm1]; rfl), hother])
  rw [← htag] at hlost
  refine ⟨m2, fix_parse_untagged m buf l.length (by omega) hhead hpast hlost, ?_⟩
  exact ((Mem.Within.read _ _ (Or.inr (by omega))).trans (hin1.mono (by omega) (by omega))).trans
    (hin2.mono (by omega) (by omega))

include hview in
theorem finds {d : Byte} {ds v : List Byte} {t c : Byte} (hl : l = looked d ds t c ++ v) (hds : SOH ∉ ds)
    (h5 : ds.length < 5) :
    Finds buf l.length t (if c ≠ SOH then 19 + ds.length else 18 + ds.length) m := by
  have h3 : (ascii "35=").length = 3 := rfl
  have hlen : l.length = 19 + ds.length + v.length := by rw [hl, List.length_append, looked_length]
  have hhead := view_head m buf hview (d :: ds ++ [SOH] ++ ascii "35=" ++ [t, c] ++ v) (by simp [hl, looked])
  have hdigits := view_at m buf hview 13 (fhdr9 ++ [d]) (ds ++ [SOH]) (ascii "35=" ++ [t, c] ++ v)
    (by simp [hl, looked]) rfl
  have htag := view_at m buf hview (14 + ds.length) (fhdr9 ++ [d] ++ ds ++ [SOH]) (ascii "35=") ([t, c] ++ v)
    (by simp [hl, looked]) (length_front d ds)
  have hkind := view_at m buf hview (17 + ds.length) (fhdr9 ++ [d] ++ ds ++ [SOH] ++ ascii "35=") [t, c] v
    (by simp [hl, looked]) (by rw [List.length_append, length_front, h3]; omega)
  have hj : buf + ((18 + ds.length : Nat) : Int) = buf + (17 + ds.length : Nat) + 1 := by omega
  have hfront : Fronted SOH m buf ds [c] t := by
    refine ⟨hhead, ?_, htag, ?_⟩
    · rwa [List.length_append, List.length_singleton] at hdigits
    · rw [hj]
      simpa [Mem.view] using hkind
  obtain ⟨m', -, hin, hparse⟩ := parse_fronted SOH m buf ds [c] t l.length hfront hds h5 (by omega)
  rw [← fix_parse_eq] at hparse
  refine ⟨_, hparse, ?_⟩
  refine (hin.mono (le_refl _) (by omega)).trans (Mem.Within.store _ _ (Or.inr ⟨le_refl _, ?_⟩))
  rw [List.length_map, Mem.view_length]

end

/-! ## All of it -/

/-- Two calls say the same, each about its own buffer. -/
def Agree (buf buf' : Int) (p q : Parsed) : Prop :=
  q.typ = p.typ ∧ q.len = p.len ∧ (p.msg = 0 ∧ q.msg = 0 ∨ q.msg - buf' = p.msg - buf)

/-- The result comes from the bytes that are given, is a view that ends with them, and nothing else is
touched. -/
structure Contained (m : Mem Byte) (buf : Int) (bsz : Nat) : Prop where
  same : ∀ (m' : Mem Byte) (buf' : Int), m'.view buf' bsz = m.view buf bsz →
    Agree buf buf' (fix_parse m buf bsz).2 (fix_parse m' buf' bsz).2
  ends : (fix_parse m buf bsz).2.typ ≠ 0 →
    ∃ k : Nat, (fix_parse m buf bsz).2.msg = buf + k ∧ k + (fix_parse m buf bsz).2.len = bsz
  within : Mem.Within buf (buf + bsz) m (fix_parse m buf bsz).1

theorem contained_rejects {m : Mem Byte} {buf : Int} {bsz : Nat}
    (h : ∀ (m' : Mem Byte) (buf' : Int), m'.view buf' bsz = m.view buf bsz → Rejects buf' bsz m') :
    Contained m buf bsz := by
  obtain ⟨m1, hm, hin⟩ := h m buf rfl
  refine ⟨fun m' buf' hview => ?_, fun ht => ?_, ?_⟩
  · obtain ⟨m2, hm', -⟩ := h m' buf' hview
    rw [hm, hm']
    exact ⟨rfl, rfl, Or.inl ⟨rfl, rfl⟩⟩
  · rw [hm] at ht
    exact absurd rfl ht
  · rw [hm]
    exact hin

theorem contained_finds {m : Mem Byte} {buf : Int} {bsz k : Nat} {t : Byte} (hk : k ≤ bsz)
    (hsmall : t ≠ 0 → bsz < k + 2 ^ 56)
    (h : ∀ (m' : Mem Byte) (buf' : Int), m'.view buf' bsz = m.view buf bsz → Finds buf' bsz t k m') :
    Contained m buf bsz := by
  obtain ⟨m1, hm, hin⟩ := h m buf rfl
  refine ⟨fun m' buf' hview => ?_, fun ht => ?_, ?_⟩
  · obtain ⟨m2, hm', -⟩ := h m' buf' hview
    rw [hm, hm']
    exact ⟨rfl, rfl, Or.inr (by simp only; omega)⟩
  · rw [hm] at ht ⊢
    have := hsmall ht
    exact ⟨k, rfl, by simp only; omega⟩
  · rw [hm]
    exact hin

/-- **`fix_parse` keeps to the bytes it is given** exactly if they are not cut off too early, and their
length fits where it is put. -/
theorem fix_parse_contained (m : Mem Byte) (buf : Int) (bsz : Nat) :
    Contained m buf bsz ↔ ¬ CutOff (m.view buf bsz) ∧ ¬ Huge (m.view buf bsz) := by
  obtain ⟨l, rfl, hl⟩ : ∃ l, l.length = bsz ∧ m.view buf bsz = l := ⟨_, Mem.view_length _ _ _, rfl⟩
  rw [hl]
  constructor
  · intro h
    refine ⟨fun hcut => (cut_strays m buf l hl hcut).not_within h.within, ?_⟩
    rintro ⟨d, ds, t, c, v, hmsg, hds, h5, ht, hbig⟩
    obtain ⟨m', hm, -⟩ := finds m buf hl hmsg hds h5
    have hend := h.ends
    rw [hm] at hend
    obtain ⟨k, hk, hlen⟩ := hend ht
    have hsize : l.length = 19 + ds.length + v.length := by rw [hmsg, List.length_append, looked_length]
    simp only at hk hlen
    by_cases hc : c = SOH
    · rw [if_neg (not_not.mpr hc)] at hk hlen
      rw [if_pos hc] at hbig
      omega
    · rw [if_pos hc] at hk hlen
      rw [if_neg hc] at hbig
      omega
  · rintro ⟨hcut, hhuge⟩
    cases enough l hcut with
    | none h => exact contained_rejects fun m' buf' hview => rejects_head m' buf' l (hview.trans hl) h
    | long hmsg hds h5 =>
      exact contained_rejects fun m' buf' hview => rejects_long m' buf' (hview.trans hl) hmsg hds h5
    | other hmsg hds h5 htag hb =>
      exact contained_rejects fun m' buf' hview => rejects_other m' buf' (hview.trans hl) hmsg hds h5 htag hb
    | found hmsg hds h5 =>
      rename_i d ds v t c
      have hsize : l.length = 19 + ds.length + v.length := by rw [hmsg, List.length_append, looked_length]
      refine contained_finds ?_ (fun ht => ?_) fun m' buf' hview => finds m' buf' (hview.trans hl) hmsg hds h5
      · split <;> omega
      · by_contra hbig
        refine hhuge ⟨d, ds, t, c, v, hmsg, hds, h5, ht, ?_⟩
        by_cases hc : c = SOH
        · rw [if_neg (not_not.mpr hc)] at hbig
          rw [if_pos hc]
          omega
        · rw [if_pos hc] at hbig
          rw [if_neg hc]
          omega

/-- The first fourteen bytes of a logon, with those of the last message behind them. -/
def stale_logon : Mem Byte :=
  ⟨fun i => (ascii "8=FIX.4.4" ++ [SOH] ++ ascii "9=5" ++ [SOH] ++ ascii "35=A" ++ [SOH])[i.toNat]?.getD 0, 4096, []⟩

/-- Fourteen bytes give a message of type `A`, or none, by what was in the buffer before. Its length is
that of four bytes before its beginning. -/
theorem cut_message_parsed :
    let fresh : Mem Byte := ⟨fun i => if i < 14 then stale_logon.cell i else 0, 4096, []⟩
    fresh.view 0 14 = stale_logon.view 0 14 ∧
      (fix_parse stale_logon 0 14).2.typ = 65 ∧ (fix_parse stale_logon 0 14).2.msg = 18 ∧
      (fix_parse stale_logon 0 14).2.len = 2 ^ 56 - 4 ∧ (fix_parse fresh 0 14).2.typ = 0 ∧
      ¬ Contained stale_logon 0 14 := by
  refine ⟨by decide +kernel, by decide +kernel, by decide +kernel, by decide +kernel, by decide +kernel, fun h => ?_⟩
  obtain ⟨k, hk, hlen⟩ := h.ends (by decide +kernel)
  rw [show (fix_parse stale_logon 0 14).2.len = 2 ^ 56 - 4 by decide +kernel] at hlen
  omega

end Coins.Fix
