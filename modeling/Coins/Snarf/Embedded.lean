import Coins.Snarf.Massage

/-!
# Documents in a line

A line may have documents in it, as strings with quotes and backslashes escaped. De-escaping puts each
in place of its string.
-/

open Coins.Memory Coins.Numeral Coins.Search Coins.Ws

namespace Coins.Snarf.Massage

/-- A text as it stands in a string. -/
def escape (c : List Byte) : List Byte := c.flatMap fun b => if b = quote ∨ b = backslash then [backslash, b] else [b]

/-- `"data"`, a colon and a string, and what is in front of it. -/
structure Doc where
  front : List Byte
  blanks : List Byte
  blanks' : List Byte
  content : List Byte
  blank : Blank blanks
  blank' : Blank blanks'

namespace Doc

def key (d : Doc) : List Byte := tok ++ d.blanks ++ colon :: d.blanks'

def text (d : Doc) : List Byte := d.key ++ quote :: (escape d.content ++ [quote])

end Doc

def line : List Doc → List Byte → List Byte
  | [], last => last
  | d :: ds, last => d.front ++ (d.text ++ line ds last)

def unfolded : List Doc → List Byte → List Byte
  | [], last => last
  | d :: ds, last => d.front ++ (d.key ++ d.content ++ unfolded ds last)

/-- Wherever there is a `"data"` in the text, the text has what shows that no string is there. -/
def Plain (t after : List Byte) : Prop :=
  ∀ u v, t ++ after = u ++ tok ++ v → u.length < t.length →
    ∃ w v', v = w ++ v' ∧ Dud w ∧ u.length + tok.length + w.length ≤ t.length

/-- What is between the documents has nothing that looks like one. -/
def Embedded : List Doc → List Byte → Prop
  | [], last => Plain last []
  | d :: ds, last => Plain d.front (d.text ++ line ds last) ∧ Embedded ds last

/-! ## Strings -/

theorem literal_text (c r : List Byte) : literal (escape c ++ quote :: r) = some (c, r) := by
  induction c with
  | nil => exact literal_quote r
  | cons b c ih =>
    unfold escape at ih ⊢
    rw [List.flatMap_cons, List.append_assoc]
    by_cases hb : b = quote ∨ b = backslash
    · rw [if_pos hb, List.cons_append, List.singleton_append, literal_escape, ih]
      rfl
    · obtain ⟨hq, hbs⟩ := not_or.mp hb
      rw [if_neg hb, List.singleton_append, literal_plain b _ hbs hq, ih]
      rfl

/-! ## Between the documents -/

theorem plain_on (t after : List Byte) (i : Nat) (h : Plain t after) (hi : find tok (t ++ after) = some i)
    (hlt : i < t.length) :
    ∃ w t', (t ++ after).drop (i + tok.length) = w ++ (t' ++ after) ∧ Dud w ∧ Plain t' after ∧
      i + tok.length + w.length + t'.length = t.length := by
  obtain ⟨⟨v, hv⟩, hle, -⟩ := (find_eq_some _ _ _).mp hi
  have hsplit : t ++ after = (t ++ after).take i ++ tok ++ v := by
    rw [List.append_assoc, hv, List.take_append_drop]
  have hlen : ((t ++ after).take i).length = i := List.length_take_of_le hle
  obtain ⟨w, v', rfl, hw, hfit⟩ := h _ v hsplit (by rw [hlen]; exact hlt)
  rw [hlen] at hfit
  have hdrop : (t ++ after).drop (i + tok.length) = w ++ v' := by
    rw [← List.drop_drop, ← hv, List.drop_left]
  have hv' : v' = t.drop (i + tok.length + w.length) ++ after := by
    rw [← List.drop_append_of_le_length hfit, ← List.drop_drop, hdrop, List.drop_left]
  refine ⟨w, t.drop (i + tok.length + w.length), by rw [hdrop, hv'], hw, ?_, by rw [List.length_drop]; omega⟩
  intro u v hu hshort
  rw [List.length_drop] at hshort
  have hfront := List.take_append_drop (i + tok.length + w.length) t
  have hlong : (t.take (i + tok.length + w.length) ++ u).length = i + tok.length + w.length + u.length := by
    rw [List.length_append, List.length_take_of_le hfit]
  obtain ⟨w', v'', hww, hdud, hfits⟩ := h (t.take (i + tok.length + w.length) ++ u) v (by
    conv_lhs => rw [← hfront]
    rw [List.append_assoc, hu]
    simp only [List.append_assoc]) (by rw [hlong]; omega)
  rw [hlong] at hfits
  refine ⟨w', v'', hww, hdud, ?_⟩
  rw [List.length_drop]
  omega

theorem next_in_last (n : Nat) (t : List Byte) (hn : t.length ≤ n) (h : Plain t []) : NextData t none := by
  induction n generalizing t with
  | zero =>
    obtain rfl := List.length_eq_zero_iff.mp (Nat.le_zero.mp hn)
    exact .absent (by decide)
  | succ n ih =>
    cases hi : find tok t with
    | none => exact .absent hi
    | some i =>
      have hle := find_le _ _ _ hi
      have htok : tok.length = 6 := rfl
      obtain ⟨w, t', hdrop, hw, hplain, hlen⟩ := plain_on t [] i h (by rw [List.append_nil]; exact hi) (by omega)
      rw [List.append_nil, List.append_nil] at hdrop
      exact .other hi hdrop hw (ih t' (by omega) hplain)

theorem next_in_front (n : Nat) (t b b' v : List Byte) (hn : t.length ≤ n) (hb : Blank b) (hb' : Blank b')
    (h : Plain t (tok ++ (b ++ colon :: (b' ++ quote :: v)))) :
    NextData (t ++ (tok ++ (b ++ colon :: (b' ++ quote :: v))))
      (some (t.length + tok.length + (b.length + 1 + b'.length))) := by
  have htok : tok.length = 6 := rfl
  induction n generalizing t with
  | zero =>
    obtain rfl := List.length_eq_zero_iff.mp (Nat.le_zero.mp hn)
    have hi : find tok (tok ++ (b ++ colon :: (b' ++ quote :: v))) = some 0 := find_here _ _ (List.prefix_append _ _)
    have hdrop : (tok ++ (b ++ colon :: (b' ++ quote :: v))).drop (0 + tok.length) =
        b ++ colon :: (b' ++ quote :: v) := by
      rw [Nat.zero_add, List.drop_left]
    rw [List.nil_append, List.length_nil]
    exact NextData.found hi hdrop hb hb'
  | succ n ih =>
    obtain ⟨i, hi, hle⟩ : ∃ i, find tok (t ++ (tok ++ (b ++ colon :: (b' ++ quote :: v)))) = some i ∧ i ≤ t.length := by
      cases hi : find tok (t ++ (tok ++ (b ++ colon :: (b' ++ quote :: v)))) with
      | none => exact absurd ⟨t, _, by rw [List.append_assoc]⟩ ((find_eq_none _ _).mp hi)
      | some i =>
        refine ⟨i, rfl, ?_⟩
        by_contra hlt
        have hmin := ((find_eq_some _ _ _).mp hi).2.2 t.length (by omega)
        rw [List.drop_left] at hmin
        exact hmin (List.prefix_append _ _)
    rcases Nat.lt_or_eq_of_le hle with hlt | rfl
    · obtain ⟨w, t', hdrop, hw, hplain, hlen⟩ := plain_on t _ i h hi hlt
      have hother := NextData.other hi hdrop hw (ih t' (by omega) hplain)
      rw [Option.map_some] at hother
      rw [show t.length + tok.length + (b.length + 1 + b'.length) =
        i + tok.length + w.length + (t'.length + tok.length + (b.length + 1 + b'.length)) by omega]
      exact hother
    · exact .found hi (v := v) (by rw [← List.drop_drop, List.drop_left, List.drop_left]) hb hb'

theorem embedded_massaged (ds : List Doc) (last : List Byte) (h : Embedded ds last) :
    Massaged NextData (line ds last) (unfolded ds last) := by
  induction ds with
  | nil => exact .absent (next_in_last _ last (le_refl _) h)
  | cons d ds ih =>
    have hline : line (d :: ds) last =
        d.front ++ (tok ++ (d.blanks ++ colon :: (d.blanks' ++ quote ::
          (escape d.content ++ quote :: line ds last)))) := by
      simp [line, Doc.text, Doc.key]
    have hsplit : line (d :: ds) last = (d.front ++ d.key) ++ quote :: (escape d.content ++ quote :: line ds last) := by
      simp [line, Doc.text]
    have hplain := h.1
    have htext : d.text ++ line ds last =
        tok ++ (d.blanks ++ colon :: (d.blanks' ++ quote :: (escape d.content ++ quote :: line ds last))) := by
      simp [Doc.text, Doc.key]
    rw [htext] at hplain
    have hnext := next_in_front _ d.front d.blanks d.blanks' _ (le_refl _) d.blank d.blank' hplain
    have hlen : d.front.length + tok.length + (d.blanks.length + 1 + d.blanks'.length) = (d.front ++ d.key).length := by
      simp only [Doc.key, List.length_append, List.length_cons]
      omega
    rw [← hline, hsplit, hlen] at hnext
    have hextent := Massaged.extent hnext (literal_text d.content _) (ih h.2)
    rw [hsplit]
    rw [show unfolded (d :: ds) last = d.front ++ d.key ++ d.content ++ unfolded ds last by simp [unfolded]]
    exact hextent

/-- **Documents are unfolded**, and nothing else is changed. -/
theorem documents_unfolded (ds : List Doc) (last : List Byte) (h : Embedded ds last) (m : Mem Byte) (buf : Int)
    (n : Nat) (hview : m.view buf (line ds last).length = line ds last) (hn : (line ds last).length < n) :
    ∃ m', massage next_data n m buf (line ds last).length = some (m', (unfolded ds last).length) ∧
      m'.view buf (unfolded ds last).length = unfolded ds last := by
  obtain ⟨m', hdone, -, htext, -⟩ := massage_complete next_data_finds n m buf (line ds last).length (unfolded ds last)
    (by rw [hview]; exact embedded_massaged ds last h) hn
  exact ⟨m', hdone, htext⟩

/-- `{"data": "{\"a\":1}"}` -/
def nested : Doc where
  front := [123]
  blanks := []
  blanks' := [32]
  content := ascii "\x7b\"a\":1\x7d"
  blank := by simp [Blank]
  blank' := by simp [Blank]

def stored (l : List Byte) : Mem Byte := ⟨fun i => l.getD i.toNat 0, l.length, []⟩

theorem nested_embedded : Embedded [nested] [125, nl] := by
  refine ⟨fun u v hu hshort => ?_, fun u v hu hshort => ?_⟩
  · have hnil : u = [] := List.length_eq_zero_iff.mp (by
      simp only [nested, List.length_singleton] at hshort
      omega)
    subst hnil
    have hhead := congrArg List.head? hu
    exact absurd hhead (by simp [nested, tok, ascii])
  · have hlen := congrArg List.length hu
    simp [tok, ascii] at hlen
    omega

theorem documents_unfolded_nested :
    ∃ m', massage next_data 40 (stored (line [nested] [125, nl])) 0 (line [nested] [125, nl]).length =
        some (m', (unfolded [nested] [125, nl]).length) ∧
      m'.view 0 (unfolded [nested] [125, nl]).length = unfolded [nested] [125, nl] :=
  documents_unfolded [nested] [125, nl] nested_embedded (stored (line [nested] [125, nl])) 0 40 (by decide) (by decide)

end Coins.Snarf.Massage
