import Coins.Quotes.Coalesced

/-!
# Two views of a message

The loggers parse a message as it comes, the converters parse the line that was logged for it. Both
find the same type and the same fields, unless there is a bar in the message.
-/

open Coins.Fix Coins.Lines Coins.Memory Coins.Numeral

namespace Coins.Quotes

/-- A message: the values of its length and its type, and the fields behind them. -/
structure Fielded where
  size : List Byte
  typ : Byte
  more : List Byte
  fields : List (List Byte)
  sized : size ≠ [] ∧ SOH ∉ size
  typed : SOH ∉ typ :: more
  plain : ∀ f ∈ fields, SOH ∉ f

def Fielded.rest (g : Fielded) : List Byte := g.fields.flatMap (· ++ [SOH])

def Fielded.text (g : Fielded) : List Byte := front_of SOH g.size (g.typ :: g.more) ++ g.rest

/-- The length of the prefix of a line. -/
def prfz (l : List Byte) : Nat :=
  match upto tab l with
  | some (a, _) => a.length + 1
  | none => 0

/-- What `procln` parses: the line behind its first tab. -/
def parsed (m : Mem Byte) (ln : Int) (lz : Nat) : Mem Byte × Parsed :=
  let z := prfz (m.view ln lz)
  parse bar (m.read ln (if z = 0 then lz else z)) (ln + z) (lz - z)

theorem procln_parsed (route : Mem Byte → Parsed → Int → Nat → Bool → Routed) (m : Mem Byte) (ln : Int)
    (lz : Nat) (h : (parsed m ln lz).2.typ = chr 'W' ∨ (parsed m ln lz).2.typ = chr 'X') :
    (procln_with route m ln lz).out = (route (parsed m ln lz).1 (parsed m ln lz).2 ln
      (prfz (m.view ln lz)) ((parsed m ln lz).2.typ = chr 'W')).out := by
  change Routed.out (if (parsed m ln lz).2.typ = chr 'W' ∨ (parsed m ln lz).2.typ = chr 'X' then _ else _) = _
  rw [if_pos h]
  rfl

/-! ## Without a bar -/

theorem logged_front_of (size typ : List Byte) (hsize : SOH ∉ size) (htyp : SOH ∉ typ) :
    (front_of SOH size typ).map logged = front_of bar size typ := by
  unfold front_of
  simp only [List.map_append, logged_plain size hsize, logged_plain typ htyp]
  rfl

theorem map_seen (l : List Byte) (h : bar ∉ l) : l.map seen = l.map (nul_of SOH) := by
  refine List.map_congr_left fun b hb => ?_
  have hbar : b ≠ bar := fun he => h (he ▸ hb)
  unfold seen logged nul_of
  by_cases hs : b = SOH
  · rw [if_neg (not_not.mpr hs), if_neg (not_not.mpr rfl), if_neg (not_not.mpr hs)]
  · rw [if_pos hs, if_pos hbar, if_pos hs]

/-- The memory and the message in it have the fields `fs`, and `t` behind the last of them. -/
def Shows (q : Mem Byte × Parsed) (fs : List (List Byte)) (t : List Byte) : Prop :=
  lines 0 (q.1.view q.2.msg q.2.len) = fs ∧ rest 0 (q.1.view q.2.msg q.2.len) = t

/-- The fields of a message as the loggers have them. -/
def Fielded.shown (g : Fielded) : List (List Byte) :=
  if g.size.length ≤ 5 then lines 0 ((g.more.drop 1 ++ SOH :: g.rest).map (nul_of SOH)) else []

theorem rest_shown (g : Fielded) : rest 0 ((g.more.drop 1 ++ SOH :: g.rest).map (nul_of SOH)) = [] := by
  have hend : ∃ l, g.more.drop 1 ++ SOH :: g.rest = l ++ [SOH] := by
    unfold Fielded.rest
    rcases List.eq_nil_or_concat g.fields with h | ⟨fs, f, h⟩
    · exact ⟨g.more.drop 1, by rw [h, List.flatMap_nil]⟩
    · refine ⟨g.more.drop 1 ++ SOH :: (fs.flatMap (· ++ [SOH]) ++ f), ?_⟩
      rw [h, List.concat_eq_append, List.flatMap_append, List.flatMap_singleton]
      simp
  obtain ⟨l, hl⟩ := hend
  rw [hl, List.map_append]
  exact rest_concat _

theorem online_shows (g : Fielded) (m : Mem Byte) (buf : Int) (hlen : g.text.length < 2 ^ 56)
    (hview : m.view buf g.text.length = g.text) :
    let p := fix_parse m buf g.text.length
    p.2.typ = (if g.size.length ≤ 5 then g.typ else 0) ∧ Shows p g.shown [] := by
  intro p
  obtain ⟨hne, hsoh⟩ := g.sized
  have hmore : SOH ∉ g.more := fun h => g.typed (List.mem_cons_of_mem _ h)
  unfold p Fielded.shown
  rw [fix_parse_eq]
  by_cases h5 : g.size.length ≤ 5
  · obtain ⟨m', hparse, hm'⟩ := parse_front SOH m buf g.size g.more g.rest g.typ hne hsoh hmore h5 hlen hview
    have hp : parse SOH m buf g.text.length = _ := hparse
    unfold Shows
    rw [hp, if_pos h5, if_pos h5]
    rw [hm', front_drop]
    exact ⟨rfl, rfl, rest_shown g⟩
  · have hp : (parse SOH m buf g.text.length).2 = buggered :=
      parse_long SOH m buf g.size (g.typ :: g.more) g.rest hsoh (by omega) hview
    unfold Shows
    rw [hp, if_neg h5, if_neg h5]
    exact ⟨rfl, rfl, rfl⟩

theorem offline_shows (g : Fielded) (clock : List Byte) (m : Mem Byte) (ln : Int) (htab : tab ∉ clock)
    (hbar : bar ∉ g.text) (hlen : (buf_print clock g.text).length < 2 ^ 56)
    (hview : m.view ln (buf_print clock g.text).length = buf_print clock g.text) :
    let q := parsed m ln (buf_print clock g.text).length
    q.2.typ = (if g.size.length ≤ 5 then g.typ else 0) ∧
      Shows q g.shown (if g.size.length ≤ 5 then [nl] else []) := by
  intro q
  obtain ⟨hne, hsoh⟩ := g.sized
  have hmem : ∀ l, l <:+: g.text → bar ∉ l := fun l hl h => hbar (hl.subset h)
  have hsize : bar ∉ g.size := hmem _ ⟨fhdr9_of SOH, [SOH] ++ ascii "35=" ++ (g.typ :: g.more) ++ [SOH] ++ g.rest,
    by simp [Fielded.text, front_of]⟩
  have hmore : bar ∉ g.more := hmem _ ⟨fhdr9_of SOH ++ g.size ++ [SOH] ++ ascii "35=" ++ [g.typ], [SOH] ++ g.rest,
    by simp [Fielded.text, front_of]⟩
  have hrest : bar ∉ g.rest := hmem _ ⟨front_of SOH g.size (g.typ :: g.more), [], by simp [Fielded.text]⟩
  have hline : buf_print clock g.text =
      clock ++ tab :: (front_of bar g.size (g.typ :: g.more) ++ (g.rest.map logged ++ [nl])) := by
    unfold buf_print Fielded.text
    rw [List.map_append, logged_front_of _ _ hsoh g.typed]
    simp
  generalize hl : front_of bar g.size (g.typ :: g.more) ++ (g.rest.map logged ++ [nl]) = l at hline
  unfold q
  rw [hline] at hlen hview ⊢
  have hlz : (clock ++ tab :: l).length - (clock.length + 1) = l.length := by
    rw [List.length_append, List.length_cons]
    omega
  have hll : l.length < 2 ^ 56 := by
    rw [List.length_append, List.length_cons] at hlen
    omega
  have hmid : m.view (ln + (clock.length + 1 : Nat)) l.length = l := by
    have h := Mem.view_mid m ln _ (clock ++ [tab]) l [] (by rw [hview]; simp)
    rwa [List.length_append] at h
  unfold parsed prfz
  rw [hview, upto_some tab clock l htab]
  simp only [if_neg (Nat.succ_ne_zero clock.length), hlz]
  unfold Fielded.shown Shows
  by_cases h5 : g.size.length ≤ 5
  · obtain ⟨m', hparse, hm'⟩ := parse_front bar (m.read ln (clock.length + 1)) (ln + (clock.length + 1 : Nat))
      g.size g.more (g.rest.map logged ++ [nl]) g.typ hne hsize hmore h5 (by rw [hl]; exact hll)
      (by rw [hl, Mem.view_read, hmid])
    rw [front_drop, hl] at hm'
    rw [hl] at hparse
    have hmap : (g.more.drop 1 ++ bar :: (g.rest.map logged ++ [nl])).map (nul_of bar) =
        (g.more.drop 1 ++ SOH :: g.rest).map (nul_of SOH) ++ [nl] := by
      have hdrop : (g.more.drop 1).map (nul_of bar) = (g.more.drop 1).map (nul_of SOH) := by
        rw [map_nul_of bar _ fun h => hmore (List.mem_of_mem_drop h),
          map_nul_of SOH _ fun h => g.typed (List.mem_cons_of_mem _ (List.mem_of_mem_drop h))]
      have hseen : (g.rest.map logged).map (nul_of bar) = g.rest.map (nul_of SOH) := by
        rw [List.map_map]
        exact map_seen _ hrest
      simp only [List.map_append, List.map_cons, List.map_nil, hdrop, hseen, List.append_assoc, List.cons_append]
      rfl
    rw [hparse, if_pos h5, if_pos h5, if_pos h5]
    have hnl : (0 : Byte) ∉ [nl] := by decide
    rw [hm', hmap, lines_append, rest_append, rest_shown, List.nil_append, lines_of_not_mem [nl] hnl,
      List.append_nil]
    exact ⟨rfl, rfl, rfl⟩
  · have hp := parse_long bar (m.read ln (clock.length + 1)) (ln + (clock.length + 1 : Nat)) g.size
      (g.typ :: g.more) (g.rest.map logged ++ [nl]) hsize (by omega) (by rw [hl, Mem.view_read, hmid])
    rw [hl] at hp
    rw [hp, if_neg h5, if_neg h5, if_neg h5]
    exact ⟨rfl, rfl, rfl⟩

/-- The logged line gives the type and the fields of the message, and then the end of the line. -/
theorem views_agree (g : Fielded) (clock : List Byte) (m m' : Mem Byte) (buf ln : Int) (htab : tab ∉ clock)
    (hbar : bar ∉ g.text) (hlen : (buf_print clock g.text).length < 2 ^ 56)
    (hview : m.view buf g.text.length = g.text)
    (hview' : m'.view ln (buf_print clock g.text).length = buf_print clock g.text) :
    let p := fix_parse m buf g.text.length
    let q := parsed m' ln (buf_print clock g.text).length
    q.2.typ = p.2.typ ∧ ∃ fs t, Shows p fs [] ∧ Shows q fs t ∧ (t = [nl] ∨ p.2.typ = 0 ∧ t = []) := by
  have hle : g.text.length < 2 ^ 56 := by
    unfold buf_print at hlen
    simp only [List.length_append, List.length_map] at hlen
    omega
  obtain ⟨hp, hps⟩ := online_shows g m buf hle hview
  obtain ⟨hq, hqs⟩ := offline_shows g clock m' ln htab hbar hlen hview'
  intro p q
  refine ⟨hq.trans hp.symm, g.shown, _, hps, hqs, ?_⟩
  by_cases h5 : g.size.length ≤ 5
  · exact Or.inl (if_pos h5)
  · exact Or.inr ⟨hp.trans (if_neg h5), if_neg h5⟩

/-- A news message with one more field. -/
def news (field : List Byte) (h : SOH ∉ field) : Fielded where
  size := ascii "20"
  typ := chr 'B'
  more := []
  fields := [field, ascii "10=000"]
  sized := by decide
  typed := by decide
  plain := by
    intro f hf
    rcases List.mem_cons.mp hf with rfl | hf
    · exact h
    · rw [List.mem_singleton.mp hf]
      decide

theorem views_agree_news :
    let g := news (ascii "148=halt") (by decide)
    let p := fix_parse (held g.text) 0 g.text.length
    let q := parsed (held (buf_print clock g.text)) 0 (buf_print clock g.text).length
    q.2.typ = p.2.typ ∧ ∃ fs t, Shows p fs [] ∧ Shows q fs t ∧ (t = [nl] ∨ p.2.typ = 0 ∧ t = []) :=
  views_agree (news (ascii "148=halt") (by decide)) clock (held _) (held _) 0 0 (by decide) (by decide)
    (by decide) (holds_held _).text (holds_held _).text

/-- With a bar in it the field is two fields of the line. -/
theorem bar_splits :
    let g := news (ascii "148=a|b") (by decide)
    let p := fix_parse (held g.text) 0 g.text.length
    let q := parsed (held (buf_print clock g.text)) 0 (buf_print clock g.text).length
    (tab ∉ g.text ∧ nl ∉ g.text) ∧
      lines 0 (q.1.view q.2.msg q.2.len) ≠ lines 0 (p.1.view p.2.msg p.2.len) := by
  decide +kernel

end Coins.Quotes
