import Coins.Lib.Lines
import Coins.Lib.Numeral
import Coins.Ws.Handle
import Mathlib.Data.List.TakeWhile

/-!
# Logging lines

`logwss` writes the complete lines of a text, each with a time stamp. It moves every line to the front
of the text, where the stamp stands already. What is left of the text is an unfinished line.
-/

open Coins.Memory Coins.Numeral Coins.Lines Coins.Ws

namespace Coins.Snarf

/-- Room for the time stamp. -/
def INI_GBOF : Nat := 21

/-- What `clock_gettime` says. -/
structure Clock where
  tv_sec : Nat
  tv_nsec : Nat
  sec_lt : tv_sec < 2 ^ 63
  nsec_lt : tv_nsec < 10 ^ 9

/-- `"%ld.%09li"`. -/
def Clock.text (t : Clock) : List Byte := decimal t.tv_sec ++ ascii "." ++ fixed 9 t.tv_nsec

def record (t : Clock) (l : List Byte) : List Byte := t.text ++ [tab] ++ l ++ [nl]

/-- Puts the stamp at `a`, with a NUL behind it. -/
def hrclock_print (t : Clock) (m : Mem Byte) (a : Int) : Mem Byte := m.store a (t.text ++ [0])

def loghim (t : Clock) (buf : List Byte) : List Byte := record t buf

/-- `massage`: the buffer afterwards, and the new length. -/
abbrev Massage := Mem Byte → Int → Nat → Mem Byte × Nat

/-- The `massage` of a program that has none of its own. -/
def massage : Massage := fun m _ bsz => (m, bsz)

/-- The loop of `logwss` with `lp` at offset `lp`: the buffer, `lp` at the end, and the records. Every
turn takes a byte at least, so `len` turns are enough. -/
def log_lines (mas : Massage) (buf : Int) (len prfz : Nat) :
    Nat → Mem Byte → Nat → Mem Byte × Nat × List (List Byte)
  | 0, m, lp => (m, lp, [])
  | n + 1, m, lp =>
    if lp < len then
      match memchr nl (m.view (buf + lp) (len - lp)) with
      | none => (m.read (buf + lp) (len - lp), lp, [])
      | some z =>
        let m := m.read (buf + lp) (z + 1)
        let tgt := buf + prfz - INI_GBOF
        let m := (m.move tgt (buf + lp) z).store (tgt + z) [nl]
        let (m, z') := mas m tgt (z + 1)
        let out := m.view (buf - INI_GBOF) (prfz + z')
        let r := log_lines mas buf len prfz n (m.read (buf - INI_GBOF) (prfz + z')) (lp + z + 1)
        (r.1, r.2.1, out :: r.2.2)
    else (m, lp, [])

/-- The buffer, the number of bytes logged, and the records. -/
def logwss (mas : Massage) (t : Clock) (m : Mem Byte) (buf : Int) (len : Nat) :
    Mem Byte × Nat × List (List Byte) :=
  let prfz := t.text.length
  let m := (hrclock_print t m (buf - INI_GBOF)).store (buf + prfz - INI_GBOF) [tab]
  log_lines mas buf len (prfz + 1) len m 0

/-! ## The stamp -/

theorem text_length (t : Clock) : t.text.length = (decimal t.tv_sec).length + 10 := by
  unfold Clock.text
  rw [List.length_append, List.length_append, fixed_length]
  rfl

def Clock.Ten (t : Clock) : Prop := 10 ^ 9 ≤ t.tv_sec ∧ t.tv_sec < 10 ^ 10

theorem text_ten (t : Clock) (h : t.Ten) : t.text.length = 20 := by
  rw [text_length, decimal_length t.tv_sec 9 h.1 h.2]

theorem text_length_le (t : Clock) : t.text.length ≤ 29 := by
  have hsec := t.sec_lt
  have h := decimal_length_le t.tv_sec 19 (by omega) (by omega)
  rw [text_length]
  omega

/-! ## Lines -/

theorem line_moved (m : Mem Byte) (buf : Int) (lp : Nat) (a u : List Byte) (k : Nat)
    (hview : m.view (buf + lp) (a.length + 1 + k) = a ++ nl :: u) :
    let m' := ((m.read (buf + lp) (a.length + 1)).move buf (buf + lp) a.length).store
      (buf + a.length) [nl]
    m'.view (buf - 21) (21 + (a.length + 1)) = m.view (buf - 21) 21 ++ a ++ [nl] ∧
      m'.view (buf - 21) 21 = m.view (buf - 21) 21 ∧
      ∀ i, buf + a.length + 1 ≤ i → m'.cell i = m.cell i := by
  intro m'
  have ha : m.view (buf + lp) a.length = a := by
    have h := Mem.view_mid m (buf + lp) _ [] a (nl :: u) (hview.trans (by simp))
    simpa using h
  have hfront : m'.view (buf - 21) 21 = m.view (buf - 21) 21 := by
    unfold m'
    rw [Mem.view_store_before _ _ _ _ _ (by omega), Mem.view_move_before _ _ _ _ _ _ (by omega),
      Mem.view_read]
  have hline : m'.view buf (a.length + 1) = a ++ [nl] := by
    unfold m'
    have h := Mem.view_store_append ((m.read (buf + lp) (a.length + 1)).move buf (buf + lp) a.length)
      buf a.length [nl]
    rw [List.length_singleton] at h
    rw [h, Mem.view_move, Mem.view_read, ha]
  refine ⟨?_, hfront, fun i hi => ?_⟩
  · have hbuf : buf - 21 + (21 : Nat) = buf := by omega
    rw [Mem.view_append, hfront, hbuf, hline, List.append_assoc]
  · unfold m'
    rw [Mem.cell_store_of_ge _ _ _ _ (by simp only [List.length_singleton]; omega)]
    unfold Mem.move
    rw [Mem.cell_store_of_ge _ _ _ _ (by rw [Mem.view_length]; omega)]
    rfl

theorem log_lines_spec (buf : Int) (len n : Nat) (m : Mem Byte) (lp : Nat) (hlp : lp ≤ len)
    (hn : len - lp ≤ n) :
    let l := m.view (buf + lp) (len - lp)
    let r := log_lines massage buf len 21 n m lp
    r.2.2 = (lines nl l).map (fun a => m.view (buf - 21) 21 ++ a ++ [nl]) ∧
      r.2.1 + (rest nl l).length = len ∧ ∀ i, buf + r.2.1 ≤ i → r.1.cell i = m.cell i := by
  induction n generalizing m lp with
  | zero =>
    have h0 : len - lp = 0 := by omega
    rw [h0]
    exact ⟨rfl, by simp [log_lines]; omega, fun _ _ => rfl⟩
  | succ n ih =>
    intro l r
    unfold r
    rw [log_lines]
    have hl : l.length = len - lp := Mem.view_length _ _ _
    by_cases hlt : lp < len
    · rw [if_pos hlt]
      rcases line_cases nl l with hno | ⟨a, u, hau, ha, -⟩
      · rw [memchr_none nl _ hno, lines_of_not_mem l hno, rest_of_not_mem l hno]
        exact ⟨rfl, by simp only; omega, fun _ _ => rfl⟩
      · have hsum : a.length + 1 + u.length = len - lp := by
          rw [← hl, hau, List.length_append, List.length_cons]
          omega
        have hview : m.view (buf + lp) (a.length + 1 + u.length) = a ++ nl :: u := by
          rw [hsum]
          exact hau
        obtain ⟨hrec, hfront, hcell⟩ := line_moved m buf lp a u u.length hview
        have hfound : memchr nl (m.view (buf + lp) (len - lp)) = some a.length := by
          rw [show m.view (buf + lp) (len - lp) = a ++ nl :: u from hau, memchr_some nl a u ha]
        have htgt : buf + ((21 : Nat) : Int) - (INI_GBOF : Nat) = buf := by
          unfold INI_GBOF
          omega
        simp only [hfound, massage, htgt]
        generalize hm : ((m.read (buf + lp) (a.length + 1)).move buf (buf + lp) a.length).store
          (buf + a.length) [nl] = m' at hrec hfront hcell
        -- the lines that are left are where they were
        have hrest : (m'.read (buf - (INI_GBOF : Nat)) (21 + (a.length + 1))).view
            (buf + (lp + a.length + 1 : Nat)) (len - (lp + a.length + 1)) = u := by
          rw [Mem.view_read]
          have hsame : m'.view (buf + (lp + a.length + 1 : Nat)) (len - (lp + a.length + 1)) =
              m.view (buf + (lp + a.length + 1 : Nat)) (len - (lp + a.length + 1)) :=
            Mem.view_congr _ _ _ _ fun i hi _ => hcell i (by omega)
          rw [hsame, show len - (lp + a.length + 1) = u.length by omega]
          have h := Mem.view_mid m (buf + lp) _ (a ++ [nl]) u [] (hview.trans (by simp))
          rw [List.length_append, List.length_singleton] at h
          have haddr : buf + ((lp + a.length + 1 : Nat) : Int) = buf + lp + (a.length + 1 : Nat) := by
            push_cast
            ring
          rw [haddr]
          exact h
        obtain ⟨hrecs, hend, hkept⟩ := ih (m'.read (buf - (INI_GBOF : Nat)) (21 + (a.length + 1)))
          (lp + a.length + 1) (by omega) (by omega)
        rw [hrest] at hrecs hend
        rw [hau, lines_line a u ha, rest_line a u ha]
        refine ⟨?_, hend, fun i hi => ?_⟩
        · rw [hrecs, List.map_cons]
          have hini : buf - ((INI_GBOF : Nat) : Int) = buf - 21 := rfl
          rw [hini, Mem.view_read, hfront, hrec]
        · have hrest : (rest nl u).length ≤ u.length := rest_length_le u
          rw [hkept i hi, Mem.cell_read]
          exact hcell i (by omega)
    · have h0 : len - lp = 0 := by omega
      rw [if_neg hlt]
      unfold l
      rw [h0]
      exact ⟨rfl, by simp; omega, fun _ _ => rfl⟩

theorem stamp_ten (t : Clock) (m : Mem Byte) (buf : Int) (h : t.Ten) :
    let m' := (hrclock_print t m (buf - INI_GBOF)).store (buf + t.text.length - INI_GBOF) [tab]
    m'.view (buf - 21) 21 = t.text ++ [tab] ∧ ∀ i, buf ≤ i → m'.cell i = m.cell i := by
  intro m'
  have hlen := text_ten t h
  have hini : buf - ((INI_GBOF : Nat) : Int) = buf - 21 := rfl
  have htab : buf + ((20 : Nat) : Int) - (INI_GBOF : Nat) = buf - 21 + (20 : Nat) := by
    unfold INI_GBOF
    omega
  have hstore : m' = (m.store (buf - 21) (t.text ++ [0])).store (buf - 21 + (20 : Nat)) [tab] := by
    unfold m' hrclock_print
    rw [hlen, htab, hini]
  rw [hstore]
  refine ⟨?_, fun i hi => ?_⟩
  · have happ := Mem.view_store_append (m.store (buf - 21) (t.text ++ [0])) (buf - 21) 20 [tab]
    rw [List.length_singleton] at happ
    have hpre := Mem.view_store m (buf - 21) (t.text ++ [0])
    rw [List.length_append, hlen, List.length_singleton, Mem.view_append] at hpre
    rw [happ, (List.append_inj hpre (by simp [hlen])).1]
  · rw [Mem.cell_store_of_ge _ _ _ _ (by simp only [List.length_singleton]; omega),
      Mem.cell_store_of_ge _ _ _ _ (by
        rw [List.length_append, hlen, List.length_singleton]
        omega)]

theorem logwss_spec (t : Clock) (m : Mem Byte) (buf : Int) (len : Nat) (h : t.Ten) :
    let l := m.view buf len
    let r := logwss massage t m buf len
    r.2.2 = (lines nl l).map (record t) ∧ r.2.1 + (rest nl l).length = len ∧
      ∀ i, buf + r.2.1 ≤ i → r.1.cell i = m.cell i := by
  intro l r
  obtain ⟨hstamp, hcell⟩ := stamp_ten t m buf h
  unfold r logwss
  simp only
  generalize (hrclock_print t m (buf - INI_GBOF)).store (buf + t.text.length - INI_GBOF) [tab] = m'
    at hstamp hcell
  obtain ⟨hrecs, hend, hkept⟩ := log_lines_spec buf len len m' 0 (Nat.zero_le _) (by omega)
  have hsame : m'.view (buf + (0 : Nat)) (len - 0) = l :=
    (Mem.view_congr _ _ _ _ fun i hi _ => hcell i (by omega)).trans (by simp [l])
  rw [hsame] at hrecs hend
  rw [text_ten t h]
  refine ⟨?_, hend, fun i hi => (hkept i hi).trans (hcell i (by omega))⟩
  rw [hrecs, hstamp]
  rfl

/-! ## Bounds -/

/-- A `massage`, and the lines it can take: in these it stays, and they get no longer. -/
structure Unfolder where
  run : Massage
  Takes : List Byte → Prop
  stays : ∀ (m : Mem Byte) (a : Int) (n : Nat), Takes (m.view a n) →
    Mem.Within a (a + n) m (run m a n).1 ∧ (run m a n).2 ≤ n

theorem massage_within (m : Mem Byte) (a : Int) (n : Nat) :
    Mem.Within a (a + n) m (massage m a n).1 ∧ (massage m a n).2 ≤ n := ⟨Mem.Within.refl m, le_refl n⟩

/-- It leaves every line as it is. -/
def weak : Unfolder := ⟨massage, fun _ => True, fun m a n _ => massage_within m a n⟩

/-- It can take all the lines that `log_lines` hands to it. -/
def log_lines_takes (u : Unfolder) (buf : Int) (len prfz : Nat) : Nat → Mem Byte → Nat → Prop
  | 0, _, _ => True
  | n + 1, m, lp =>
    if lp < len then
      match memchr nl (m.view (buf + lp) (len - lp)) with
      | none => True
      | some z =>
        let m := m.read (buf + lp) (z + 1)
        let tgt := buf + prfz - INI_GBOF
        let m := (m.move tgt (buf + lp) z).store (tgt + z) [nl]
        let q := u.run m tgt (z + 1)
        u.Takes (m.view tgt (z + 1)) ∧
          log_lines_takes u buf len prfz n (q.1.read (buf - INI_GBOF) (prfz + q.2)) (lp + z + 1)
    else True

def logwss_takes (u : Unfolder) (t : Clock) (m : Mem Byte) (buf : Int) (len : Nat) : Prop :=
  let prfz := t.text.length
  let m := (hrclock_print t m (buf - INI_GBOF)).store (buf + prfz - INI_GBOF) [tab]
  log_lines_takes u buf len (prfz + 1) len m 0

theorem weak_takes (buf : Int) (len prfz n : Nat) (m : Mem Byte) (lp : Nat) :
    log_lines_takes weak buf len prfz n m lp := by
  induction n generalizing m lp with
  | zero => trivial
  | succ n ih =>
    rw [log_lines_takes]
    split
    · split
      · trivial
      · exact ⟨trivial, ih _ _⟩
    · trivial

theorem logwss_weak (t : Clock) (m : Mem Byte) (buf : Int) (len : Nat) : logwss_takes weak t m buf len :=
  weak_takes _ _ _ _ _ _

theorem log_lines_within (u : Unfolder) (buf : Int) (len prfz n : Nat) (m : Mem Byte) (lp : Nat) (hlp : lp ≤ len)
    (htakes : log_lines_takes u buf len prfz n m lp) :
    let r := log_lines u.run buf len prfz n m lp
    Mem.Within (buf - 21) (buf + (len + (prfz - 21) : Nat)) m r.1 ∧ r.2.1 ≤ len := by
  induction n generalizing m lp with
  | zero => exact ⟨Mem.Within.refl m, hlp⟩
  | succ n ih =>
    intro r
    unfold r
    rw [log_lines]
    rw [log_lines_takes] at htakes
    split
    · rename_i hlt
      rw [if_pos hlt] at htakes
      cases hz : memchr nl (m.view (buf + lp) (len - lp)) with
      | none => exact ⟨Mem.Within.read _ _ (Or.inr ⟨by omega, by push_cast; omega⟩), hlp⟩
      | some z =>
        rw [hz] at htakes
        simp only at htakes
        have hzlen := memchr_lt _ _ _ hz
        rw [Mem.view_length] at hzlen
        simp only
        have htgt : buf - 21 ≤ buf + prfz - (INI_GBOF : Nat) ∧
            buf + prfz - (INI_GBOF : Nat) + (z + 1 : Nat) ≤ buf + (len + (prfz - 21) : Nat) := by
          unfold INI_GBOF
          omega
        generalize buf + prfz - ((INI_GBOF : Nat) : Int) = tgt at htgt htakes
        have hread : Mem.Within (buf - 21) (buf + (len + (prfz - 21) : Nat)) m
            (m.read (buf + lp) (z + 1)) :=
          Mem.Within.read _ _ (Or.inr ⟨by omega, by push_cast; omega⟩)
        have hline := hread.trans (Mem.Within.move tgt (buf + lp) z (Or.inr ⟨by omega, by omega⟩)
          (Or.inr ⟨by omega, by push_cast; omega⟩))
        have hstore := hline.trans (Mem.Within.store (tgt + z) [nl]
          (Or.inr ⟨by omega, by simp only [List.length_singleton]; omega⟩))
        generalize ((m.read (buf + lp) (z + 1)).move tgt (buf + lp) z).store (tgt + z) [nl] = m1
          at hstore htakes
        obtain ⟨hline, htakes⟩ := htakes
        obtain ⟨hmassage, hz'⟩ := u.stays m1 tgt (z + 1) hline
        have hmoved := hstore.trans (hmassage.mono htgt.1 htgt.2)
        obtain ⟨q, hq⟩ : ∃ q, u.run m1 tgt (z + 1) = q := ⟨_, rfl⟩
        rw [hq] at hmoved hz' htakes
        have hini : buf - ((INI_GBOF : Nat) : Int) = buf - 21 := rfl
        have hout := hmoved.trans (Mem.Within.read (buf - (INI_GBOF : Nat)) (prfz + q.2)
          (Or.inr ⟨by omega, by rw [hini]; push_cast; omega⟩))
        obtain ⟨hrest, hle⟩ := ih (q.1.read (buf - (INI_GBOF : Nat)) (prfz + q.2)) (lp + z + 1)
          (by omega) htakes
        rw [← hq] at hout hrest hle
        exact ⟨hout.trans hrest, hle⟩
    · exact ⟨Mem.Within.refl m, hlp⟩

theorem logwss_within (u : Unfolder) (t : Clock) (m : Mem Byte) (buf : Int) (len : Nat)
    (htakes : logwss_takes u t m buf len) :
    let r := logwss u.run t m buf len
    Mem.Within (buf - 21) (buf + (len + (t.text.length - 20) : Nat)) m r.1 ∧ r.2.1 ≤ len := by
  intro r
  unfold logwss_takes hrclock_print at htakes
  unfold r logwss hrclock_print
  have hini : buf - ((INI_GBOF : Nat) : Int) = buf - 21 := rfl
  have htab : buf + (t.text.length : Int) - (INI_GBOF : Nat) = buf - 21 + t.text.length := by
    unfold INI_GBOF
    omega
  simp only [hini, htab] at htakes ⊢
  have hstamp : Mem.Within (buf - 21) (buf + (len + (t.text.length - 20) : Nat)) m
      (m.store (buf - 21) (t.text ++ [0])) := by
    refine Mem.Within.store _ _ (Or.inr ⟨le_refl _, ?_⟩)
    rw [List.length_append, List.length_singleton]
    omega
  have hboth := hstamp.trans (Mem.Within.store (buf - 21 + t.text.length) [tab]
    (Or.inr ⟨by omega, by simp only [List.length_singleton]; omega⟩))
  obtain ⟨hlines, hle⟩ := log_lines_within u buf len (t.text.length + 1) len
    ((m.store (buf - 21) (t.text ++ [0])).store (buf - 21 + t.text.length) [tab]) 0 (Nat.zero_le _) htakes
  have hexcess : t.text.length + 1 - 21 = t.text.length - 20 := by omega
  rw [hexcess] at hlines
  exact ⟨hboth.trans hlines, hle⟩

end Coins.Snarf
