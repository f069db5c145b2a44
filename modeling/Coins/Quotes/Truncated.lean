import Coins.Quotes.Ok2b
import Coins.Quotes.Btcc2b

/-!
# Lines that are cut off

A line may end anywhere, with the NUL of `getline` behind it. `ok2b` and `btcc2b` compare with a whole
key wherever they stand, and go on behind a side without looking for the end.
-/

open Coins.Fix Coins.Memory Coins.Numeral Coins.Pieces

namespace Coins.Quotes

/-! ## The loop over the entries -/

section
variable {σ τ : Type} (body : σ → Mem Byte → Int → Turn σ)
  (entry : τ → List Byte → List (List Byte) → List (List Byte) × Nat × τ)
  (settled room : τ → List Byte → List (List Byte) → Prop)

theorem entries_grows (hgrows : ∀ s m on, m.log <:+ (body s m on).mem.log) (eom : Int) (fuel : Nat) (s : σ)
    (m : Mem Byte) (on : Int) : m.log <:+ (entries body eom fuel s m on).mem.log := by
  induction fuel generalizing s m on with
  | zero => exact List.suffix_refl _
  | succ fuel ih =>
    have hread := Mem.log_read m on ((eom - on) % 2 ^ 64).toNat
    unfold entries seek
    split
    · rename_i hseek
      rw [← (Prod.mk.inj hseek).1]
      exact hread
    · rename_i hseek
      rw [← (Prod.mk.inj hseek).1]
      exact (hread.trans (hgrows _ _ _)).trans (ih _ _ _)

theorem entries_past (hgrows : ∀ s m on, m.log <:+ (body s m on).mem.log) (eom : Int) (fuel : Nat) (s : σ)
    (m : Mem Byte) : Mem.Strays (eom + 1) m (entries body eom (fuel + 1) s m (eom + 1)).mem := by
  have hlen : ((eom - (eom + 1)) % 2 ^ 64).toNat = 2 ^ 64 - 1 := by
    rw [show eom - (eom + 1) = -1 by omega]
    rfl
  have hread : Mem.Strays (eom + 1) m (m.read (eom + 1) (2 ^ 64 - 1)) :=
    Mem.Strays.read _ _ (by omega) (by omega)
  unfold entries seek
  rw [hlen]
  split
  · rename_i hseek
    rw [← (Prod.mk.inj hseek).1]
    exact hread
  · rename_i hseek
    rw [← (Prod.mk.inj hseek).1]
    exact hread.behind ((hgrows _ _ _).trans (entries_grows body hgrows _ _ _ _ _))

theorem roomy_mono {settled room : τ → List Byte → List (List Byte) → Prop}
    (h : ∀ t v fs, room t v fs → settled t v fs) (t : τ) (k : Nat) (fs : List (List Byte))
    (hr : Roomy entry room t k fs) : Roomy entry settled t k fs := by
  induction fs generalizing t k with
  | nil => trivial
  | cons f fs ih =>
    cases k with
    | succ k => exact ih t k hr
    | zero =>
      unfold Roomy at hr ⊢
      cases hv : value ety f with
      | none =>
        rw [hv] at hr
        exact ih t 0 hr
      | some v =>
        rw [hv] at hr
        exact ⟨h _ _ _ hr.1, ih _ _ hr.2⟩

theorem entries_strays (lo eom : Int) (R : Mem Byte → σ → τ → Prop)
    (hsettled : ∀ t v fs, room t v fs → settled t v fs)
    (hbody : ∀ m on s t v fs, At m on eom v fs → lo ≤ on → settled t v fs → R m s t →
      Round (room t v fs) lo eom m on (body s m on) (entry t v fs).1 (fs.drop (entry t v fs).2.1) ∧
        R (body s m on).mem (body s m on).state (entry t v fs).2.2)
    (hout : ∀ m on s t v fs, At m on eom v fs → ¬ room t v fs → R m s t →
      Mem.Strays (eom + 1) m (body s m on).mem ∨ (body s m on).on = eom + 1)
    (hgrows : ∀ s m on, m.log <:+ (body s m on).mem.log)
    (hreads : ∀ m m' s t, Reads m m' → R m s t → R m' s t)
    (fuel : Nat) (s : σ) (t : τ) (m : Mem Byte) (on : Int) (a : List Byte) (fs : List (List Byte))
    (h : At m on eom a fs) (hlo : lo ≤ on) (hno : ¬ Roomy entry room t 0 fs) (hR : R m s t)
    (hfuel : fs.length < fuel) : Mem.Strays (eom + 1) m (entries body eom fuel s m on).mem := by
  induction fuel generalizing s t m on a fs with
  | zero => omega
  | succ fuel ih =>
    rw [roomy_after] at hno
    push Not at hno
    obtain ⟨v, gs, hz, hno⟩ := hno
    obtain ⟨on', hseek, hat⟩ := seek_some h ety (by decide) v gs hz _ h.left
    have hle := seek_le hseek
    have hlen := (after_suffix ety v fs gs hz).length_le
    rw [List.length_cons] at hlen
    have hread := Mem.log_read m on ((eom - on) % 2 ^ 64).toNat
    have hrd : Reads m (m.read on ((eom - on) % 2 ^ 64).toNat) := Reads.refl m
    unfold entries
    rw [hseek]
    simp only
    by_cases hroom : room t v gs
    · obtain ⟨hb, hR'⟩ := hbody _ on' s t v gs (hat.reads hrd) (by omega) (hsettled _ _ _ hroom)
        (hreads _ _ s t hrd hR)
      obtain ⟨a', hat'⟩ := hb.at_
      have hon := hb.onward
      have hdrop := (List.drop_suffix (entry t v gs).2.1 gs).length_le
      exact (ih _ _ _ _ a' _ hat' (by omega) (hno hroom) hR' (by omega)).before (hread.trans (hgrows _ _ _))
    · rcases hout _ on' s t v gs (hat.reads hrd) hroom (hreads _ _ s t hrd hR) with hstray | hpast
      · exact (hstray.before hread).behind (entries_grows body hgrows _ _ _ _ _)
      · obtain ⟨fuel, rfl⟩ : ∃ k, fuel = k + 1 := ⟨fuel - 1, by omega⟩
        rw [hpast]
        exact (entries_past body hgrows eom fuel _ _).before (hread.trans (hgrows _ _ _))

end

theorem stamped_reads (m : Mem Byte) (msg : Parsed) (prfx : Int) (prfz : Nat) :
    (m.read msg.msg msg.len).log <:+ (stamped m msg prfx prfz).1.log := by
  unfold stamped seek strlen
  split
  · rename_i hseek
    rw [← (Prod.mk.inj hseek).1]
  · rename_i hseek
    rw [← (Prod.mk.inj hseek).1]
    split
    · exact List.suffix_append [_] _
    · exact List.suffix_append [_, _] _

theorem seek_grows {m m' : Mem Byte} {hay : Int} {hayz : Nat} {ndl : List Byte} {p : Option Int}
    (h : seek m hay hayz ndl = (m', p)) : m.log <:+ m'.log := by
  rw [← (Prod.mk.inj h).1]
  exact Mem.log_read _ _ _

/-! ## `ok2b` -/

namespace Ok2b

theorem quote_grows (buf : List Byte) (s : Unit) (m : Mem Byte) (on : Int) :
    m.log <:+ (quote buf s m on).mem.log := by
  unfold quote memcmp strlen
  simp only
  split
  · exact List.suffix_append [_] _
  · split
    · exact List.suffix_append [_, _] _
    · split
      · split
        · exact List.suffix_append [_, _, _, _] _
        · exact List.suffix_append [_, _, _, _, _] _
      · split
        · exact List.suffix_append [_, _, _, _, _, _] _
        · exact List.suffix_append [_, _, _, _, _, _, _] _

theorem quote_reads (buf : List Byte) (m : Mem Byte) (on : Int) (hsd : ¬ 2 ≤ m.cell on ^^^ chr '0') :
    let z := (0 :: prc).length
    let price := str m (on + 1 + z)
    let on1 := on + 1 + z + price.length
    let m1 := (m.read on 1).read (on + 1) z
    let m2 := (m1.read (on + 1 + z) (price.length + 1)).read on1 (0 :: qty).length
    let gap := str m (on1 + 1)
    let m3 := (m2.read (on1 + 1) (gap.length + 1)).read (on1 + 1 + gap.length) (0 :: qty).length
    let r := (quote buf () m on).mem
    m1.log <:+ r.log ∧ (m.view (on + 1) z = 0 :: prc →
      m2.log <:+ r.log ∧ (m.view on1 (0 :: qty).length ≠ 0 :: qty → m3.log <:+ r.log)) := by
  intro z price on1 m1 m2 gap m3 r
  unfold r quote
  simp only [if_neg hsd, memcmp, strlen, Mem.view_read, str_read]
  by_cases hprc : m.view (on + 1) (0 :: prc).length = 0 :: prc
  · simp only [hprc, decide_true, Bool.not_true, Bool.false_eq_true, if_false]
    refine ⟨?_, fun _ => ?_⟩
    · split
      · split
        · exact List.suffix_append [_, _] _
        · exact List.suffix_append [_, _, _] _
      · split
        · exact List.suffix_append [_, _, _, _] _
        · exact List.suffix_append [_, _, _, _, _] _
    · by_cases hqty : m.view (on + 1 + (0 :: prc).length + (str m (on + 1 + (0 :: prc).length)).length)
          (0 :: qty).length = 0 :: qty
      · simp only [hqty, decide_true, Bool.not_true, Bool.false_eq_true, if_false, if_true]
        exact ⟨List.suffix_append [_] _, fun hne => absurd hqty hne⟩
      · simp only [hqty, decide_false, Bool.false_eq_true, if_false]
        split
        · exact ⟨List.suffix_append [_, _] _, fun _ => List.suffix_refl _⟩
        · exact ⟨List.suffix_append [_, _, _] _, fun _ => List.suffix_append [_] _⟩
  · simp only [hprc, decide_false, Bool.not_false, if_true]
    exact ⟨List.suffix_refl _, fun h => absurd h hprc⟩

theorem quote_strays (buf : List Byte) (eom : Int) (m : Mem Byte) (on : Int) (side : List Byte)
    (fs : List (List Byte)) (h : At m on eom side fs) (hno : ¬ room () side fs) :
    Mem.Strays (eom + 1) m (quote buf () m on).mem ∨ (quote buf () m on).on = eom + 1 := by
  have hzero : 0 ∉ prc ∧ 0 ∉ qty := by decide
  have hlen : (0 :: prc).length = 5 ∧ (0 :: qty).length = 5 := ⟨rfl, rfl⟩
  have hup := h.upTo
  have hcell := h.cell 0 (Nat.zero_le _)
  rw [Int.natCast_zero, add_zero] at hcell
  cases side with
  | nil =>
    obtain rfl : fs = [] := not_not.mp hno
    have hsd : 2 ≤ m.cell on ^^^ chr '0' := by
      rw [hcell]
      decide
    simp only [List.nil_append, tail_nil, List.length_nil, Nat.cast_zero, add_zero] at hup
    right
    unfold quote
    simp only [if_pos hsd]
    rw [hup]
  | cons c cs =>
    left
    have hskip : At m (on + 1) eom cs fs := At.skip (a := [c]) h
    rw [List.cons_append, List.getD_cons_zero] at hcell
    rw [List.cons_append, List.length_cons] at hup
    obtain ⟨hsd, hno⟩ := not_or.mp hno
    obtain ⟨hr1, hmore⟩ := quote_reads buf m on (by rwa [hcell])
    by_cases hkey : 4 ≤ (cs ++ tail 0 fs).length
    · obtain ⟨price, gs, rfl, rfl, hless⟩ : ∃ price gs, cs = [] ∧ fs = (prc ++ price) :: gs ∧
          ¬ (4 ≤ (tail 0 gs).length ∧ ∀ g hs, gs = g :: hs → value qty g = none → 4 ≤ (tail 0 hs).length) := by
        by_contra hall
        exact hno ⟨hkey, fun price gs hcs hfs => by_contra fun hn => hall ⟨price, gs, hcs, hfs, hn⟩⟩
      obtain ⟨hr2, hagain⟩ := hmore ((hskip.key prc hzero.1).mpr (List.prefix_append prc price))
      have hprice := hskip.enter
      have hdone := hprice.done
      have hup2 := hdone.upTo
      rw [hprice.str] at hr2 hagain
      rw [List.nil_append] at hup2
      by_cases hkey2 : 4 ≤ (tail 0 gs).length
      · -- the second look
        obtain ⟨g, hs, rfl, hq, hkey3⟩ : ∃ g hs, gs = g :: hs ∧ value qty g = none ∧ ¬ 4 ≤ (tail 0 hs).length := by
          by_contra hall
          exact hless ⟨hkey2, fun g hs hgs hq => by_contra fun hn => hall ⟨g, hs, hgs, hq, hn⟩⟩
        have hr3 := hagain fun heq => (value_eq_none qty g).mp hq ((hdone.key qty hzero.2).mp heq)
        have hup3 := hdone.next.done.upTo
        rw [hdone.next.str] at hr3
        rw [List.nil_append] at hup3
        exact ⟨_, _, _, List.suffix_append [_, _, _, _, _] _, hr3, by omega, by omega⟩
      · exact ⟨_, _, _, List.suffix_append [_, _, _] _, hr2, by omega, by omega⟩
    · exact ⟨_, _, _, Mem.log_read _ _ _, hr1, by omega, by omega⟩

theorem contract_grows (m : Mem Byte) (msg : Parsed) : m.log <:+ (contract m msg).1.log := by
  unfold contract
  split
  · rename_i hseek
    exact seek_grows hseek
  · rename_i hseek
    exact (seek_grows hseek).trans (List.suffix_append [_] _)

theorem route_quote_grows (m : Mem Byte) (msg : Parsed) (prfx : Int) (prfz : Nat) (rstp : Bool) :
    (stamped m msg prfx prfz).1.log <:+ (route_quote m msg prfx prfz rstp).mem.log := by
  unfold route_quote
  generalize stamped m msg prfx prfz = p
  obtain ⟨m1, _ | t⟩ := p
  · exact List.suffix_refl _
  · simp only
    split
    · rename_i hseek
      exact seek_grows hseek
    · rename_i m2 on hseek
      have h2 := (seek_grows hseek).trans (Mem.log_read _ on ((str m2 on).length + 1))
      have h3 := h2.trans (contract_grows _ msg)
      split
      · rename_i hseek'
        exact h3.trans (seek_grows hseek')
      · rename_i hseek'
        exact (h3.trans (seek_grows hseek')).trans (entries_grows _ (quote_grows _) _ _ _ _ _)

theorem route_quote_inside {m : Mem Byte} {msg : Parsed} {a : List Byte} {fs : List (List Byte)}
    (h : At m msg.msg (msg.msg + msg.len) a fs) (lo prfx : Int) (prfz : Nat) (rstp : Bool)
    (hb : Before lo msg prfx prfz) :
    let r := route_quote m msg prfx prfz rstp
    r.ret ≠ none ∧ Mem.Within lo (msg.msg + msg.len + 1) m r.mem ↔ Entries room (m.view prfx prfz) fs := by
  intro r
  constructor
  · rintro ⟨-, hin⟩ t i hs c gs hstamp hins hnup
    by_contra hno
    obtain ⟨m', on, hat, hon, hfuel, hin', hrun⟩ := route_quote_run h prfx prfz rstp hstamp hins hnup
    obtain ⟨new, hlog, -⟩ := (hin' lo hb).log
    have hstray := entries_strays (quote (t ++ i ++ currency fs ++ [tab])) (entry (t ++ i ++ currency fs ++ [tab]))
      settled room msg.msg (msg.msg + msg.len) (fun _ _ _ => True) (fun _ _ _ hr => settled_of_room hr)
      (fun m on _ _ v gs hat hlo hs _ => ⟨quote_entry _ _ _ m on v gs hat hlo hs, trivial⟩)
      (fun m on _ _ v gs hat hno _ => quote_strays _ _ m on v gs hat hno) (quote_grows _)
      (fun _ _ _ _ _ _ => trivial) (msg.len + 1) () () m' on c gs hat hon hno trivial hfuel
    unfold r at hin
    rw [hrun] at hin
    exact (hstray.before (hlog ▸ List.suffix_append new _)).not_within hin
  · intro hroom
    have hset : Entries settled (m.view prfx prfz) fs := fun t i hs c gs hstamp hins hnup =>
      roomy_mono _ (fun _ _ _ => settled_of_room) _ _ _ (hroom t i hs c gs hstamp hins hnup)
    obtain ⟨-, hret, hin⟩ := route_quote_spec h prfx prfz rstp hset
    exact ⟨hret, hin hroom lo hb⟩

end Ok2b

/-! ## `btcc2b` -/

namespace Btcc2b

theorem look_grows (m : Mem Byte) (pos : Int) : m.log <:+ (look m pos).log := by
  unfold look
  split
  · exact List.suffix_append [_] _
  · exact List.suffix_append [_, _] _

theorem look_reads (m : Mem Byte) (pos : Int) : Reads m (look m pos) := by
  unfold look
  split
  · exact ⟨rfl, rfl⟩
  · exact ⟨rfl, rfl⟩

theorem priced_grows (typ : Byte) (buf : List Byte) (sd : Byte) (i : Named) (m : Mem Byte) (on : Int) :
    m.log <:+ (priced typ buf sd i m on).mem.log := by
  have hlook := (Mem.log_read m i.pos i.len).trans (look_grows _ i.pos)
  unfold priced memcmp strlen
  simp only
  split
  · exact hlook.trans (List.suffix_append [_] _)
  · split
    · exact hlook.trans (List.suffix_append [_, _, _, _] _)
    · exact hlook.trans (List.suffix_append [_, _, _] _)

theorem quote_grows (typ : Byte) (buf : List Byte) (i : Named) (m : Mem Byte) (on : Int) :
    m.log <:+ (quote typ buf i m on).mem.log := by
  unfold quote memcmp strlen
  simp only
  split
  · exact List.suffix_append [_] _
  · split
    · refine List.IsSuffix.trans ?_ (priced_grows _ _ _ _ _ _)
      exact List.suffix_append [_, _, _] _
    · refine List.IsSuffix.trans ?_ (priced_grows _ _ _ _ _ _)
      exact List.suffix_append [_, _] _

theorem priced_reads (typ : Byte) (buf : List Byte) (sd : Byte) (i : Named) (m : Mem Byte) (on : Int) :
    let z := (0 :: prc).length
    let price := str m (on + z)
    let w := look (m.read i.pos i.len) i.pos
    let r := (priced typ buf sd i m on).mem
    (w.read on z).log <:+ r.log ∧ (m.view on z = 0 :: prc →
      (((w.read on z).read (on + z) (price.length + 1)).read (on + z + price.length) (0 :: qty).length).log <:+
        r.log) := by
  have hlook : Reads m (look (m.read i.pos i.len) i.pos) := (Reads.refl m).trans (look_reads _ _)
  intro z price w r
  unfold r price priced memcmp strlen
  simp only [hlook.view, hlook.str, str_read]
  by_cases hprc : m.view on (0 :: prc).length = 0 :: prc
  · simp only [hprc, decide_true, Bool.not_true, Bool.false_eq_true, if_false]
    split
    · exact ⟨List.suffix_append [_, _, _] _, fun _ => List.suffix_append [_] _⟩
    · exact ⟨List.suffix_append [_, _] _, fun _ => List.suffix_refl _⟩
  · simp only [hprc, decide_false, Bool.not_false, if_true]
    exact ⟨List.suffix_refl _, fun h => absurd h hprc⟩

theorem priced_strays (typ : Byte) (buf : List Byte) (sd : Byte) (n : Named) (i : Instrument) (lo eom : Int)
    (m : Mem Byte) (on : Int) (a : List Byte) (fs : List (List Byte)) (h : At m on eom a fs)
    (hn : Points lo eom m n i) (hno : ¬ roomPrice i a fs) :
    Mem.Strays (eom + 1) m (priced typ buf sd n m on).mem := by
  have hlen : (0 :: prc).length = 5 ∧ (0 :: qty).length = 5 := ⟨rfl, rfl⟩
  have hup := h.upTo
  have hpos := hn.pos.upTo
  have hlook := (Mem.log_read m n.pos n.len).trans (look_grows _ n.pos)
  obtain ⟨hr1, hmore⟩ := priced_reads typ buf sd n m on
  by_cases hshown : Shown i
  · by_cases hkey : 4 ≤ (a ++ tail 0 fs).length
    · obtain ⟨price, gs, rfl, rfl, hkey2⟩ : ∃ price gs, a = [] ∧ fs = (prc ++ price) :: gs ∧
          ¬ 4 ≤ (tail 0 gs).length := by
        by_contra hall
        exact hno ⟨hshown, hkey, fun price gs ha hfs => by_contra fun hn => hall ⟨price, gs, ha, hfs, hn⟩⟩
      have hr2 := hmore ((h.key prc (by decide)).mpr (List.prefix_append prc price))
      have hup2 := h.enter.done.upTo
      rw [h.enter.str] at hr2
      rw [List.nil_append] at hup2
      exact ⟨_, _, _, hlook.trans (List.suffix_append [_, _] _), hr2, by omega, by omega⟩
    · exact ⟨_, _, _, hlook, hr1, by omega, by omega⟩
  · -- the fourth character of the instrument
    obtain ⟨hx, hthree⟩ := not_or.mp hshown
    have h0 := hn.pos.cell 0 (Nat.zero_le _)
    rw [Int.natCast_zero, add_zero] at h0
    rw [look, Mem.cell_read, if_neg (by rwa [h0])] at hr1
    exact ⟨_, _, _, List.suffix_append [_, _] _, (Mem.log_read _ _ _).trans hr1, by omega, by omega⟩

theorem quote_strays (typ : Byte) (buf : List Byte) (n : Named) (i : Instrument) (lo eom : Int) (m : Mem Byte)
    (on : Int) (side : List Byte) (fs : List (List Byte)) (h : At m on eom side fs)
    (hno : ¬ room i side fs) (hn : Points lo eom m n i) :
    Mem.Strays (eom + 1) m (quote typ buf n m on).mem ∨ (quote typ buf n m on).on = eom + 1 := by
  have hzero : 0 ∉ ins := by decide
  have hlen : (0 :: ins).length = 4 := rfl
  have hup := h.upTo
  have hcell := h.cell 0 (Nat.zero_le _)
  rw [Int.natCast_zero, add_zero] at hcell
  cases side with
  | nil =>
    obtain rfl : fs = [] := not_not.mp hno
    have hsd : 3 ≤ m.cell on ^^^ chr '0' := by
      rw [hcell]
      decide
    simp only [List.nil_append, tail_nil, List.length_nil, Nat.cast_zero, add_zero] at hup
    right
    unfold quote
    simp only [if_pos hsd]
    rw [hup]
  | cons c cs =>
    left
    have hskip : At m (on + 1) eom cs fs := At.skip (a := [c]) h
    rw [List.cons_append, List.getD_cons_zero] at hcell
    rw [List.cons_append, List.length_cons] at hup
    obtain ⟨hsd, hno⟩ := not_or.mp hno
    have hread : Reads m ((m.read on 1).read (on + 1) (0 :: ins).length) := ⟨rfl, rfl⟩
    unfold quote memcmp strlen
    simp only [hcell, if_neg hsd, Mem.view_read, str_read]
    by_cases hkey : 3 ≤ (cs ++ tail 0 fs).length
    · by_cases hown : ∀ v gs, cs = [] → fs = (ins ++ v) :: gs → roomPrice (v, gs) [] gs
      · -- with the old instrument
        obtain ⟨hother, hless⟩ : (cs ≠ [] ∨ fs.head?.bind (value ins) = none) ∧ ¬ roomPrice i cs fs := by
          by_contra hall
          exact hno ⟨hkey, hown, fun hor => by_contra fun hn => hall ⟨hor, hn⟩⟩
        have heq : decide (m.view (on + 1) (0 :: ins).length = 0 :: ins) = false := by
          cases cs with
          | cons c' cs => exact hskip.inside (List.cons_ne_nil c' cs) ins
          | nil =>
            cases fs with
            | nil => exact absurd hkey (by decide)
            | cons f1 fs1 =>
              rw [hskip.beside ins hzero, show value ins f1 = none from hother.resolve_left (not_not.mpr rfl)]
              rfl
        simp only [heq, Bool.false_eq_true, if_false]
        exact (priced_strays typ buf _ n i lo eom _ _ cs fs (hskip.reads hread) (hn.reads hread) hless).before
          (List.suffix_append [_, _] _)
      · -- with its own
        push Not at hown
        obtain ⟨v, gs, rfl, rfl, hless⟩ := hown
        have heq : decide (m.view (on + 1) (0 :: ins).length = 0 :: ins) = true := by
          rw [hskip.beside ins hzero, (value_eq_some ins _ v).mpr rfl]
          rfl
        have hpts : Points on eom m ⟨on + 1 + (0 :: ins).length, v.length⟩ (v, gs) :=
          ⟨hskip.enter, rfl, by simp only; omega⟩
        have hread' : Reads m (((m.read on 1).read (on + 1) (0 :: ins).length).read
            (on + 1 + (0 :: ins).length) (v.length + 1)) := ⟨rfl, rfl⟩
        simp only [heq, if_true, hskip.enter.str]
        exact (priced_strays typ buf _ _ (v, gs) on eom _ _ [] gs (hskip.enter.done.reads hread')
          (hpts.reads hread') hless).before (List.suffix_append [_, _, _] _)
    · have hstray : Mem.Strays (eom + 1) m ((m.read on 1).read (on + 1) (0 :: ins).length) :=
        ⟨_, _, _, Mem.log_read _ _ _, List.suffix_refl _, by omega, by omega⟩
      split
      · exact hstray.behind ((Mem.log_read _ _ _).trans (priced_grows _ _ _ _ _ _))
      · exact hstray.behind (priced_grows _ _ _ _ _ _)

theorem route_quote_grows (m : Mem Byte) (msg : Parsed) (prfx : Int) (prfz : Nat) :
    (stamped m msg prfx prfz).1.log <:+ (route_quote m msg prfx prfz).mem.log := by
  unfold route_quote
  generalize stamped m msg prfx prfz = p
  obtain ⟨m1, _ | t⟩ := p
  · exact List.suffix_refl _
  · simp only
    split
    · rename_i hseek
      exact seek_grows hseek
    · rename_i m2 pos hseek
      have h2 := (seek_grows hseek).trans (Mem.log_read _ pos ((str m2 pos).length + 1))
      split
      · rename_i hseek'
        exact h2.trans (seek_grows hseek')
      · rename_i hseek'
        exact (h2.trans (seek_grows hseek')).trans (entries_grows _ (quote_grows _ _) _ _ _ _ _)

theorem route_quote_inside {m : Mem Byte} {msg : Parsed} {a : List Byte} {fs : List (List Byte)}
    (h : At m msg.msg (msg.msg + msg.len) a fs) (lo prfx : Int) (prfz : Nat) (hb : Before lo msg prfx prfz) :
    let r := route_quote m msg prfx prfz
    r.ret ≠ none ∧ Mem.Within lo (msg.msg + msg.len + 1) m r.mem ↔
      Entries room (m.view prfx prfz) msg.typ fs := by
  intro r
  constructor
  · rintro ⟨-, hin⟩ t i c gs hstamp hins hnup
    by_contra hno
    obtain ⟨m', n, on, hat, hon, hfuel, hn, hin', hrun⟩ := route_quote_run h prfx prfz hstamp hins hnup
    obtain ⟨new, hlog, -⟩ := (hin' lo hb).log
    have hstray := entries_strays (quote msg.typ t) (entry msg.typ t) settled room msg.msg (msg.msg + msg.len)
      (Points msg.msg (msg.msg + msg.len)) (fun _ _ _ hr => settled_of_room hr)
      (fun m on n i v gs hat hlo hs hn => quote_entry msg.typ t n i _ _ m on v gs hat hlo hs hn)
      (fun m on n i v gs hat hno hn => quote_strays msg.typ t n i _ _ m on v gs hat hno hn) (quote_grows _ _)
      (fun _ _ _ _ hr hp => hp.reads hr) (msg.len + 1) n i m' on c gs hat hon hno hn hfuel
    unfold r at hin
    rw [hrun] at hin
    exact (hstray.before (hlog ▸ List.suffix_append new _)).not_within hin
  · intro hroom
    have hset : Entries settled (m.view prfx prfz) msg.typ fs := fun t i c gs hstamp hins hnup =>
      roomy_mono _ (fun _ _ _ => settled_of_room) _ _ _ (hroom t i c gs hstamp hins hnup)
    obtain ⟨-, hret, hin⟩ := route_quote_spec h prfx prfz hset
    exact ⟨hret, hin hroom lo hb⟩

end Btcc2b

/-! ## The line -/

/-- It returns, and nothing but the line from `lo` on was touched, with the NUL at `eom`. -/
def Keeps (lo eom : Int) (m : Mem Byte) (r : Routed) : Prop := r.ret ≠ none ∧ Mem.Within lo (eom + 1) m r.mem

theorem past_le (soh : Byte) (m : Mem Byte) (buf : Int) (n j : Nat) : (past soh m buf n j).2.1 ≤ j + n := by
  induction n generalizing m j with
  | zero => exact le_refl _
  | succ n ih =>
    unfold past
    simp only
    split
    · simp only
      omega
    · have := ih (m.read (buf + j) 1) (j + 1)
      omega

theorem parse_view (soh : Byte) (m : Mem Byte) (buf : Int) (bsz : Nat) (h : (parse soh m buf bsz).2.typ ≠ 0) :
    ∃ k : Nat, k ≤ 23 ∧ (parse soh m buf bsz).2.msg = buf + k ∧
      (parse soh m buf bsz).2.len = (((bsz : Int) - k) % 2 ^ 56).toNat := by
  have h12 : (fhdr9_of soh).length = 12 := rfl
  have hle := past_le soh (m.read buf (fhdr9_of soh).length) buf 5 ((fhdr9_of soh).length + 1)
  unfold parse at h ⊢
  split at h
  · exact absurd rfl h
  · rename_i hbsz
    rw [if_neg hbsz]
    simp only at h ⊢
    generalize past soh (m.read buf (fhdr9_of soh).length) buf 5 ((fhdr9_of soh).length + 1) = q at hle h ⊢
    obtain ⟨m1, j, found⟩ := q
    simp only at hle h ⊢
    split at h
    · exact absurd rfl h
    · rename_i hhead
      rw [if_neg hhead]
      split at h
      · exact absurd rfl h
      · rename_i hfound
        rw [if_neg hfound]
        split at h
        · exact absurd rfl h
        · rename_i htag
          rw [if_neg htag]
          refine ⟨_, ?_, rfl, rfl⟩
          split <;> omega

theorem exists_fields {m : Mem Byte} {on eom : Int} (hle : on ≤ eom) (hstop : m.cell eom = 0) (hroom : eom < m.size)
    (hshort : eom - on < 2 ^ 64) : ∃ a fs, At m on eom a fs := by
  obtain ⟨a, fs, htext, ha, hfs⟩ := exists_pieces 0 (m.view on (eom - on).toNat)
  have hlen : (a ++ tail 0 fs).length = (eom - on).toNat := by rw [← htext, Mem.view_length]
  exact ⟨a, fs, by rw [hlen, htext], by omega, hstop, hroom, by omega, ha, hfs⟩

/-- **A line that is cut off is read within its bounds** exactly if its message begins in it, and there is
room enough in the entries the loop comes to. -/
theorem route_quote_truncated (m : Mem Byte) (ln : Int) (prfz lz : Nat) (hpfx : prfz ≤ lz)
    (hstop : m.cell (ln + lz) = 0) (hroom : ln + lz < m.size) (hlen : lz < 2 ^ 56) :
    let p := parse bar m (ln + prfz) (lz - prfz)
    let Fields (P : List (List Byte) → Prop) : Prop := p.2.msg ≤ ln + lz ∧ ∀ a fs, At p.1 p.2.msg (ln + lz) a fs → P fs
    p.2.typ = chr 'W' ∨ p.2.typ = chr 'X' →
      (Keeps ln (ln + lz) p.1 (Ok2b.route_quote p.1 p.2 ln prfz (p.2.typ = chr 'W')) ↔
        Fields (Ok2b.Entries Ok2b.room (p.1.view ln prfz))) ∧
      (Keeps ln (ln + lz) p.1 (Btcc2b.route_quote p.1 p.2 ln prfz) ↔
        Fields (Btcc2b.Entries Btcc2b.room (p.1.view ln prfz) p.2.typ)) := by
  intro p Fields htyp
  obtain ⟨k, hk, hmsg, hlen'⟩ := parse_view bar m (ln + prfz) (lz - prfz) (by
    intro h0
    rcases htyp with h | h
    · exact absurd (h0.symm.trans h) (by decide)
    · exact absurd (h0.symm.trans h) (by decide))
  obtain ⟨hsize, hcell⟩ := parse_frame bar m (ln + prfz) (lz - prfz)
  have hstop' : p.1.cell (ln + lz) = 0 := (hcell _ (Or.inr (by omega))).trans hstop
  change p.2.msg = _ at hmsg
  change p.2.len = _ at hlen'
  change p.1.size = _ at hsize
  by_cases hin : p.2.msg ≤ ln + lz
  · -- the message ends with the line
    have hend : p.2.msg + p.2.len = ln + lz := by omega
    have hb : Before ln p.2 ln prfz := ⟨by omega, le_refl _, by omega⟩
    obtain ⟨a, fs, hat⟩ := exists_fields hin hstop' (by omega) (by omega)
    have hok := fun a fs (hat : At p.1 p.2.msg (p.2.msg + p.2.len) a fs) =>
      Ok2b.route_quote_inside hat ln ln prfz (p.2.typ = chr 'W') hb
    have hbtcc := fun a fs (hat : At p.1 p.2.msg (p.2.msg + p.2.len) a fs) =>
      Btcc2b.route_quote_inside hat ln ln prfz hb
    rw [hend] at hok hbtcc
    exact ⟨⟨fun hkeep => ⟨hin, fun a' fs' hat' => (hok a' fs' hat').mp hkeep⟩,
        fun hroomy => (hok a fs hat).mpr (hroomy.2 a fs hat)⟩,
      ⟨fun hkeep => ⟨hin, fun a' fs' hat' => (hbtcc a' fs' hat').mp hkeep⟩,
        fun hroomy => (hbtcc a fs hat).mpr (hroomy.2 a fs hat)⟩⟩
  · -- the bytes that are left are counted from behind the end
    have hout : ∀ r : Mem Byte, (stamped p.1 p.2 ln prfz).1.log <:+ r.log → ¬ Mem.Within ln (ln + lz + 1) p.1 r := by
      intro r hlog
      have hstray : Mem.Strays (ln + lz + 1) p.1 (p.1.read p.2.msg p.2.len) :=
        Mem.Strays.read _ _ (by omega) (by omega)
      exact (hstray.behind ((stamped_reads _ _ _ _).trans hlog)).not_within
    exact ⟨⟨fun hkeep => absurd hkeep.2 (hout _ (Ok2b.route_quote_grows _ _ _ _ _)), fun h => absurd h.1 hin⟩,
      ⟨fun hkeep => absurd hkeep.2 (hout _ (Btcc2b.route_quote_grows _ _ _ _)), fun h => absurd h.1 hin⟩⟩

/-- A snapshot that is cut off behind the side of its first entry. -/
def cut_line : List Byte :=
  ascii "t" ++ tab :: ascii "8=FIX.4.4|9=96|35=W|52=20140101-00:00:00|55=BTC/USD|268=1|269=0"

def cut_mem : Mem Byte := ⟨fun i => cut_line[i.toNat]?.getD 0, 4096, []⟩

theorem route_quote_truncated_snapshot :
    let p := parse bar cut_mem (0 + (2 : Nat)) (65 - 2)
    let Fields (P : List (List Byte) → Prop) : Prop :=
      p.2.msg ≤ 0 + (65 : Nat) ∧ ∀ a fs, At p.1 p.2.msg (0 + (65 : Nat)) a fs → P fs
    (Keeps 0 (0 + (65 : Nat)) p.1 (Ok2b.route_quote p.1 p.2 0 2 (p.2.typ = chr 'W')) ↔
        Fields (Ok2b.Entries Ok2b.room (p.1.view 0 2))) ∧
      (Keeps 0 (0 + (65 : Nat)) p.1 (Btcc2b.route_quote p.1 p.2 0 2) ↔
        Fields (Btcc2b.Entries Btcc2b.room (p.1.view 0 2) p.2.typ)) :=
  route_quote_truncated cut_mem 0 2 65 (by decide) (by decide +kernel) (by decide) (by decide)
    (Or.inl (by decide +kernel))

/-- Behind that side both look for a key in bytes that are not of the line. -/
theorem cut_line_strays :
    let p := parse bar cut_mem 2 63
    cut_line.length = 65 ∧ p.2.typ = chr 'W' ∧ ¬ Keeps 0 65 p.1 (Ok2b.route_quote p.1 p.2 0 2 true) ∧
      ¬ Keeps 0 65 p.1 (Btcc2b.route_quote p.1 p.2 0 2) := by
  have hfront : ∀ x ∈ (parse bar cut_mem 2 63).1.log, ¬ 66 < x.lo + x.len := by decide +kernel
  have hstray : ∀ r : Routed, (∃ x ∈ r.mem.log, 66 < x.lo + x.len ∧ x.len ≠ 0) →
      ¬ Keeps 0 65 (parse bar cut_mem 2 63).1 r := by
    rintro r ⟨x, hx, hout, hlen⟩ ⟨-, hin⟩
    obtain ⟨new, hlog, hnew⟩ := hin.log
    rw [hlog] at hx
    rcases List.mem_append.mp hx with hx | hx
    · have := (hnew x hx).2
      omega
    · exact hfront x hx hout
  exact ⟨by decide +kernel, by decide +kernel, hstray _ (by decide +kernel), hstray _ (by decide +kernel)⟩

end Coins.Quotes
