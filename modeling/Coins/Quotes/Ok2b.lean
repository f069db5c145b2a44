import Coins.Quotes.FixLine

/-!
# `ok2b`

The converter for OKCoin. The contract is in field 15.
-/

open Coins.Fix Coins.Memory Coins.Numeral Coins.Pieces

namespace Coins.Quotes.Ok2b

def clr : List Byte := ascii "clr0" ++ [tab, tab, nl]

def f (sd : Byte) : List Byte := if sd = 0 then ascii "BID2" else ascii "ASK2"

/-- Once round the loop; `buf` is what is in front of the side. -/
def quote (buf : List Byte) (_ : Unit) (m : Mem Byte) (on : Int) : Turn Unit :=
  let sd := m.cell on ^^^ chr '0'
  let m := m.read on 1
  let on := on + 1
  if 2 ≤ sd then ⟨m, on, (), []⟩
  else
    -- on should now be 270=...
    let (m, eq) := memcmp m on (0 :: prc)
    if !eq then ⟨m, on, (), []⟩
    else
      let on := on + (0 :: prc).length
      let price := str m on
      let m := strlen m on
      let on := on + price.length
      let (m, eq) := memcmp m on (0 :: qty)
      -- try and find 271= within 2 fields
      let (m, on, eq) :=
        if eq then (m, on, true)
        else
          let m := strlen m (on + 1)
          let on := on + 1 + (str m (on + 1)).length
          let (m, eq) := memcmp m on (0 :: qty)
          (m, on, eq)
      if !eq then ⟨m, on, (), []⟩
      else
        let on := on + (0 :: qty).length
        ⟨strlen m on, on, (), [buf ++ f sd ++ [tab] ++ price ++ [tab] ++ str m on ++ [nl]]⟩

/-- They encode the contract in field 15. -/
def contract (m : Mem Byte) (msg : Parsed) : Mem Byte × List Byte :=
  match seek m msg.msg msg.len (0 :: ccy) with
  | (m, none) => (m, [])
  | (m, some on) => (strlen m on, chr '/' :: str m on)

def route_quote (m : Mem Byte) (msg : Parsed) (prfx : Int) (prfz : Nat) (rstp : Bool) : Routed :=
  match stamped m msg prfx prfz with
  | (m, none) => ⟨m, [], [], some (-1)⟩
  | (m, some buf) =>
    match seek m msg.msg msg.len (0 :: ins) with
    | (m, none) => ⟨m, [], [], some (-1)⟩
    | (m, some on) =>
      let buf := buf ++ str m on
      let (m, cur) := contract (strlen m on) msg
      let buf := buf ++ cur ++ [tab]
      -- look for updates
      match seek m msg.msg msg.len (0 :: nup) with
      | (m, none) => ⟨m, [], [], some (-1)⟩
      | (m, some on) =>
        let reset := if rstp then [buf ++ clr] else []
        let r := entries (quote buf) (msg.msg + msg.len) (msg.len + 1) () m on
        ⟨r.mem, reset ++ r.out, r.err, r.ret⟩

def procln (m : Mem Byte) (ln : Int) (lz : Nat) : Routed := procln_with route_quote m ln lz

/-! ## What is printed for a message -/

/-- The quantity in one of the next two fields. -/
def quantity : List (List Byte) → Option (List Byte) × Nat
  | [] => (none, 0)
  | q :: fs =>
    match value qty q with
    | some v => (some v, 1)
    | none => (fs.head?.bind (value qty), if (fs.head?.bind (value qty)).isSome then 2 else 1)

/-- An entry has one character for its side, then its price. -/
def entry (buf : List Byte) (_ : Unit) (side : List Byte) (fs : List (List Byte)) :
    List (List Byte) × Nat × Unit :=
  match side, fs.head?.bind (value prc) with
  -- an empty field hides the next one
  | [], _ => ([], 1, ())
  | [c], some price =>
    if 2 ≤ c ^^^ chr '0' then ([], 0, ())
    else
      match quantity fs.tail with
      | (some q, k) => ([buf ++ f (c ^^^ chr '0') ++ [tab] ++ price ++ [tab] ++ q ++ [nl]], 1 + k, ())
      | (none, k) => ([], 1 + k, ())
  | _, _ => ([], 0, ())

def currency (fs : List (List Byte)) : List Byte :=
  match after ccy fs with
  | none => []
  | some (c, _) => chr '/' :: c

/-- The records of a message with the fields `fs`. -/
def report (pfx : List Byte) (rstp : Bool) (fs : List (List Byte)) : List (List Byte) :=
  match stamp pfx fs, after ins fs, after nup fs with
  | some t, some (i, _), some (_, gs) =>
    let label := t ++ i ++ currency fs ++ [tab]
    (if rstp then [label ++ clr] else []) ++ records (entry label) () 0 gs
  | _, _, _ => []

/-! ## The loop -/

/-- A field is behind an empty side and, for a bid or an ask, behind each field that is not the quantity
that is looked for. -/
def settled (_ : Unit) (side : List Byte) (fs : List (List Byte)) : Prop :=
  match side with
  | [] => fs ≠ []
  | c :: cs =>
    2 ≤ c ^^^ chr '0' ∨ cs ≠ [] ∨ (fs ≠ [] ∧ ∀ price gs, fs = (prc ++ price) :: gs → gs ≠ [] ∧
      ∀ g hs, gs = g :: hs → value qty g = none → hs ≠ [])

/-- There are enough bytes for each key that is compared with. -/
def room (_ : Unit) (side : List Byte) (fs : List (List Byte)) : Prop :=
  match side with
  | [] => fs ≠ []
  | c :: cs =>
    2 ≤ c ^^^ chr '0' ∨ (4 ≤ (cs ++ tail 0 fs).length ∧
      ∀ price gs, cs = [] → fs = (prc ++ price) :: gs → 4 ≤ (tail 0 gs).length ∧
        ∀ g hs, gs = g :: hs → value qty g = none → 4 ≤ (tail 0 hs).length)

theorem settled_of_room {t : Unit} {side : List Byte} {fs : List (List Byte)} (h : room t side fs) :
    settled t side fs := by
  have hne : ∀ gs : List (List Byte), 4 ≤ (tail 0 gs).length → gs ≠ [] := by
    rintro gs hgs rfl
    exact absurd hgs (by decide)
  cases side with
  | nil => exact h
  | cons c cs =>
    refine h.imp_right fun ⟨hkey, hmore⟩ => ?_
    cases cs with
    | cons c' cs => exact Or.inl (List.cons_ne_nil _ _)
    | nil =>
      refine Or.inr ⟨hne fs hkey, fun price gs hfs => ?_⟩
      obtain ⟨hgs, hhs⟩ := hmore price gs rfl hfs
      exact ⟨hne gs hgs, fun g hs hg hq => hne hs (hhs g hs hg hq)⟩

/-- What was read before a turn goes with it. -/
theorem round_before {σ : Type} {room room' : Prop} {lo eom on on1 : Int} {m m1 : Mem Byte} {b : Turn σ}
    {out fs : List (List Byte)} (h : Round room' lo eom m1 on1 b out fs) (hreads : Reads m m1) (hon : on ≤ on1)
    (hwithin : room → room' ∧ Mem.Within lo (eom + 1) m m1) : Round room lo eom m on b out fs :=
  ⟨hreads.trans h.reads, fun hr => (hwithin hr).2.trans (h.within (hwithin hr).1), h.out, h.at_, hon.trans h.onward⟩

/-- The turn from the price on: the quantity is in one of the next two fields. -/
def priced (buf : List Byte) (sd : Byte) (m : Mem Byte) (on : Int) : Turn Unit :=
  let price := str m on
  let m := strlen m on
  let on := on + price.length
  let (m, eq) := memcmp m on (0 :: qty)
  let (m, on, eq) :=
    if eq then (m, on, true)
    else
      let m := strlen m (on + 1)
      let on := on + 1 + (str m (on + 1)).length
      let (m, eq) := memcmp m on (0 :: qty)
      (m, on, eq)
  if !eq then ⟨m, on, (), []⟩
  else
    let on := on + (0 :: qty).length
    ⟨strlen m on, on, (), [buf ++ f sd ++ [tab] ++ price ++ [tab] ++ str m on ++ [nl]]⟩

theorem quote_eq (buf : List Byte) (m : Mem Byte) (on : Int) :
    quote buf () m on =
      if 2 ≤ m.cell on ^^^ chr '0' then ⟨m.read on 1, on + 1, (), []⟩
      else
        let c := memcmp (m.read on 1) (on + 1) (0 :: prc)
        if !c.2 then ⟨c.1, on + 1, (), []⟩
        else priced buf (m.cell on ^^^ chr '0') c.1 (on + 1 + (0 :: prc).length) := rfl

/-- A price, and the quantity behind it. -/
theorem priced_round (buf : List Byte) (sd : Byte) (lo eom : Int) (m : Mem Byte) (on : Int) (price : List Byte)
    (gs : List (List Byte)) (h : At m on eom price gs) (hlo : lo ≤ on) (hgs : gs ≠ [])
    (hagain : ∀ g hs, gs = g :: hs → value qty g = none → hs ≠ []) :
    Round (4 ≤ (tail 0 gs).length ∧ ∀ g hs, gs = g :: hs → value qty g = none → 4 ≤ (tail 0 hs).length) lo eom m on
      (priced buf sd m on)
      ((quantity gs).1.toList.map fun q => buf ++ f sd ++ [tab] ++ price ++ [tab] ++ q ++ [nl])
      (gs.drop (quantity gs).2) := by
  have hzero : 0 ∉ qty := by decide
  have hlen : (0 :: qty).length = 5 := rfl
  obtain ⟨g1, gs1, rfl⟩ := List.exists_cons_of_ne_nil hgs
  have hread : ∀ (w : Mem Byte) (p : Int) (n : Nat), on ≤ p → p + n ≤ eom + 1 →
      Mem.Within lo (eom + 1) w (w.read p n) := fun w p n h1 h2 => Mem.Within.read p n (Or.inr ⟨by omega, h2⟩)
  have hdone := h.done
  have hup1 := h.upTo
  have hup2 := hdone.upTo
  rw [List.length_append] at hup1
  rw [List.nil_append] at hup2
  unfold priced
  simp only [memcmp, strlen, Mem.view_read, str_read, h.str]
  rw [hdone.beside qty hzero]
  -- the price, and the first look for a quantity
  generalize hon : on + (price.length : Int) = on1 at *
  have h4 : 4 ≤ (tail 0 (g1 :: gs1)).length → Mem.Within lo (eom + 1) m
      ((m.read on (price.length + 1)).read on1 (0 :: qty).length) := fun hr =>
    (hread _ _ _ (by omega) (by omega)).trans (hread _ _ _ (by omega) (by omega))
  cases hq : value qty g1 with
  | some q =>
    obtain rfl := (value_eq_some qty g1 q).mp hq
    have hqty := hdone.enter
    have hup3 := hqty.upTo
    rw [List.length_append] at hup3
    simp only [quantity, hq, Option.isSome_some, if_true, Bool.not_true, Bool.false_eq_true, if_false, str_read,
      hqty.str]
    exact ⟨⟨rfl, rfl⟩, fun hr => (h4 hr.1).trans (hread _ _ _ (by omega) (by omega)), rfl,
      ⟨_, hqty.reads ⟨rfl, rfl⟩⟩, by simp only; omega⟩
  | none =>
    obtain ⟨g2, gs2, rfl⟩ := List.exists_cons_of_ne_nil (hagain g1 gs1 rfl hq)
    have hnext := hdone.next
    have hlast := hnext.done
    have hup3 := hnext.upTo
    have hup4 := hlast.upTo
    rw [List.length_append] at hup3
    rw [List.nil_append] at hup4
    simp only [Option.isSome_none, Bool.false_eq_true, if_false, hnext.str]
    rw [hlast.beside qty hzero]
    -- the second look
    have h6 : (4 ≤ (tail 0 (g1 :: g2 :: gs2)).length ∧ ∀ g hs, g1 :: g2 :: gs2 = g :: hs → value qty g = none →
        4 ≤ (tail 0 hs).length) → Mem.Within lo (eom + 1) m
        ((((m.read on (price.length + 1)).read on1 (0 :: qty).length).read (on1 + 1) (g1.length + 1)).read
          (on1 + 1 + g1.length) (0 :: qty).length) := fun hr => by
      have hr1 := hr.2 g1 _ rfl hq
      exact ((h4 hr.1).trans (hread _ _ _ (by omega) (by omega))).trans (hread _ _ _ (by omega) (by omega))
    cases hq2 : value qty g2 with
    | none =>
      simp only [quantity, hq, List.head?_cons, Option.bind_some, hq2, Option.isSome_none, Bool.not_false, if_true,
        Bool.false_eq_true, if_false]
      exact ⟨⟨rfl, rfl⟩, h6, rfl, ⟨_, hlast.reads ⟨rfl, rfl⟩⟩, by simp only; omega⟩
    | some q =>
      obtain rfl := (value_eq_some qty g2 q).mp hq2
      have hqty := hlast.enter
      have hup5 := hqty.upTo
      rw [List.length_append] at hup5
      simp only [quantity, hq, List.head?_cons, Option.bind_some, hq2, Option.isSome_some, Bool.not_true, if_true,
        Bool.false_eq_true, if_false, str_read, hqty.str]
      exact ⟨⟨rfl, rfl⟩, fun hr => (h6 hr).trans (hread _ _ _ (by omega) (by omega)), rfl,
        ⟨_, hqty.reads ⟨rfl, rfl⟩⟩, by simp only; omega⟩

/-- What an entry prints if it has a price. -/
theorem entry_price (buf : List Byte) (c : Byte) (price : List Byte) (gs : List (List Byte))
    (hsd : ¬ 2 ≤ c ^^^ chr '0') :
    (entry buf () [c] ((prc ++ price) :: gs)).1 = ((quantity gs).1.toList.map fun q =>
        buf ++ f (c ^^^ chr '0') ++ [tab] ++ price ++ [tab] ++ q ++ [nl]) ∧
      ((prc ++ price) :: gs).drop (entry buf () [c] ((prc ++ price) :: gs)).2.1 = gs.drop (quantity gs).2 := by
  have hhead : ((prc ++ price) :: gs).head?.bind (value prc) = some price :=
    (value_eq_some prc _ price).mpr rfl
  unfold entry
  simp only [hhead, if_neg hsd, List.tail_cons]
  obtain ⟨q, k⟩ := quantity gs
  cases q with
  | none => exact ⟨rfl, by simp only [Nat.add_comm 1 k, List.drop_succ_cons]⟩
  | some q => exact ⟨rfl, by simp only [Nat.add_comm 1 k, List.drop_succ_cons]⟩

theorem quote_entry (buf : List Byte) (lo eom : Int) (m : Mem Byte) (on : Int) (side : List Byte)
    (fs : List (List Byte)) (h : At m on eom side fs) (hlo : lo ≤ on) (hset : settled () side fs) :
    Round (room () side fs) lo eom m on (quote buf () m on) (entry buf () side fs).1
      (fs.drop (entry buf () side fs).2.1) := by
  have hzero : 0 ∉ prc := by decide
  have hlen : (0 :: prc).length = 5 := rfl
  have hup := h.upTo
  have hread : ∀ (w : Mem Byte) (p : Int) (n : Nat), on ≤ p → p + n ≤ eom + 1 →
      Mem.Within lo (eom + 1) w (w.read p n) := fun w p n h1 h2 => Mem.Within.read p n (Or.inr ⟨by omega, h2⟩)
  have hcell := h.cell 0 (Nat.zero_le _)
  rw [Int.natCast_zero, add_zero] at hcell
  rw [quote_eq]
  cases side with
  | nil =>
    obtain ⟨f1, fs1, rfl⟩ := List.exists_cons_of_ne_nil hset
    have hsd : 2 ≤ m.cell on ^^^ chr '0' := by
      rw [hcell, List.nil_append, tail_cons, List.getD_cons_zero]
      decide
    simp only [if_pos hsd]
    exact ⟨⟨rfl, rfl⟩, fun _ => hread _ _ _ (le_refl _) (by omega), rfl, ⟨f1, h.next.reads ⟨rfl, rfl⟩⟩,
      by simp only; omega⟩
  | cons c cs =>
    have hskip : At m (on + 1) eom cs fs := At.skip (a := [c]) h
    rw [List.cons_append, List.getD_cons_zero] at hcell
    rw [List.cons_append, List.length_cons] at hup
    have h1 := hread m on 1 (le_refl _) (by omega)
    simp only [hcell, memcmp, Mem.view_read]
    by_cases hsd : 2 ≤ c ^^^ chr '0'
    · -- neither bid nor ask
      have hentry : entry buf () (c :: cs) fs = ([], 0, ()) := by
        unfold entry
        cases cs with
        | cons c' cs => rfl
        | nil =>
          cases fs.head?.bind (value prc) with
          | none => rfl
          | some price => simp only [if_pos hsd]
      rw [if_pos hsd, hentry]
      exact ⟨⟨rfl, rfl⟩, fun _ => h1, rfl, ⟨cs, hskip.reads ⟨rfl, rfl⟩⟩, by simp only; omega⟩
    · have h2 : room () (c :: cs) fs →
          Mem.Within lo (eom + 1) m ((m.read on 1).read (on + 1) (0 :: prc).length) := fun hr =>
        h1.trans (hread _ _ _ (by omega) (by have := (hr.resolve_left hsd).1; omega))
      simp only [if_neg hsd]
      cases cs with
      | cons c' cs =>
        rw [hskip.inside (List.cons_ne_nil _ _)]
        exact ⟨⟨rfl, rfl⟩, h2, rfl, ⟨_, hskip.reads ⟨rfl, rfl⟩⟩, by simp only [Bool.not_false, if_true]; omega⟩
      | nil =>
        obtain ⟨hfs, hmore⟩ := (hset.resolve_left hsd).resolve_left (not_not.mpr rfl)
        obtain ⟨f1, fs1, rfl⟩ := List.exists_cons_of_ne_nil hfs
        rw [hskip.beside prc hzero]
        cases hv : value prc f1 with
        | none =>
          have hentry : entry buf () [c] (f1 :: fs1) = ([], 0, ()) := by
            unfold entry
            simp only [List.head?_cons, Option.bind_some, hv]
          rw [hentry]
          exact ⟨⟨rfl, rfl⟩, h2, rfl, ⟨_, hskip.reads ⟨rfl, rfl⟩⟩, by
            simp only [Option.isSome_none, Bool.not_false, if_true]; omega⟩
        | some price =>
          obtain rfl := (value_eq_some prc f1 price).mp hv
          obtain ⟨hgs, hagain⟩ := hmore price fs1 rfl
          obtain ⟨hout, hleft⟩ := entry_price buf c price fs1 hsd
          have hprice : At ((m.read on 1).read (on + 1) (0 :: prc).length) (on + 1 + (0 :: prc).length) eom price fs1 :=
            hskip.enter.reads ⟨rfl, rfl⟩
          simp only [Option.isSome_some, Bool.not_true, Bool.false_eq_true, if_false]
          rw [hout, hleft]
          exact round_before (priced_round buf (c ^^^ chr '0') lo eom _ _ price fs1 hprice (by omega) hgs hagain)
            ⟨rfl, rfl⟩ (by omega) fun hr => ⟨(hr.resolve_left hsd).2 price fs1 rfl rfl, h2 hr⟩

/-! ## The message -/

theorem contract_spec {m : Mem Byte} {msg : Parsed} {a : List Byte} {fs : List (List Byte)}
    (h : At m msg.msg (msg.msg + msg.len) a fs) :
    ∃ m', contract m msg = (m', currency fs) ∧ Reads m m' ∧
      Mem.Within msg.msg (msg.msg + msg.len + 1) m m' := by
  have hzero : 0 ∉ ccy := by decide
  have hread : Mem.Within msg.msg (msg.msg + msg.len + 1) m (m.read msg.msg msg.len) :=
    Mem.Within.read _ _ (Or.inr ⟨le_refl _, by omega⟩)
  unfold contract currency
  cases hccy : after ccy fs with
  | none =>
    rw [seek_none h ccy hzero hccy _ rfl]
    exact ⟨_, rfl, ⟨rfl, rfl⟩, hread⟩
  | some cg =>
    obtain ⟨on, hseek, hat⟩ := seek_some h ccy hzero cg.1 cg.2 hccy _ rfl
    have hle := seek_le hseek
    have hup := hat.upTo
    rw [List.length_append] at hup
    rw [hseek]
    simp only [str_read, hat.str, strlen]
    exact ⟨_, rfl, ⟨rfl, rfl⟩, hread.trans (Mem.Within.read _ _ (Or.inr ⟨hle, by omega⟩))⟩

/-- `P` holds of the entries that are looked at, if the message has any. -/
def Entries (P : Unit → List Byte → List (List Byte) → Prop) (pfx : List Byte) (fs : List (List Byte)) : Prop :=
  ∀ t i hs c gs, stamp pfx fs = some t → after ins fs = some (i, hs) → after nup fs = some (c, gs) →
    Roomy (entry (t ++ i ++ currency fs ++ [tab])) P () 0 gs

theorem closed_settled (pfx : List Byte) (fs : List (List Byte)) (hc : Closed fs) : Entries settled pfx fs := by
  intro t i hs c gs _ _ hnup
  have hsuf : gs <:+ fs := (List.suffix_cons _ _).trans (after_suffix nup c fs gs hnup)
  refine closed_roomy _ _ (fun _ => True) ?_ (fun _ _ _ _ _ _ => trivial) () gs trivial (hc.suffix hsuf)
  intro _ v gs' _ hc' hend
  obtain ⟨f1, f2, fs2, rfl⟩ := hend.cases
  cases v with
  | nil => exact List.cons_ne_nil _ _
  | cons c cs =>
    refine Or.inr (Or.inr ⟨List.cons_ne_nil _ _, fun price gs'' hfs => ?_⟩)
    rw [hfs] at hc'
    obtain ⟨g1, g2, gs2, rfl⟩ :=
      (hc' _ gs'' (List.suffix_refl _) (Or.inr (Or.inr (List.prefix_append prc price)))).cases
    refine ⟨List.cons_ne_nil _ _, ?_⟩
    rintro g hs' hg -
    obtain ⟨-, rfl⟩ := List.cons.inj hg
    exact List.cons_ne_nil _ _

theorem route_quote_labelled {m : Mem Byte} {msg : Parsed} {a t i : List Byte} {fs hs : List (List Byte)}
    (h : At m msg.msg (msg.msg + msg.len) a fs) (prfx : Int) (prfz : Nat) (rstp : Bool)
    (hstamp : stamp (m.view prfx prfz) fs = some t) (hins : after ins fs = some (i, hs)) :
    let label := t ++ i ++ currency fs ++ [tab]
    ∃ m', Reads m m' ∧
      (∀ lo, Before lo msg prfx prfz → Mem.Within lo (msg.msg + msg.len + 1) m (m'.read msg.msg msg.len)) ∧
      route_quote m msg prfx prfz rstp =
        match seek m' msg.msg msg.len (0 :: nup) with
        | (m, none) => ⟨m, [], [], some (-1)⟩
        | (m, some on) =>
          let r := entries (quote label) (msg.msg + msg.len) (msg.len + 1) () m on
          ⟨r.mem, (if rstp then [label ++ clr] else []) ++ r.out, r.err, r.ret⟩ := by
  have hread : ∀ (w : Mem Byte), Mem.Within msg.msg (msg.msg + msg.len + 1) w (w.read msg.msg msg.len) :=
    fun w => Mem.Within.read _ _ (Or.inr ⟨le_refl _, by omega⟩)
  obtain ⟨m1, hstamped, hr1, hin1⟩ := stamped_spec h prfx prfz
  have h1 := h.reads hr1
  obtain ⟨on1, hseek1, hat1⟩ := seek_some h1 ins (by decide) i hs hins _ rfl
  have hle1 := seek_le hseek1
  have hup1 := hat1.upTo
  rw [List.length_append] at hup1
  have hr2 : Reads m1 (strlen (m1.read msg.msg msg.len) on1) := ⟨rfl, rfl⟩
  have hin2 : Mem.Within msg.msg (msg.msg + msg.len + 1) m1 (strlen (m1.read msg.msg msg.len) on1) := by
    unfold strlen
    rw [str_read, hat1.str]
    exact (hread m1).trans (Mem.Within.read _ _ (Or.inr ⟨hle1, by omega⟩))
  obtain ⟨m2, hcontract, hr3, hin3⟩ := contract_spec (h1.reads hr2)
  refine ⟨m2, (hr1.trans hr2).trans hr3, fun lo hb => ?_, ?_⟩
  · exact (hin1 lo hb).trans (((hin2.trans hin3).trans (hread m2)).mono hb.1 (le_refl _))
  · unfold route_quote
    rw [hstamped, hstamp]
    simp only [hseek1, str_read, hat1.str, hcontract]

theorem route_quote_run {m : Mem Byte} {msg : Parsed} {a t i c : List Byte} {fs hs gs : List (List Byte)}
    (h : At m msg.msg (msg.msg + msg.len) a fs) (prfx : Int) (prfz : Nat) (rstp : Bool)
    (hstamp : stamp (m.view prfx prfz) fs = some t) (hins : after ins fs = some (i, hs))
    (hnup : after nup fs = some (c, gs)) :
    let label := t ++ i ++ currency fs ++ [tab]
    ∃ m' on, At m' on (msg.msg + msg.len) c gs ∧ msg.msg ≤ on ∧ gs.length < msg.len + 1 ∧
      (∀ lo, Before lo msg prfx prfz → Mem.Within lo (msg.msg + msg.len + 1) m m') ∧
      route_quote m msg prfx prfz rstp =
        let r := entries (quote label) (msg.msg + msg.len) (msg.len + 1) () m' on
        ⟨r.mem, (if rstp then [label ++ clr] else []) ++ r.out, r.err, r.ret⟩ := by
  obtain ⟨m2, hr, hin, hroute⟩ := route_quote_labelled h prfx prfz rstp hstamp hins
  obtain ⟨on, hseek, hat⟩ := seek_some (h.reads hr) nup (by decide) c gs hnup _ rfl
  have hfuel : gs.length < msg.len + 1 := by
    have h1 := ((List.suffix_cons _ _).trans (after_suffix nup c fs gs hnup)).length_le
    have h2 := length_le_tail 0 fs
    have h3 := h.upTo
    rw [List.length_append] at h3
    omega
  refine ⟨m2.read msg.msg msg.len, on, hat.reads ⟨rfl, rfl⟩, seek_le hseek, hfuel, hin, ?_⟩
  rw [hroute, hseek]

theorem route_quote_short {m : Mem Byte} {msg : Parsed} {a : List Byte} {fs : List (List Byte)}
    (h : At m msg.msg (msg.msg + msg.len) a fs) (prfx : Int) (prfz : Nat) (rstp : Bool)
    (hno : stamp (m.view prfx prfz) fs = none ∨ after ins fs = none ∨ after nup fs = none) :
    let r := route_quote m msg prfx prfz rstp
    r.out = [] ∧ r.ret = some (-1) ∧
      ∀ lo, Before lo msg prfx prfz → Mem.Within lo (msg.msg + msg.len + 1) m r.mem := by
  obtain ⟨m1, hstamped, hr1, hin1⟩ := stamped_spec h prfx prfz
  intro r
  unfold r
  cases hstamp : stamp (m.view prfx prfz) fs with
  | none =>
    unfold route_quote
    rw [hstamped, hstamp]
    exact ⟨rfl, rfl, hin1⟩
  | some t =>
    cases hins : after ins fs with
    | none =>
      unfold route_quote
      rw [hstamped, hstamp]
      simp only
      rw [seek_none (h.reads hr1) ins (by decide) hins _ rfl]
      refine ⟨rfl, rfl, fun lo hb => (hin1 lo hb).trans (Mem.Within.read _ _ (Or.inr ⟨hb.1, by omega⟩))⟩
    | some ig =>
      have hnup := (hno.resolve_left (by rw [hstamp]; exact Option.some_ne_none _)).resolve_left
        (by rw [hins]; exact Option.some_ne_none _)
      obtain ⟨m2, hr, hin, hroute⟩ := route_quote_labelled h prfx prfz rstp hstamp hins
      rw [hroute, seek_none (h.reads hr) nup (by decide) hnup _ rfl]
      exact ⟨rfl, rfl, hin⟩

theorem route_quote_spec {m : Mem Byte} {msg : Parsed} {a : List Byte} {fs : List (List Byte)}
    (h : At m msg.msg (msg.msg + msg.len) a fs) (prfx : Int) (prfz : Nat) (rstp : Bool)
    (hset : Entries settled (m.view prfx prfz) fs) :
    let r := route_quote m msg prfx prfz rstp
    r.out = report (m.view prfx prfz) rstp fs ∧ r.ret ≠ none ∧
      (Entries room (m.view prfx prfz) fs → ∀ lo, Before lo msg prfx prfz →
        Mem.Within lo (msg.msg + msg.len + 1) m r.mem) := by
  by_cases hno : stamp (m.view prfx prfz) fs = none ∨ after ins fs = none ∨ after nup fs = none
  · obtain ⟨hout, hret, hin⟩ := route_quote_short h prfx prfz rstp hno
    refine ⟨?_, by rw [hret]; exact Option.some_ne_none _, fun _ => hin⟩
    rw [hout]
    unfold report
    rcases hno with hn | hn | hn
    · rw [hn]
    · rw [hn]
      cases stamp (m.view prfx prfz) fs <;> rfl
    · rw [hn]
      cases stamp (m.view prfx prfz) fs with
      | none => rfl
      | some t => cases after ins fs <;> rfl
  · obtain ⟨hno1, hno2⟩ := not_or.mp hno
    obtain ⟨hno2, hno3⟩ := not_or.mp hno2
    obtain ⟨t, hstamp⟩ := Option.ne_none_iff_exists'.mp hno1
    obtain ⟨⟨i, hs⟩, hins⟩ := Option.ne_none_iff_exists'.mp hno2
    obtain ⟨⟨c, gs⟩, hnup⟩ := Option.ne_none_iff_exists'.mp hno3
    obtain ⟨m', on, hat, hon, hfuel, hin, hrun⟩ := route_quote_run h prfx prfz rstp hstamp hins hnup
    obtain ⟨hout, hret, hin'⟩ := entries_roomy (quote (t ++ i ++ currency fs ++ [tab]))
      (entry (t ++ i ++ currency fs ++ [tab])) settled room msg.msg (msg.msg + msg.len) (fun _ _ _ => True)
      (fun m on _ _ v gs hat hlo hs _ => ⟨quote_entry _ _ _ m on v gs hat hlo hs, trivial⟩)
      (fun _ _ _ _ _ _ => trivial) (msg.len + 1) () () m' on c gs hat hon (hset _ _ _ _ _ hstamp hins hnup)
      trivial hfuel
    intro r
    unfold r
    rw [hrun]
    refine ⟨?_, by rw [hret]; exact Option.some_ne_none _, fun hroom lo hb => ?_⟩
    · unfold report
      rw [hstamp, hins, hnup]
      simp only
      rw [hout]
    · exact (hin lo hb).trans ((hin' (hroom _ _ _ _ _ hstamp hins hnup)).mono hb.1 (le_refl _))

theorem route_quote_out {m : Mem Byte} {msg : Parsed} {a : List Byte} {fs : List (List Byte)}
    (h : At m msg.msg (msg.msg + msg.len) a fs) (hc : Closed fs) (prfx : Int) (prfz : Nat) (rstp : Bool) :
    (route_quote m msg prfx prfz rstp).out = report (m.view prfx prfz) rstp fs :=
  (route_quote_spec h prfx prfz rstp (closed_settled _ fs hc)).1

end Coins.Quotes.Ok2b
