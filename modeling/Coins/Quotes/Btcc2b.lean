import Coins.Quotes.FixLine

/-!
# `btcc2b`

The converter for BTCC. An entry may name an instrument, which then stays for the entries behind it.
-/

open Coins.Fix Coins.Memory Coins.Numeral Coins.Pieces

namespace Coins.Quotes.Btcc2b

def sides (sd : Byte) : List Byte :=
  if sd = 0 then ascii "BID" else if sd = 1 then ascii "ASK" else ascii "TRA"

/-- The flavour, from two characters of the instrument. Only XBTCNY and BTCUSD have real depth data,
the rest seems to be top level. -/
def level (typ c0 c3 sd : Byte) : Byte :=
  let l : Byte := if sd < 2 then 1 else 0
  let l := if (c0 = chr 'X' ∨ c3 = chr 'U') ∧ l ≠ 0 then 2 + (if typ = chr 'X' then 1 else 0) else l
  l ^^^ chr '0'

/-- `in` and `inz`, the instrument. -/
structure Named where
  pos : Int
  len : Nat

/-- The look at `in[0U]`, and at `in[3U]` if that is not enough. -/
def look (m : Mem Byte) (pos : Int) : Mem Byte :=
  if m.cell pos = chr 'X' then m.read pos 1 else (m.read pos 1).read (pos + 3) 1

/-- The second half of the loop, behind the instrument. -/
def priced (typ : Byte) (buf : List Byte) (sd : Byte) (i : Named) (m : Mem Byte) (on : Int) : Turn Named :=
  let name := m.view i.pos i.len
  let m := look (m.read i.pos i.len) i.pos
  let l := level typ (m.cell i.pos) (m.cell (i.pos + 3)) sd
  -- on should now be 270=...
  let (m, eq) := memcmp m on (0 :: prc)
  if !eq then ⟨m, on, i, []⟩
  else
    let on := on + (0 :: prc).length
    let price := str m on
    let m := strlen m on
    let on := on + price.length
    -- on should now be 271
    let (m, eq) := memcmp m on (0 :: qty)
    let (m, on, quantity) :=
      if eq then
        let on := on + (0 :: qty).length
        (strlen m on, on, tab :: str m on)
      else (m, on, [])
    ⟨m, on, i, [buf ++ name ++ [tab] ++ sides sd ++ [l, tab] ++ price ++ quantity ++ [nl]]⟩

/-- Once round the loop; `buf` is what is in front of the instrument. -/
def quote (typ : Byte) (buf : List Byte) (i : Named) (m : Mem Byte) (on : Int) : Turn Named :=
  -- stash side, copy to buf later
  let sd := m.cell on ^^^ chr '0'
  let m := m.read on 1
  let on := on + 1
  if 3 ≤ sd then ⟨m, on, i, []⟩
  else
    -- on should now be 55=...
    let (m, eq) := memcmp m on (0 :: ins)
    if eq then
      let on := on + (0 :: ins).length
      let inz := (str m on).length
      priced typ buf sd ⟨on, inz⟩ (strlen m on) (on + inz)
    else priced typ buf sd i m on

def route_quote (m : Mem Byte) (msg : Parsed) (prfx : Int) (prfz : Nat) : Routed :=
  match stamped m msg prfx prfz with
  | (m, none) => ⟨m, [], [], some (-1)⟩
  | (m, some buf) =>
    -- make sure we've got at least one ins
    match seek m msg.msg msg.len (0 :: ins) with
    | (m, none) => ⟨m, [], [], some (-1)⟩
    | (m, some pos) =>
      let i : Named := ⟨pos, (str m pos).length⟩
      -- look for updates
      match seek (strlen m pos) msg.msg msg.len (0 :: nup) with
      | (m, none) => ⟨m, [], [], some (-1)⟩
      | (m, some on) => entries (quote msg.typ buf) (msg.msg + msg.len) (msg.len + 1) i m on

def procln (m : Mem Byte) (ln : Int) (lz : Nat) : Routed :=
  procln_with (fun m msg prfx prfz _ => route_quote m msg prfx prfz) m ln lz

/-! ## What is printed for a message -/

abbrev Instrument := List Byte × List (List Byte)

def named (typ : Byte) (i : Instrument) (sd : Byte) : List Byte :=
  let text := i.1 ++ tail 0 i.2
  i.1 ++ [tab] ++ sides sd ++ [level typ (text.getD 0 0) (text.getD 3 0) sd, tab]

/-- The price and maybe a quantity, and how many fields they take. -/
def prices (label : List Byte) (fs : List (List Byte)) : List (List Byte) × Nat :=
  match fs.head?.bind (value prc) with
  | none => ([], 0)
  | some price =>
    match fs.tail.head?.bind (value qty) with
    | some q => ([label ++ price ++ tab :: q ++ [nl]], 2)
    | none => ([label ++ price ++ [nl]], 1)

/-- An entry has one character for its side, maybe an instrument, then its prices. -/
def entry (typ : Byte) (buf : List Byte) (i : Instrument) (side : List Byte) (fs : List (List Byte)) :
    List (List Byte) × Nat × Instrument :=
  match side with
  -- an empty field hides the next one
  | [] => ([], 1, i)
  | c :: cs =>
    let sd := c ^^^ chr '0'
    if 3 ≤ sd ∨ cs ≠ [] then ([], 0, i)
    else
      match fs.head?.bind (value ins) with
      | some v =>
        let i := (v, fs.tail)
        let p := prices (buf ++ named typ i sd) fs.tail
        (p.1, 1 + p.2, i)
      | none =>
        let p := prices (buf ++ named typ i sd) fs
        (p.1, p.2, i)

/-- The records of a message with the fields `fs`. -/
def report (pfx : List Byte) (typ : Byte) (fs : List (List Byte)) : List (List Byte) :=
  match stamp pfx fs, after ins fs, after nup fs with
  | some t, some i, some (_, gs) => records (entry typ t) i 0 gs
  | _, _, _ => []

/-! ## The loop -/

/-- The characters of the instrument that are looked at are there. -/
def Shown (i : Instrument) : Prop := (i.1 ++ tail 0 i.2).getD 0 0 = chr 'X' ∨ 3 ≤ (i.1 ++ tail 0 i.2).length

/-- A field is there where a price is looked for, and behind the price. -/
def settledPrice (i : Instrument) (fs : List (List Byte)) : Prop :=
  Shown i ∧ fs ≠ [] ∧ ∀ price gs, fs = (prc ++ price) :: gs → gs ≠ []

def settled (i : Instrument) (side : List Byte) (fs : List (List Byte)) : Prop :=
  match side with
  | [] => fs ≠ []
  | c :: cs =>
    3 ≤ c ^^^ chr '0' ∨ cs ≠ [] ∨ (fs ≠ [] ∧
      (∀ v gs, fs = (ins ++ v) :: gs → settledPrice (v, gs) gs) ∧
      (fs.head?.bind (value ins) = none → settledPrice i fs))

/-- There are enough bytes for the keys of a price and a quantity. -/
def roomPrice (i : Instrument) (a : List Byte) (fs : List (List Byte)) : Prop :=
  Shown i ∧ 4 ≤ (a ++ tail 0 fs).length ∧
    ∀ price gs, a = [] → fs = (prc ++ price) :: gs → 4 ≤ (tail 0 gs).length

/-- There are enough bytes for each key that is compared with. -/
def room (i : Instrument) (side : List Byte) (fs : List (List Byte)) : Prop :=
  match side with
  | [] => fs ≠ []
  | c :: cs =>
    3 ≤ c ^^^ chr '0' ∨ (3 ≤ (cs ++ tail 0 fs).length ∧
      (∀ v gs, cs = [] → fs = (ins ++ v) :: gs → roomPrice (v, gs) [] gs) ∧
      (cs ≠ [] ∨ fs.head?.bind (value ins) = none → roomPrice i cs fs))

theorem settledPrice_of_room {i : Instrument} {fs : List (List Byte)} (h : roomPrice i [] fs) : settledPrice i fs := by
  have hne : ∀ gs : List (List Byte), 4 ≤ (tail 0 gs).length → gs ≠ [] := by
    rintro gs hgs rfl
    exact absurd hgs (by decide)
  exact ⟨h.1, hne fs h.2.1, fun price gs hfs => hne gs (h.2.2 price gs rfl hfs)⟩

theorem settled_of_room {i : Instrument} {side : List Byte} {fs : List (List Byte)} (h : room i side fs) :
    settled i side fs := by
  cases side with
  | nil => exact h
  | cons c cs =>
    refine h.imp_right fun ⟨hkey, hown, hold⟩ => ?_
    cases cs with
    | cons c' cs => exact Or.inl (List.cons_ne_nil _ _)
    | nil =>
      refine Or.inr ⟨?_, fun v gs hfs => settledPrice_of_room (hown v gs rfl hfs), fun hn =>
        settledPrice_of_room (hold (Or.inr hn))⟩
      rintro rfl
      exact absurd hkey (by decide)

/-- `in` points at the instrument. -/
structure Points (lo eom : Int) (m : Mem Byte) (n : Named) (i : Instrument) : Prop where
  pos : At m n.pos eom i.1 i.2
  len : n.len = i.1.length
  lo : lo ≤ n.pos

theorem Points.reads {lo eom : Int} {m m' : Mem Byte} {n : Named} {i : Instrument} (h : Points lo eom m n i)
    (hr : Reads m m') : Points lo eom m' n i :=
  ⟨h.pos.reads hr, h.len, h.lo⟩

theorem look_spec {lo eom : Int} {m : Mem Byte} {n : Named} {i : Instrument} (hn : Points lo eom m n i) :
    Reads m (look (m.read n.pos n.len) n.pos) ∧
      (Shown i → Mem.Within lo (eom + 1) m (look (m.read n.pos n.len) n.pos)) ∧
      (Shown i → ∀ typ sd, level typ (m.cell n.pos) (m.cell (n.pos + 3)) sd =
        level typ ((i.1 ++ tail 0 i.2).getD 0 0) ((i.1 ++ tail 0 i.2).getD 3 0) sd) := by
  have hlo := hn.lo
  have hlen := hn.len
  have hup := hn.pos.upTo
  have h0 := hn.pos.cell 0 (Nat.zero_le _)
  rw [Int.natCast_zero, add_zero] at h0
  have hread : ∀ (w : Mem Byte) (p : Int) (k : Nat), lo ≤ p → p + k ≤ eom + 1 →
      Mem.Within lo (eom + 1) w (w.read p k) := fun w p k h1 h2 => Mem.Within.read p k (Or.inr ⟨h1, h2⟩)
  have hname : Mem.Within lo (eom + 1) m (m.read n.pos n.len) :=
    hread _ _ _ hlo (by rw [List.length_append] at hup; omega)
  refine ⟨?_, fun hs => ?_, fun hs typ sd => ?_⟩
  · unfold look
    split
    · exact ⟨rfl, rfl⟩
    · exact ⟨rfl, rfl⟩
  · unfold look
    rw [Mem.cell_read, h0]
    split
    · exact hname.trans (hread _ _ _ hlo (by omega))
    · rename_i hx
      have h3 := hs.resolve_left hx
      exact (hname.trans (hread _ _ _ hlo (by omega))).trans (hread _ _ _ (by omega) (by omega))
  · rw [h0]
    by_cases hx : (i.1 ++ tail 0 i.2).getD 0 0 = chr 'X'
    · simp only [level, hx, true_or, true_and]
    · have h3 := hn.pos.cell 3 (hs.resolve_left hx)
      rw [← h3]
      rfl

theorem priced_prices (typ : Byte) (buf : List Byte) (sd : Byte) (n : Named) (i : Instrument) (m : Mem Byte)
    (on lo eom : Int) (fs : List (List Byte)) (h : At m on eom [] fs) (hlo : lo ≤ on)
    (hset : settledPrice i fs) (hn : Points lo eom m n i) :
    Round (roomPrice i [] fs) lo eom m on (priced typ buf sd n m on) (prices (buf ++ named typ i sd) fs).1
        (fs.drop (prices (buf ++ named typ i sd) fs).2) ∧ (priced typ buf sd n m on).state = n := by
  have hzero : 0 ∉ prc ∧ 0 ∉ qty := by decide
  have hlen : (0 :: prc).length = 5 ∧ (0 :: qty).length = 5 := ⟨rfl, rfl⟩
  obtain ⟨hshown, hfs, hmore⟩ := hset
  obtain ⟨f1, fs1, rfl⟩ := List.exists_cons_of_ne_nil hfs
  have hread : ∀ (w : Mem Byte) (p : Int) (k : Nat), on ≤ p → p + k ≤ eom + 1 →
      Mem.Within lo (eom + 1) w (w.read p k) := fun w p k h1 h2 => Mem.Within.read p k (Or.inr ⟨by omega, h2⟩)
  have hup := h.upTo
  rw [List.nil_append] at hup
  have hname : m.view n.pos n.len = i.1 := by
    rw [hn.len]
    exact hn.pos.piece
  obtain ⟨hr1, hin1, hlevel⟩ := look_spec hn
  have hlevel' := hlevel hshown typ sd
  unfold priced prices
  simp only [hname]
  generalize look (m.read n.pos n.len) n.pos = m1 at hr1 hin1 ⊢
  have h1 := h.reads hr1
  rw [← hr1.1] at hlevel'
  simp only [hlevel', memcmp, strlen]
  rw [h1.beside prc hzero.1]
  have h2 : roomPrice i [] (f1 :: fs1) → Mem.Within lo (eom + 1) m (m1.read on (0 :: prc).length) := fun hr => by
    have := hr.2.1
    rw [List.nil_append] at this
    exact (hin1 hr.1).trans (hread _ _ _ (le_refl _) (by omega))
  cases hv : value prc f1 with
  | none =>
    simp only [List.head?_cons, Option.bind_some, hv]
    exact ⟨⟨hr1, h2, rfl, ⟨_, h1.reads ⟨rfl, rfl⟩⟩, le_refl _⟩, rfl⟩
  | some price =>
    obtain rfl := (value_eq_some prc f1 price).mp hv
    obtain ⟨g1, gs1, rfl⟩ := List.exists_cons_of_ne_nil (hmore price fs1 rfl)
    have hprice := h1.enter
    have hdone := hprice.done
    have hup1 := hprice.upTo
    have hup2 := hdone.upTo
    rw [List.length_append] at hup1
    rw [List.nil_append] at hup2
    simp only [List.head?_cons, Option.bind_some, hv, List.tail_cons, Option.isSome_some, Bool.not_true,
      Bool.false_eq_true, if_false, str_read, Mem.view_read, hprice.str]
    rw [hdone.beside qty hzero.2]
    have h4 : roomPrice i [] ((prc ++ price) :: g1 :: gs1) → Mem.Within lo (eom + 1) m
        (((m1.read on (0 :: prc).length).read (on + (0 :: prc).length) (price.length + 1)).read
          (on + (0 :: prc).length + price.length) (0 :: qty).length) := fun hr => by
      have hr1 := hr.2.2 price _ rfl rfl
      exact ((h2 hr).trans (hread _ _ _ (by omega) (by omega))).trans (hread _ _ _ (by omega) (by omega))
    cases hq : value qty g1 with
    | none =>
      simp only [Option.isSome_none, Bool.false_eq_true, if_false]
      refine ⟨⟨hr1, h4, ?_, ⟨_, hdone.reads ⟨rfl, rfl⟩⟩, by simp only; omega⟩, trivial⟩
      simp [named]
    | some q =>
      obtain rfl := (value_eq_some qty g1 q).mp hq
      have hqty := hdone.enter
      have hup3 := hqty.upTo
      rw [List.length_append] at hup3
      simp only [Option.isSome_some, if_true, hqty.str]
      refine ⟨⟨hr1, fun hr => (h4 hr).trans (hread _ _ _ (by omega) (by omega)), ?_,
        ⟨_, hqty.reads ⟨rfl, rfl⟩⟩, by simp only; omega⟩, trivial⟩
      simp [named]

theorem priced_inside (typ : Byte) (buf : List Byte) (sd : Byte) (n : Named) (i : Instrument) (m : Mem Byte)
    (on lo eom : Int) (a : List Byte) (fs : List (List Byte)) (h : At m on eom a fs) (hlo : lo ≤ on) (ha : a ≠ [])
    (hn : Points lo eom m n i) :
    Round (roomPrice i a fs) lo eom m on (priced typ buf sd n m on) [] fs ∧
      (priced typ buf sd n m on).state = n := by
  have hup := h.upTo
  have hlen : (0 :: prc).length = 5 := rfl
  obtain ⟨hr1, hin1, -⟩ := look_spec hn
  unfold priced
  simp only
  generalize look (m.read n.pos n.len) n.pos = m1 at hr1 hin1 ⊢
  unfold memcmp
  rw [(h.reads hr1).inside ha]
  refine ⟨⟨hr1, fun hr => (hin1 hr.1).trans (Mem.Within.read _ _ (Or.inr ⟨hlo, ?_⟩)), rfl,
    ⟨a, h.reads hr1⟩, le_refl _⟩, rfl⟩
  have := hr.2.1
  omega

theorem quote_entry (typ : Byte) (buf : List Byte) (n : Named) (i : Instrument) (lo eom : Int) (m : Mem Byte)
    (on : Int) (side : List Byte) (fs : List (List Byte)) (h : At m on eom side fs) (hlo : lo ≤ on)
    (hset : settled i side fs) (hn : Points lo eom m n i) :
    Round (room i side fs) lo eom m on (quote typ buf n m on) (entry typ buf i side fs).1
        (fs.drop (entry typ buf i side fs).2.1) ∧
      Points lo eom (quote typ buf n m on).mem (quote typ buf n m on).state (entry typ buf i side fs).2.2 := by
  have hzero : 0 ∉ ins := by decide
  have hlen : (0 :: ins).length = 4 := rfl
  have hup := h.upTo
  have hcell := h.cell 0 (Nat.zero_le _)
  rw [Int.natCast_zero, add_zero] at hcell
  cases side with
  | nil =>
    obtain ⟨f1, fs1, rfl⟩ := List.exists_cons_of_ne_nil hset
    have hsd : 3 ≤ m.cell on ^^^ chr '0' := by
      rw [hcell, List.nil_append, tail_cons, List.getD_cons_zero]
      decide
    unfold quote
    simp only [if_pos hsd]
    exact ⟨⟨⟨rfl, rfl⟩, fun _ => Mem.Within.read _ _ (Or.inr ⟨hlo, by omega⟩), rfl,
      ⟨f1, h.next.reads ⟨rfl, rfl⟩⟩, by simp only; omega⟩, hn.reads ⟨rfl, rfl⟩⟩
  | cons c cs =>
    have hskip : At m (on + 1) eom cs fs := At.skip (a := [c]) h
    rw [List.cons_append, List.getD_cons_zero] at hcell
    rw [List.cons_append, List.length_cons] at hup
    have h1 : Mem.Within lo (eom + 1) m (m.read on 1) := Mem.Within.read _ _ (Or.inr ⟨hlo, by omega⟩)
    unfold quote entry
    simp only [hcell, memcmp, strlen, Mem.view_read, str_read]
    by_cases hsd : 3 ≤ c ^^^ chr '0'
    · -- neither bid nor ask nor trade
      simp only [if_pos hsd, if_pos (Or.inl hsd)]
      exact ⟨⟨⟨rfl, rfl⟩, fun _ => h1, rfl, ⟨_, hskip.reads ⟨rfl, rfl⟩⟩, by simp only; omega⟩,
        hn.reads ⟨rfl, rfl⟩⟩
    · have h2 : room i (c :: cs) fs → Mem.Within lo (eom + 1) m ((m.read on 1).read (on + 1) (0 :: ins).length) :=
        fun hr => h1.trans (Mem.Within.read _ _ (Or.inr ⟨by omega, by have := (hr.resolve_left hsd).1; omega⟩))
      have hread : Reads m ((m.read on 1).read (on + 1) (0 :: ins).length) := ⟨rfl, rfl⟩
      simp only [if_neg hsd]
      cases cs with
      | cons c' cs =>
        have hin := hskip.inside (List.cons_ne_nil c' cs)
        obtain ⟨hb, hstate⟩ := priced_inside typ buf (c ^^^ chr '0') n i _ _ lo eom _ _ (hskip.reads hread)
          (by omega) (List.cons_ne_nil c' cs) (hn.reads hread)
        simp only [hin, Bool.false_eq_true, if_false, if_pos (Or.inr (List.cons_ne_nil c' cs)), hstate]
        have hon := hb.onward
        exact ⟨⟨hb.reads, fun hr => (h2 hr).trans (hb.within ((hr.resolve_left hsd).2.2
          (Or.inl (List.cons_ne_nil c' cs)))), hb.out, hb.at_, by omega⟩, hn.reads hb.reads⟩
      | nil =>
        obtain ⟨hfs, hown, hold⟩ := (hset.resolve_left hsd).resolve_left (not_not.mpr rfl)
        obtain ⟨f1, fs1, rfl⟩ := List.exists_cons_of_ne_nil hfs
        have hside : ¬ (3 ≤ c ^^^ chr '0' ∨ ([] : List Byte) ≠ []) := fun h => h.elim hsd fun h => h rfl
        have hin := hskip.beside ins hzero
        simp only [hin, if_neg hside, List.head?_cons, Option.bind_some, List.tail_cons]
        cases hv : value ins f1 with
        | none =>
          have hhead : (f1 :: fs1).head?.bind (value ins) = none := hv
          obtain ⟨hb, hstate⟩ := priced_prices typ buf (c ^^^ chr '0') n i _ _ lo eom _
            (hskip.reads hread) (by omega) (hold hhead) (hn.reads hread)
          simp only [Option.isSome_none, Bool.false_eq_true, if_false, hstate]
          have hon := hb.onward
          exact ⟨⟨hb.reads, fun hr => (h2 hr).trans (hb.within ((hr.resolve_left hsd).2.2 (Or.inr hhead))),
            hb.out, hb.at_, by omega⟩, hn.reads hb.reads⟩
        | some v =>
          obtain rfl := (value_eq_some ins f1 v).mp hv
          have hname := hskip.enter
          have hdone := hname.done
          have hup1 := hname.upTo
          rw [List.length_append] at hup1
          have hpts : Points lo eom m ⟨on + 1 + (0 :: ins).length, v.length⟩ (v, fs1) :=
            ⟨hname, rfl, by simp only; omega⟩
          simp only [Option.isSome_some, if_true, hname.str]
          generalize hm1 : ((m.read on 1).read (on + 1) (0 :: ins).length).read
            (on + 1 + (0 :: ins).length) (v.length + 1) = m1
          have hr1 : Reads m m1 := hm1 ▸ ⟨rfl, rfl⟩
          have h3 : room i [c] ((ins ++ v) :: fs1) → Mem.Within lo (eom + 1) m m1 := fun hr => by
            rw [← hm1]
            exact (h2 hr).trans (Mem.Within.read _ _ (Or.inr ⟨by omega, by omega⟩))
          obtain ⟨hb, hstate⟩ := priced_prices typ buf (c ^^^ chr '0') _ _ m1 _ lo eom _
            (hdone.reads hr1) (by omega) (hown v fs1 rfl) (hpts.reads hr1)
          have hon := hb.onward
          refine ⟨⟨hr1.trans hb.reads, fun hr => (h3 hr).trans (hb.within ((hr.resolve_left hsd).2.1 v fs1 rfl rfl)),
            hb.out, ?_, by omega⟩, ?_⟩
          · rw [Nat.add_comm, List.drop_succ_cons]
            exact hb.at_
          · rw [hstate]
            exact hpts.reads (hr1.trans hb.reads)

/-! ## The message -/

/-- `P` holds of the entries that are looked at, if the message has any. -/
def Entries (P : Instrument → List Byte → List (List Byte) → Prop) (pfx : List Byte) (typ : Byte)
    (fs : List (List Byte)) : Prop :=
  ∀ t i c gs, stamp pfx fs = some t → after ins fs = some i → after nup fs = some (c, gs) →
    Roomy (entry typ t) P i 0 gs

theorem closed_settled (pfx : List Byte) (typ : Byte) (fs : List (List Byte)) (hc : Closed fs) :
    Entries settled pfx typ fs := by
  intro t i c gs _ hins hnup
  have hsuf : gs <:+ fs := (List.suffix_cons _ _).trans (after_suffix nup c fs gs hnup)
  have hshown : ∀ i : Instrument, Trailed i.2 → Shown i := fun i hi => by
    have := hi.length
    exact Or.inr (by rw [List.length_append]; omega)
  have hprice : ∀ i gs, Trailed i.2 → Closed gs → gs ≠ [] → settledPrice i gs := by
    intro i gs hi hc' hne
    refine ⟨hshown i hi, hne, fun price gs' hgs => ?_⟩
    rw [hgs] at hc'
    obtain ⟨g1, g2, gs2, rfl⟩ :=
      (hc' _ gs' (List.suffix_refl _) (Or.inr (Or.inr (List.prefix_append prc price)))).cases
    exact List.cons_ne_nil _ _
  have hnamed : ∀ v gs' hs, Closed gs' → gs' = (ins ++ v) :: hs → Trailed hs := fun v gs' hs hc' hgs =>
    hc' (ins ++ v) hs (hgs ▸ List.suffix_refl _) (Or.inr (Or.inl (List.prefix_append ins v)))
  refine closed_roomy _ _ (fun i => Trailed i.2) ?_ ?_ i gs
    (hc _ _ (after_suffix ins i.1 fs i.2 hins) (Or.inr (Or.inl (List.prefix_append ins i.1)))) (hc.suffix hsuf)
  · intro i v gs' hi hc' hend
    obtain ⟨f1, f2, fs2, hfs⟩ := hend.cases
    have hne : gs' ≠ [] := by
      rw [hfs]
      exact List.cons_ne_nil _ _
    cases v with
    | nil => exact hne
    | cons c cs =>
      refine Or.inr (Or.inr ⟨hne, fun v hs hgs => ?_, fun _ => hprice i gs' hi hc' hne⟩)
      have htrail := hnamed v gs' hs hc' hgs
      obtain ⟨g1, g2, gs2, hhs⟩ := htrail.cases
      refine hprice (v, hs) hs htrail (hc'.suffix ?_) (by rw [hhs]; exact List.cons_ne_nil _ _)
      rw [hgs]
      exact List.suffix_cons _ _
  · intro i v gs' hi hc' hend
    cases v with
    | nil => exact hi
    | cons c cs =>
      unfold entry
      simp only
      split
      · exact hi
      · obtain ⟨f1, f2, fs2, rfl⟩ := hend.cases
        simp only [List.head?_cons, Option.bind_some, List.tail_cons]
        cases hv : value ins f1 with
        | none => exact hi
        | some w =>
          obtain rfl := (value_eq_some ins f1 w).mp hv
          exact hnamed w _ _ hc' rfl

theorem route_quote_named {m : Mem Byte} {msg : Parsed} {a t : List Byte} {fs : List (List Byte)} {i : Instrument}
    (h : At m msg.msg (msg.msg + msg.len) a fs) (prfx : Int) (prfz : Nat)
    (hstamp : stamp (m.view prfx prfz) fs = some t) (hins : after ins fs = some i) :
    ∃ m' n, Reads m m' ∧ Points msg.msg (msg.msg + msg.len) (m'.read msg.msg msg.len) n i ∧
      (∀ lo, Before lo msg prfx prfz → Mem.Within lo (msg.msg + msg.len + 1) m (m'.read msg.msg msg.len)) ∧
      route_quote m msg prfx prfz =
        match seek m' msg.msg msg.len (0 :: nup) with
        | (m, none) => ⟨m, [], [], some (-1)⟩
        | (m, some on) => entries (quote msg.typ t) (msg.msg + msg.len) (msg.len + 1) n m on := by
  have hread : ∀ (w : Mem Byte), Mem.Within msg.msg (msg.msg + msg.len + 1) w (w.read msg.msg msg.len) :=
    fun w => Mem.Within.read _ _ (Or.inr ⟨le_refl _, by omega⟩)
  obtain ⟨m1, hstamped, hr1, hin1⟩ := stamped_spec h prfx prfz
  have h1 := h.reads hr1
  obtain ⟨pos, hseek1, hat1⟩ := seek_some h1 ins (by decide) i.1 i.2 hins _ rfl
  have hle1 := seek_le hseek1
  have hup1 := hat1.upTo
  rw [List.length_append] at hup1
  have hr2 : Reads m1 (strlen (m1.read msg.msg msg.len) pos) := ⟨rfl, rfl⟩
  have hin2 : Mem.Within msg.msg (msg.msg + msg.len + 1) m1 (strlen (m1.read msg.msg msg.len) pos) := by
    unfold strlen
    rw [str_read, hat1.str]
    exact (hread m1).trans (Mem.Within.read _ _ (Or.inr ⟨hle1, by omega⟩))
  refine ⟨_, ⟨pos, i.1.length⟩, hr1.trans hr2, ⟨hat1.reads ⟨rfl, rfl⟩, rfl, hle1⟩, fun lo hb => ?_, ?_⟩
  · exact (hin1 lo hb).trans ((hin2.trans (hread _)).mono hb.1 (le_refl _))
  · unfold route_quote
    rw [hstamped, hstamp]
    simp only [hseek1, str_read, hat1.str]

theorem route_quote_run {m : Mem Byte} {msg : Parsed} {a t c : List Byte} {fs gs : List (List Byte)} {i : Instrument}
    (h : At m msg.msg (msg.msg + msg.len) a fs) (prfx : Int) (prfz : Nat)
    (hstamp : stamp (m.view prfx prfz) fs = some t) (hins : after ins fs = some i)
    (hnup : after nup fs = some (c, gs)) :
    ∃ m' n on, At m' on (msg.msg + msg.len) c gs ∧ msg.msg ≤ on ∧ gs.length < msg.len + 1 ∧
      Points msg.msg (msg.msg + msg.len) m' n i ∧
      (∀ lo, Before lo msg prfx prfz → Mem.Within lo (msg.msg + msg.len + 1) m m') ∧
      route_quote m msg prfx prfz = entries (quote msg.typ t) (msg.msg + msg.len) (msg.len + 1) n m' on := by
  obtain ⟨m2, n, hr, hn, hin, hroute⟩ := route_quote_named h prfx prfz hstamp hins
  obtain ⟨on, hseek, hat⟩ := seek_some (h.reads hr) nup (by decide) c gs hnup _ rfl
  have hfuel : gs.length < msg.len + 1 := by
    have h1 := ((List.suffix_cons _ _).trans (after_suffix nup c fs gs hnup)).length_le
    have h2 := length_le_tail 0 fs
    have h3 := h.upTo
    rw [List.length_append] at h3
    omega
  refine ⟨m2.read msg.msg msg.len, n, on, hat.reads ⟨rfl, rfl⟩, seek_le hseek, hfuel, hn, hin, ?_⟩
  rw [hroute, hseek]

theorem route_quote_short {m : Mem Byte} {msg : Parsed} {a : List Byte} {fs : List (List Byte)}
    (h : At m msg.msg (msg.msg + msg.len) a fs) (prfx : Int) (prfz : Nat)
    (hno : stamp (m.view prfx prfz) fs = none ∨ after ins fs = none ∨ after nup fs = none) :
    let r := route_quote m msg prfx prfz
    r.out = [] ∧ r.ret = some (-1) ∧
      ∀ lo, Before lo msg prfx prfz → Mem.Within lo (msg.msg + msg.len + 1) m r.mem := by
  obtain ⟨m1, hstamped, hr1, hin1⟩ := stamped_spec h prfx prfz
  intro r
  unfold r
  cases hstamp : stamp (m.view prfx prfz) fs with
  | none =>
    unfold route_quote
    rw [hstamped, hstamp]
    exact ⟨rfl, rfl, hin1⟩
  | some t =>
    cases hins : after ins fs with
    | none =>
      unfold route_quote
      rw [hstamped, hstamp]
      simp only
      rw [seek_none (h.reads hr1) ins (by decide) hins _ rfl]
      refine ⟨rfl, rfl, fun lo hb => (hin1 lo hb).trans (Mem.Within.read _ _ (Or.inr ⟨hb.1, by omega⟩))⟩
    | some i =>
      have hnup := (hno.resolve_left (by rw [hstamp]; exact Option.some_ne_none _)).resolve_left
        (by rw [hins]; exact Option.some_ne_none _)
      obtain ⟨m2, n, hr, -, hin, hroute⟩ := route_quote_named h prfx prfz hstamp hins
      rw [hroute, seek_none (h.reads hr) nup (by decide) hnup _ rfl]
      exact ⟨rfl, rfl, hin⟩

theorem route_quote_spec {m : Mem Byte} {msg : Parsed} {a : List Byte} {fs : List (List Byte)}
    (h : At m msg.msg (msg.msg + msg.len) a fs) (prfx : Int) (prfz : Nat)
    (hset : Entries settled (m.view prfx prfz) msg.typ fs) :
    let r := route_quote m msg prfx prfz
    r.out = report (m.view prfx prfz) msg.typ fs ∧ r.ret ≠ none ∧
      (Entries room (m.view prfx prfz) msg.typ fs → ∀ lo, Before lo msg prfx prfz →
        Mem.Within lo (msg.msg + msg.len + 1) m r.mem) := by
  by_cases hno : stamp (m.view prfx prfz) fs = none ∨ after ins fs = none ∨ after nup fs = none
  · obtain ⟨hout, hret, hin⟩ := route_quote_short h prfx prfz hno
    refine ⟨?_, by rw [hret]; exact Option.some_ne_none _, fun _ => hin⟩
    rw [hout]
    unfold report
    rcases hno with hn | hn | hn
    · rw [hn]
    · rw [hn]
      cases stamp (m.view prfx prfz) fs <;> rfl
    · rw [hn]
      cases stamp (m.view prfx prfz) fs with
      | none => rfl
      | some t => cases after ins fs <;> rfl
  · obtain ⟨hno1, hno2⟩ := not_or.mp hno
    obtain ⟨hno2, hno3⟩ := not_or.mp hno2
    obtain ⟨t, hstamp⟩ := Option.ne_none_iff_exists'.mp hno1
    obtain ⟨i, hins⟩ := Option.ne_none_iff_exists'.mp hno2
    obtain ⟨⟨c, gs⟩, hnup⟩ := Option.ne_none_iff_exists'.mp hno3
    obtain ⟨m', n, on, hat, hon, hfuel, hn, hin, hrun⟩ := route_quote_run h prfx prfz hstamp hins hnup
    obtain ⟨hout, hret, hin'⟩ := entries_roomy (quote msg.typ t) (entry msg.typ t) settled room msg.msg
      (msg.msg + msg.len) (Points msg.msg (msg.msg + msg.len))
      (fun m on n i v gs hat hlo hs hn => quote_entry msg.typ t n i _ _ m on v gs hat hlo hs hn)
      (fun _ _ _ _ hr hp => hp.reads hr) (msg.len + 1) n i m' on c gs hat hon (hset _ _ _ _ hstamp hins hnup)
      hn hfuel
    intro r
    unfold r
    rw [hrun]
    refine ⟨?_, by rw [hret]; exact Option.some_ne_none _, fun hroom lo hb => ?_⟩
    · unfold report
      rw [hstamp, hins, hnup]
      exact hout
    · exact (hin lo hb).trans ((hin' (hroom _ _ _ _ hstamp hins hnup)).mono hb.1 (le_refl _))

theorem route_quote_out {m : Mem Byte} {msg : Parsed} {a : List Byte} {fs : List (List Byte)}
    (h : At m msg.msg (msg.msg + msg.len) a fs) (hc : Closed fs) (prfx : Int) (prfz : Nat) :
    (route_quote m msg prfx prfz).out = report (m.view prfx prfz) msg.typ fs :=
  (route_quote_spec h prfx prfz (closed_settled _ _ fs hc)).1

end Coins.Quotes.Btcc2b
