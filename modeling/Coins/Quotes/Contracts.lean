import Coins.Quotes.Inside
import Coins.Quotes.Ok2b

/-!
# The buffer of `ok2b`

`route_quote` with what it writes: a side and a price are in the buffer before it is known whether there will be a
record.
-/

open Coins.Fix Coins.Memory Coins.Numeral Coins.Pieces Coins.Questions

namespace Coins.Quotes.Ok2b.Contracts

/-! ## The code -/

/-- Within 2 fields there is 271=: true if so, and where `on` is then. -/
def sized (m : Mem Byte) (on : Int) : Mem Byte × Int × Bool :=
  let (m, eq) := memcmp m on (0 :: qty)
  if eq then (m, on, true)
  else
    -- try again
    let m := strlen m (on + 1)
    let on := on + 1 + (str m (on + 1)).length
    let (m, eq) := memcmp m on (0 :: qty)
    (m, on, eq)

/-- Once round the loop; `buf` is what is in front of the side. -/
def quote (buf : List Byte) (_ : Unit) (m : Mem Byte) (on : Int) : Prog (Turn Unit) := do
  let sd := m.cell on ^^^ chr '0'
  let m := m.read on 1
  let on := on + 1
  if 2 ≤ sd then pure ⟨m, on, (), []⟩ else
  -- copy side
  let z ← memncpy buf (f sd)
  let z ← memncpy z [tab]
  -- on should now be 270=...
  let (m, eq) := memcmp m on (0 :: prc)
  if !eq then pure ⟨m, on, (), []⟩ else
  let on := on + (0 :: prc).length
  let price := str m on
  let z ← memncpy z price
  let (m, on, eq) := sized (strlen m on) (on + price.length)
  if !eq then pure ⟨m, on, (), []⟩ else
  let on := on + (0 :: qty).length
  let z ← memncpy z [tab]
  let z ← memncpy z (str m on)
  let z ← memncpy z [nl]
  pure ⟨strlen m on, on, (), [z]⟩

/-- `while ((on = xmemmem(on, eom - on, ety, strlenof(ety))))` -/
def entries (buf : List Byte) (eom : Int) : Nat → Mem Byte → Int → Prog Routed
  | 0, m, _ => pure ⟨m, [], [], none⟩
  | fuel + 1, m, on =>
    match seek m on ((eom - on) % 2 ^ 64).toNat (0 :: ety) with
    | (m, none) => pure ⟨m, [], [], some 0⟩
    | (m, some on) => do
      let t ← quote buf () m on
      let r ← entries buf eom fuel t.mem t.on
      pure ⟨r.mem, t.out ++ r.out, r.err, r.ret⟩

/-- The time, for which `snprintf` knows the room there is, and the prefix. -/
def stamped (m : Mem Byte) (msg : Parsed) (prfx : Int) (prfz : Nat) : Prog (Mem Byte × Option (List Byte)) :=
  match seek m msg.msg msg.len (0 :: tim) with
  | (m, none) => pure (m, none)
  | (m, some on) =>
    match sent (str m on) with
    | none => pure (strlen m on, none)
    | some t => do
      let buf ← memncpy (tvtostr t) [tab]
      let buf ← memncpy buf (m.view prfx prfz)
      pure ((strlen m on).read prfx prfz, some buf)

/-- They encode the contract in field 15. -/
def contract (m : Mem Byte) (msg : Parsed) (buf : List Byte) : Prog (Mem Byte × List Byte) :=
  match seek m msg.msg msg.len (0 :: ccy) with
  | (m, none) => pure (m, buf)
  | (m, some on) => do
    let buf ← memncpy buf [chr '/']
    let buf ← memncpy buf (str m on)
    pure (strlen m on, buf)

/-- The updates of a message, with `buf` in front. -/
def updates (fuel : Nat) (buf : List Byte) (m : Mem Byte) (msg : Parsed) (rstp : Bool) : Prog Routed :=
  -- look for updates
  match seek m msg.msg msg.len (0 :: nup) with
  | (m, none) => pure ⟨m, [], [], some (-1)⟩
  | (m, some on) =>
    if rstp then do
      let reset ← memncpy buf clr
      let r ← entries buf (msg.msg + msg.len) fuel m on
      pure ⟨r.mem, reset :: r.out, r.err, r.ret⟩
    else entries buf (msg.msg + msg.len) fuel m on

/-- From the instrument on, with time and prefix in `buf`. -/
def named (fuel : Nat) (buf : List Byte) (m : Mem Byte) (msg : Parsed) (rstp : Bool) : Prog Routed :=
  match seek m msg.msg msg.len (0 :: ins) with
  | (m, none) => pure ⟨m, [], [], some (-1)⟩
  | (m, some on) => do
    let buf ← memncpy buf (str m on)
    let c ← contract (strlen m on) msg buf
    let buf ← memncpy c.2 [tab]
    updates fuel buf c.1 msg rstp

/-- The loop goes round at most `fuel` times. -/
def route_quote (fuel : Nat) (m : Mem Byte) (msg : Parsed) (prfx : Int) (prfz : Nat) (rstp : Bool) : Prog Routed := do
  let s ← stamped m msg prfx prfz
  match s.2 with
  | none => pure ⟨s.1, [], [], some (-1)⟩
  | some buf => named fuel buf s.1 msg rstp

/-! ## What is printed -/

section
variable (env : (c : Cell) → c.Ans)

theorem quote_sized (buf : List Byte) (m : Mem Byte) (on : Int) :
    Ok2b.quote buf () m on =
      if 2 ≤ m.cell on ^^^ chr '0' then ⟨m.read on 1, on + 1, (), []⟩
      else
        let (c, eq) := memcmp (m.read on 1) (on + 1) (0 :: prc)
        if !eq then ⟨c, on + 1, (), []⟩
        else
          let p := on + 1 + (0 :: prc).length
          let (c', on', eq) := sized (strlen c p) (p + (str c p).length)
          if !eq then ⟨c', on', (), []⟩
          else
            let q := on' + (0 :: qty).length
            ⟨strlen c' q, q, (), [buf ++ f (m.cell on ^^^ chr '0') ++ [tab] ++ str c p ++ [tab] ++ str c' q ++ [nl]]⟩ :=
  rfl

theorem eval_quote (buf : List Byte) (m : Mem Byte) (on : Int) :
    (quote buf () m on).eval env = Ok2b.quote buf () m on := by
  rw [quote_sized]
  unfold quote
  simp only
  generalize memcmp (m.read on 1) (on + 1) (0 :: prc) = c
  generalize sized (strlen c.1 (on + 1 + (0 :: prc).length)) _ = r
  split
  · rfl
  · simp only [Query.eval_bind, eval_memncpy]
    split
    · rfl
    · simp only [Query.eval_bind, eval_memncpy]
      split
      · rfl
      · simp only [Query.eval_bind, eval_memncpy, Query.eval_pure]

theorem eval_entries (buf : List Byte) (eom : Int) (fuel : Nat) (m : Mem Byte) (on : Int) :
    (entries buf eom fuel m on).eval env = Quotes.entries (Ok2b.quote buf) eom fuel () m on := by
  induction fuel generalizing m on with
  | zero => rfl
  | succ fuel ih =>
    unfold entries Quotes.entries
    cases seek m on ((eom - on) % 2 ^ 64).toNat (0 :: ety) with
    | mk m on =>
      cases on with
      | none => rfl
      | some on =>
        simp only [Query.eval_bind, Query.eval_pure, eval_quote, ih]

theorem eval_stamped (m : Mem Byte) (msg : Parsed) (prfx : Int) (prfz : Nat) :
    (stamped m msg prfx prfz).eval env = Quotes.stamped m msg prfx prfz := by
  unfold stamped Quotes.stamped
  cases seek m msg.msg msg.len (0 :: tim) with
  | mk m on =>
    cases on with
    | none => rfl
    | some on =>
      simp only
      cases sent (str m on) with
      | none => rfl
      | some t => simp

theorem eval_contract (m : Mem Byte) (msg : Parsed) (buf : List Byte) :
    (contract m msg buf).eval env = ((Ok2b.contract m msg).1, buf ++ (Ok2b.contract m msg).2) := by
  unfold contract Ok2b.contract
  cases seek m msg.msg msg.len (0 :: ccy) with
  | mk m on => cases on <;> simp

theorem eval_updates (buf : List Byte) (m : Mem Byte) (msg : Parsed) (rstp : Bool) :
    (updates (msg.len + 1) buf m msg rstp).eval env =
      match seek m msg.msg msg.len (0 :: nup) with
      | (m, none) => ⟨m, [], [], some (-1)⟩
      | (m, some on) =>
        let r := Quotes.entries (Ok2b.quote buf) (msg.msg + msg.len) (msg.len + 1) () m on
        ⟨r.mem, (if rstp then [buf ++ clr] else []) ++ r.out, r.err, r.ret⟩ := by
  unfold updates
  cases seek m msg.msg msg.len (0 :: nup) with
  | mk m on =>
    cases on with
    | none => rfl
    | some on => cases rstp <;> simp [eval_entries]

theorem eval_route_quote (m : Mem Byte) (msg : Parsed) (prfx : Int) (prfz : Nat) (rstp : Bool) :
    (route_quote (msg.len + 1) m msg prfx prfz rstp).eval env = Ok2b.route_quote m msg prfx prfz rstp := by
  unfold route_quote Ok2b.route_quote
  rw [Query.eval_bind, eval_stamped]
  cases Quotes.stamped m msg prfx prfz with
  | mk m s =>
    cases s with
    | none => rfl
    | some buf =>
      simp only
      unfold named
      cases seek m msg.msg msg.len (0 :: ins) with
      | mk m on =>
        cases on with
        | none => rfl
        | some on =>
          simp only [Query.eval_bind, eval_memncpy, eval_contract]
          exact eval_updates env _ _ msg rstp

end

/-! ## What has to fit -/

/-- What is copied for an entry. -/
structure Entry where
  price : Option (List Byte)
  size : Option (List Byte)

/-- With the side and the separators. -/
def Entry.len (e : Entry) : Nat := 5 + e.price.elim 0 List.length + e.size.elim 0 (·.length + 2)

/-- `on` is behind the side, where 270= has to be. -/
def fieldsAt (m : Mem Byte) (on : Int) : Entry × Int :=
  let c := memcmp m on (0 :: prc)
  if !c.2 then (⟨none, none⟩, on)
  else
    let on := on + (0 :: prc).length
    let r := sized m (on + (str m on).length)
    if !r.2.2 then (⟨some (str m on), none⟩, r.2.1)
    else
      let q := r.2.1 + (0 :: qty).length
      (⟨some (str m on), some (str m q)⟩, q)

/-- The bids and asks among the entries of a message. -/
def entriesOf (m : Mem Byte) (eom : Int) : Nat → Int → List Entry
  | 0, _ => []
  | fuel + 1, on =>
    match (seek m on ((eom - on) % 2 ^ 64).toNat (0 :: ety)).2 with
    | none => []
    | some on =>
      if 2 ≤ m.cell on ^^^ chr '0' then entriesOf m eom fuel (on + 1)
      else
        let e := fieldsAt m (on + 1)
        e.1 :: entriesOf m eom fuel e.2

/-- The time and the prefix, if there is a time. -/
def stampLen (m : Mem Byte) (msg : Parsed) (prfz : Nat) : Option Nat :=
  (seek m msg.msg msg.len (0 :: tim)).2.bind fun on =>
    (sent (str m on)).map fun t => (tvtostr t).length + 1 + prfz

/-- The contract, with a slash. -/
def contractLen (m : Mem Byte) (msg : Parsed) : Nat :=
  (seek m msg.msg msg.len (0 :: ccy)).2.elim 0 fun on => (str m on).length + 1

/-- Behind `h` bytes. -/
def UpdatesFit (fuel h : Nat) (m : Mem Byte) (msg : Parsed) (rstp : Bool) : Prop :=
  match (seek m msg.msg msg.len (0 :: nup)).2 with
  | none => True
  | some on =>
    (rstp = true → h + 7 ≤ 256) ∧ ∀ e ∈ entriesOf m (msg.msg + msg.len) fuel on, h + e.len ≤ 256

def NamedFit (fuel h : Nat) (m : Mem Byte) (msg : Parsed) (rstp : Bool) : Prop :=
  match (seek m msg.msg msg.len (0 :: ins)).2 with
  | none => True
  | some on =>
    let h := h + (str m on).length + contractLen m msg + 1
    h ≤ 256 ∧ UpdatesFit fuel h m msg rstp

/-- There is room for the time and the prefix, and for what there is behind them. -/
def MessageFits (fuel : Nat) (m : Mem Byte) (msg : Parsed) (prfz : Nat) (rstp : Bool) : Prop :=
  match stampLen m msg prfz with
  | none => True
  | some h => h ≤ 256 ∧ NamedFit fuel h m msg rstp

section
variable {env : (c : Cell) → c.Ans}

/-! ### Reading leaves the text as it is -/

theorem memcmp_reads {m m' : Mem Byte} (h : Reads m m') (p : Int) (k : List Byte) :
    (memcmp m' p k).2 = (memcmp m p k).2 := by
  unfold memcmp
  rw [h.view]

theorem seek_reads {m m' : Mem Byte} (h : Reads m m') (p : Int) (n : Nat) (k : List Byte) :
    (seek m' p n k).2 = (seek m p n k).2 := by
  unfold seek
  rw [h.view]

theorem reads_sized (m : Mem Byte) (on : Int) : Reads m (sized m on).1 := by
  unfold sized
  simp only
  split <;> exact ⟨rfl, rfl⟩

theorem sized_reads {m m' : Mem Byte} (h : Reads m m') (on : Int) : (sized m' on).2 = (sized m on).2 := by
  unfold sized
  simp only [memcmp, strlen, Mem.view_read, str_read, h.view, h.str]
  split <;> rfl

theorem reads_quote (buf : List Byte) (m : Mem Byte) (on : Int) : Reads m (Ok2b.quote buf () m on).mem := by
  rw [quote_sized]
  simp only
  split
  · exact ⟨rfl, rfl⟩
  · split
    · exact ⟨rfl, rfl⟩
    · split
      · exact Reads.trans ⟨rfl, rfl⟩ (reads_sized _ _)
      · exact Reads.trans ⟨rfl, rfl⟩ (reads_sized _ _)

theorem fieldsAt_reads {m m' : Mem Byte} (h : Reads m m') (on : Int) : fieldsAt m' on = fieldsAt m on := by
  unfold fieldsAt
  simp only [memcmp_reads h, sized_reads h, h.str]

/-! ### Entries -/

theorem length_f (sd : Byte) : (f sd).length = 4 := by
  unfold f
  split <;> rfl

section
variable (buf : List Byte) (m : Mem Byte) (on : Int)

theorem quote_on :
    (Ok2b.quote buf () m on).on = if 2 ≤ m.cell on ^^^ chr '0' then on + 1 else (fieldsAt m (on + 1)).2 := by
  have hkey : Reads m (m.read on 1) := ⟨rfl, rfl⟩
  have hprice : Reads m (memcmp (m.read on 1) (on + 1) (0 :: prc)).1 := ⟨rfl, rfl⟩
  have hsize : ∀ p : Int, Reads m (strlen (memcmp (m.read on 1) (on + 1) (0 :: prc)).1 p) := fun _ => ⟨rfl, rfl⟩
  rw [quote_sized]
  unfold fieldsAt
  simp only [memcmp_reads hkey, hprice.str, sized_reads (hsize _)]
  split
  · rfl
  · split
    · rfl
    · split <;> rfl

theorem inside_quote :
    Inside env (quote buf () m on) ↔
      (¬ 2 ≤ m.cell on ^^^ chr '0' → buf.length + (fieldsAt m (on + 1)).1.len ≤ 256) := by
  have hkey : Reads m (m.read on 1) := ⟨rfl, rfl⟩
  have hprice : Reads m (memcmp (m.read on 1) (on + 1) (0 :: prc)).1 := ⟨rfl, rfl⟩
  have hsize : ∀ p : Int, Reads m (strlen (memcmp (m.read on 1) (on + 1) (0 :: prc)).1 p) := fun _ => ⟨rfl, rfl⟩
  have hlast : ∀ p q : Int, Reads m (sized (strlen (memcmp (m.read on 1) (on + 1) (0 :: prc)).1 p) q).1 :=
    fun p q => (hsize p).trans (reads_sized _ q)
  unfold quote fieldsAt
  simp only [memcmp_reads hkey, hprice.str, sized_reads (hsize _), (hlast _ _).str, inside_ite, inside_bind,
    inside_memncpy, eval_memncpy, inside_pure, List.length_append, List.length_singleton, length_f, and_true]
  generalize str m (on + 1 + (0 :: prc).length) = price
  generalize sized m (on + 1 + (0 :: prc).length + price.length) = r
  generalize str m (r.2.1 + (0 :: qty).length) = size
  by_cases hsd : 2 ≤ m.cell on ^^^ chr '0'
  · simp [hsd]
  · rw [if_neg hsd, imp_iff_right hsd]
    cases (memcmp m (on + 1) (0 :: prc)).2 with
    | false =>
      simp only [Bool.not_false, if_true, and_true, Entry.len, Option.elim_none]
      omega
    | true =>
      simp only [Bool.not_true, Bool.false_eq_true, if_false]
      cases r.2.2 with
      | false =>
        simp only [Bool.not_false, if_true, and_true, Entry.len, Option.elim_some,
          Option.elim_none]
        omega
      | true =>
        simp only [Bool.not_true, Bool.false_eq_true, if_false, Entry.len, Option.elim_some]
        omega

end

theorem inside_entries (buf : List Byte) {m0 : Mem Byte} (eom : Int) (fuel : Nat) (m : Mem Byte) (on : Int)
    (h : Reads m0 m) :
    Inside env (entries buf eom fuel m on) ↔ ∀ e ∈ entriesOf m0 eom fuel on, buf.length + e.len ≤ 256 := by
  induction fuel generalizing m on with
  | zero => simp [entries, entriesOf]
  | succ fuel ih =>
    have hmem : Reads m (seek m on ((eom - on) % 2 ^ 64).toNat (0 :: ety)).1 := ⟨rfl, rfl⟩
    unfold entries entriesOf
    rw [← seek_reads h]
    generalize seek m on ((eom - on) % 2 ^ 64).toNat (0 :: ety) = s at hmem
    obtain ⟨m', on'⟩ := s
    cases on' with
    | none => simp
    | some on' =>
      have hr : Reads m0 m' := h.trans hmem
      have hcell : m'.cell = m0.cell := hr.1
      have hnext := hr.trans (reads_quote buf m' on')
      simp only [inside_bind, inside_pure, and_true, inside_quote, eval_quote, ih _ _ hnext, quote_on,
        fieldsAt_reads hr, hcell]
      split
      · rename_i hsd
        simp [hsd]
      · rename_i hsd
        simp [hsd]

/-! ### Messages -/

theorem reads_seek {m m' : Mem Byte} {p : Int} {n : Nat} {k : List Byte} {on : Option Int}
    (h : seek m p n k = (m', on)) : Reads m m' := by
  obtain ⟨rfl, -⟩ := Prod.mk.inj h
  exact ⟨rfl, rfl⟩

theorem reads_contract (m : Mem Byte) (msg : Parsed) : Reads m (Ok2b.contract m msg).1 := by
  unfold Ok2b.contract
  split
  · rename_i h
    exact reads_seek h
  · rename_i h
    exact (reads_seek h).trans ⟨rfl, rfl⟩

theorem contract_length {m m' : Mem Byte} (h : Reads m m') (msg : Parsed) :
    (Ok2b.contract m' msg).2.length = contractLen m msg := by
  unfold contractLen Ok2b.contract
  rw [← seek_reads h]
  cases hs : seek m' msg.msg msg.len (0 :: ccy) with
  | mk m'' on =>
    cases on with
    | none => rfl
    | some on =>
      rw [Option.elim_some, ← (h.trans (reads_seek hs)).str]
      rfl

theorem stamped_length (m : Mem Byte) (msg : Parsed) (prfx : Int) (prfz : Nat) :
    (Quotes.stamped m msg prfx prfz).2.map List.length = stampLen m msg prfz := by
  unfold stampLen Quotes.stamped
  cases hs : seek m msg.msg msg.len (0 :: tim) with
  | mk m' on =>
    cases on with
    | none => rfl
    | some on =>
      simp only [Option.bind_some, (reads_seek hs).str]
      cases sent (str m on) with
      | none => rfl
      | some t =>
        simp only [Option.map_some, List.length_append, List.length_singleton, Mem.view_length]

theorem reads_stamped (m : Mem Byte) (msg : Parsed) (prfx : Int) (prfz : Nat) :
    Reads m (Quotes.stamped m msg prfx prfz).1 := by
  unfold Quotes.stamped
  split
  · rename_i h
    exact reads_seek h
  · rename_i h
    split
    · exact (reads_seek h).trans ⟨rfl, rfl⟩
    · exact (reads_seek h).trans ⟨rfl, rfl⟩

theorem inside_contract (m : Mem Byte) (msg : Parsed) (buf : List Byte)
    (h : buf.length + (Ok2b.contract m msg).2.length ≤ 256) : Inside env (contract m msg buf) := by
  unfold contract Ok2b.contract at *
  generalize seek m msg.msg msg.len (0 :: ccy) = s at *
  obtain ⟨m', on⟩ := s
  cases on with
  | none => exact inside_pure _
  | some on =>
    simp only [List.length_cons] at h
    simp only [inside_bind, inside_memncpy, eval_memncpy, inside_pure, List.length_append, List.length_singleton,
      and_true]
    omega

theorem inside_updates (fuel : Nat) (buf : List Byte) {m0 m : Mem Byte} (h : Reads m0 m) (msg : Parsed) (rstp : Bool) :
    Inside env (updates fuel buf m msg rstp) ↔ UpdatesFit fuel buf.length m0 msg rstp := by
  unfold updates UpdatesFit
  rw [← seek_reads h]
  cases hs : seek m msg.msg msg.len (0 :: nup) with
  | mk m' on =>
    have hr := h.trans (reads_seek hs)
    have hclr : clr.length = 7 := by decide
    cases on with
    | none => simp
    | some on =>
      cases rstp with
      | true => simp [inside_entries buf _ _ m' on hr, hclr]
      | false => simp [inside_entries buf _ _ m' on hr]

theorem inside_named (fuel : Nat) (buf : List Byte) {m0 m : Mem Byte} (h : Reads m0 m) (msg : Parsed) (rstp : Bool) :
    Inside env (named fuel buf m msg rstp) ↔ NamedFit fuel buf.length m0 msg rstp := by
  unfold named NamedFit
  rw [← seek_reads h]
  cases hs : seek m msg.msg msg.len (0 :: ins) with
  | mk m' on =>
    have hr := h.trans (reads_seek hs)
    cases on with
    | none => simp
    | some on =>
      have hread : Reads m0 (strlen m' on) := hr.trans ⟨rfl, rfl⟩
      have hcontract : _ → Inside env (contract (strlen m' on) msg (buf ++ str m' on)) := inside_contract _ _ _
      simp only [inside_bind, inside_memncpy, eval_memncpy, eval_contract, List.length_append, List.length_singleton,
        inside_updates fuel _ (hread.trans (reads_contract _ msg)), contract_length hread, hr.str] at hcontract ⊢
      constructor
      · rintro ⟨-, -, htab, hmore⟩
        exact ⟨htab, hmore⟩
      · rintro ⟨htab, hmore⟩
        exact ⟨by omega, hcontract (by omega), htab, hmore⟩

theorem inside_stamped (m : Mem Byte) (msg : Parsed) (prfx : Int) (prfz : Nat) :
    Inside env (stamped m msg prfx prfz) ↔ ∀ buf, (Quotes.stamped m msg prfx prfz).2 = some buf → buf.length ≤ 256 := by
  unfold stamped Quotes.stamped
  cases seek m msg.msg msg.len (0 :: tim) with
  | mk m on =>
    cases on with
    | none => simp
    | some on =>
      simp only
      cases sent (str m on) with
      | none => simp
      | some t =>
        simp only [inside_bind, inside_memncpy, eval_memncpy, inside_pure, List.length_append, List.length_singleton,
          Option.some.injEq, forall_eq', and_true]
        omega

/-- **Everything fits** if and only if time, prefix, instrument and contract do, and each entry behind them. -/
theorem inside_route_quote (fuel : Nat) (m : Mem Byte) (msg : Parsed) (prfx : Int) (prfz : Nat) (rstp : Bool) :
    Inside env (route_quote fuel m msg prfx prfz rstp) ↔ MessageFits fuel m msg prfz rstp := by
  have hr := reads_stamped m msg prfx prfz
  unfold route_quote MessageFits
  rw [inside_bind, eval_stamped, inside_stamped, ← stamped_length m msg prfx prfz]
  cases (Quotes.stamped m msg prfx prfz).2 with
  | none => simp
  | some buf =>
    simp only [Option.some.injEq, forall_eq', Option.map_some]
    rw [inside_named fuel buf hr]

end

/-! ## Lines -/

/-- The message of a line that `procln` passes on, behind `prfz` bytes. -/
structure Passed where
  mem : Mem Byte
  msg : Parsed
  prfz : Nat

def passed (m : Mem Byte) (ln : Int) (lz : Nat) : Option Passed :=
  let prfz := match upto tab (m.view ln lz) with
    | some (a, _) => a.length + 1
    | none => 0
  let (m, msg) := parse bar (m.read ln (if prfz = 0 then lz else prfz)) (ln + prfz) (lz - prfz)
  if msg.typ = chr 'W' ∨ msg.typ = chr 'X' then some ⟨m, msg, prfz⟩ else none

def Passed.prog (p : Passed) (ln : Int) (fuel : Nat) : Prog Routed :=
  route_quote fuel p.mem p.msg ln p.prfz (p.msg.typ = chr 'W')

theorem procln_passed (m : Mem Byte) (ln : Int) (lz : Nat) (env : (c : Cell) → c.Ans) :
    (Ok2b.procln m ln lz).out = match passed m ln lz with
      | none => []
      | some p => ((p.prog ln (p.msg.len + 1)).eval env).out := by
  have hroute : ∀ (w : Mem Byte) (msg : Parsed) (prfz : Nat),
      Ok2b.route_quote w msg ln prfz (msg.typ = chr 'W') =
        ((Passed.mk w msg prfz).prog ln (msg.len + 1)).eval env :=
    fun w msg prfz => (eval_route_quote env w msg ln prfz _).symm
  unfold Ok2b.procln procln_with passed
  -- with or without a tab, what is parsed decides
  rcases upto tab (m.view ln lz) with _ | lead
  all_goals
    simp only [hroute]
    generalize parse bar _ _ _ = r
    by_cases htyp : r.2.typ = chr 'W' ∨ r.2.typ = chr 'X'
    · simp only [if_pos htyp]
    · simp only [if_neg htyp]
      split
      · rfl
      · split <;> rfl

/-- Nothing is written behind the buffer for the line. -/
def Contained (old : (c : Cell) → c.Ans) (m : Mem Byte) (ln : Int) (lz : Nat) : Prop :=
  match passed m ln lz with
  | none => True
  | some p => ∀ fuel, Inside old (p.prog ln fuel)

/-- If the line has a message that is passed on there is room for it. -/
def Fits (m : Mem Byte) (ln : Int) (lz : Nat) : Prop :=
  match passed m ln lz with
  | none => True
  | some p => ∀ fuel, MessageFits fuel p.mem p.msg p.prfz (p.msg.typ = chr 'W')

theorem contained_iff (old : (c : Cell) → c.Ans) (m : Mem Byte) (ln : Int) (lz : Nat) :
    Contained old m ln lz ↔ Fits m ln lz := by
  unfold Contained Fits
  cases passed m ln lz with
  | none => rfl
  | some p => exact forall_congr' fun fuel => inside_route_quote ..

end Coins.Quotes.Ok2b.Contracts
