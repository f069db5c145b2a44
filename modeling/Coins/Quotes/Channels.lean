import Coins.Lib.Transducer
import Coins.Quotes.Bitfin2b

/-!
# Channels of `bitfin2b`

An event is printed under the name and the kind of the last confirmation of its channel. A channel has
an id of 8 bits, so ids that are equal modulo 256 are one channel.
-/

open Coins.Numeral Coins.Search Coins.Transducer Coins.Xmemmem

namespace Coins.Quotes.Bitfin2b

open btf_side_t btf_subt_t

/-! ## Names -/

theorem instostr_strtoins (s : btf_ins_t) (ins : List Byte) (h : ins.length ≤ 15) :
    instostr (strtoins s ins) = ins := by
  have hz : (UInt8.ofNat (15 - ins.length)).toNat = 15 - ins.length := by
    rw [UInt8.toNat_ofNat']
    omega
  have hback : 15 - (15 - ins.length) = ins.length := by omega
  unfold instostr strtoins
  simp only [if_pos (show ins.length < 16 by omega), List.take_length]
  rw [List.getLastD_concat, hz, hback, List.append_assoc, List.take_left]

/-! ## Records -/

/-- The digit of a kind of records. -/
def flavour : btf_subt_t → Byte
  | SUBT_BOK => chr '2'
  | SUBT_TOP => chr '1'
  | SUBT_TRA => chr '0'
  | SUBT_UNK => 0

/-- A record of the time `t` that carries the name `ins` and the kind `st`. -/
def Carries (t : tv_t) (ins : List Byte) (st : btf_subt_t) (record : List Byte) : Prop :=
  ∃ side rest, record = tvtostr t ++ [tab] ++ ins ++ [tab] ++ [side, flavour st, tab] ++ rest

section
variable (p : Processor) (ci : btf_chid_t)

theorem level_carries (q on : List Byte) (r : List Byte × List Byte × List Byte)
    (h : level (label p ci) q on = some r) :
    Carries p.metr (instostr (p.subins ci)) SUBT_BOK r.1 := by
  unfold level at h
  split at h
  · cases h
  · simp only at h
    split at h
    · cases h
    · split at h
      · split at h
        · cases h
        · obtain rfl := Option.some.inj h
          exact ⟨_, _, by simp only [label, List.append_assoc]; rfl⟩
      · obtain rfl := Option.some.inj h
        exact ⟨_, _, by simp only [label, List.append_assoc]; rfl⟩

theorem levels_carries (fuel : Nat) (q on : List Byte) :
    ∀ r ∈ (levels (label p ci) fuel q on).out,
      Carries p.metr (instostr (p.subins ci)) SUBT_BOK r := by
  induction fuel generalizing q on with
  | zero => simp [levels, failed]
  | succ fuel ih =>
    unfold levels
    cases hl : level (label p ci) q on with
    | none => simp [failed]
    | some s =>
      obtain ⟨record, q', on'⟩ := s
      have hrecord := level_carries p ci q on _ hl
      simp only
      split
      · simp only [List.forall_mem_cons]
        exact ⟨hrecord, ih q' on'.tail.tail⟩
      · simp only [List.forall_mem_singleton]
        exact hrecord

theorem evttop_carries (line : List Byte) :
    ∀ r ∈ (evttop p line ci).out, Carries p.metr (instostr (p.subins ci)) SUBT_TOP r := by
  have hnone : ∀ r ∈ failed.out, Carries p.metr (instostr (p.subins ci)) SUBT_TOP r := by
    simp [failed]
  unfold evttop
  split
  · exact hnone
  · split
    · exact hnone
    · split
      · exact hnone
      · split
        · exact hnone
        · simp only [List.forall_mem_cons]
          exact ⟨⟨_, _, by simp only [label, List.append_assoc]; rfl⟩,
            ⟨_, _, by simp only [label, List.append_assoc]; rfl⟩, by simp⟩

theorem evttra_carries (wild line : List Byte) :
    ∀ r ∈ (evttra p wild line ci).out, Carries p.metr (instostr (p.subins ci)) SUBT_TRA r := by
  unfold evttra
  split
  · simp [failed]
  · simp only
    split
    · simp [failed]
    · simp only [List.forall_mem_singleton]
      exact ⟨_, _, by simp only [label, List.append_assoc]; rfl⟩

end

/-! ## Lines -/

/-- A channel id in decimal that an `unsigned long` can hold. -/
structure ChanId where
  digits : List Byte
  ne : digits ≠ []
  dec : ∀ b ∈ digits, isDigit 10 b = true
  le : digitsVal 10 digits ≤ ulongMax

def ChanId.val (c : ChanId) : Nat := digitsVal 10 c.digits

theorem ChanId.scan (c : ChanId) (t : Byte) (rest : List Byte) (ht : isDigit 10 t = false) :
    strtoul 10 (c.digits ++ t :: rest) = ⟨c.val, c.digits.length, c.digits.length + 1⟩ := by
  have h := strtoul_number 10 (by omega) [] c.digits t rest (by simp) c.dec c.ne ht (by simp)
  rw [if_neg (not_lt.mpr c.le)] at h
  simp only [List.nil_append, List.length_nil, Nat.zero_add] at h
  exact h

/-- What a confirmation begins with. -/
def opening : btf_subt_t → List Byte
  | SUBT_BOK => sbok
  | SUBT_TOP => stop
  | _ => stra

/-- The confirmation of a subscription: `between` is what else it says in front of the pair. -/
structure Confirmation where
  stamp : Stamp
  st : btf_subt_t
  known : st ≠ SUBT_UNK
  chan : ChanId
  between : List Byte
  ins : List Byte
  rest : List Byte
  ended : isDigit 10 (deref (between ++ pair)) = false
  first : find pair (chan.digits ++ between ++ pair ++ [chr '"'] ++ ins ++ [chr '"'] ++ rest) =
    some (chan.digits ++ between).length
  quoted : chr '"' ∉ ins
  short : ins.length ≤ 15

def Confirmation.text (c : Confirmation) : List Byte :=
  c.stamp.text ++ tab :: chr '{' :: (opening c.st ++ (c.chan.digits ++ c.between ++ pair ++
    [chr '"'] ++ c.ins ++ [chr '"'] ++ c.rest))

structure Event where
  stamp : Stamp
  chan : ChanId
  body : List Byte
  wild : List Byte

def Event.text (e : Event) : List Byte :=
  e.stamp.text ++ tab :: chr '[' :: (e.chan.digits ++ chr ',' :: e.body)

inductive Line
  | confirm (c : Confirmation)
  | event (e : Event)

/-- One line: the tables, and what comes of it. -/
def process (p : Processor) : Line → Processor × List Printed
  | .confirm c => let r := procln p [] c.text; (r.1, [r.2])
  | .event e => let r := procln p e.wild e.text; (r.1, [r.2])

/-- The last of some confirmations whose channel has the key `k`. -/
def latest (key : Nat → Nat) (ls : List Line) (k : Nat) : Option Confirmation :=
  ls.foldl (fun o l => match l with
    | .confirm c => if key c.chan.val = k then some c else o
    | .event _ => o) none

/-- What has to come of an event after the lines `ls`. -/
def Attributed (key : Nat → Nat) (ls : List Line) (e : Event) (r : Printed) : Prop :=
  match latest key ls (key e.chan.val) with
  | none => r = failed
  | some c => ∀ record ∈ r.out, Carries e.stamp.tv c.ins c.st record

/-! ## Confirmations -/

theorem subscr_chan_spec (p : Processor) (st : btf_subt_t) (c : Confirmation) :
    subscr_chan p st (c.chan.digits ++ c.between ++ pair ++ [chr '"'] ++ c.ins ++ [chr '"'] ++ c.rest) =
      ({ p with
        subins := update p.subins (UInt8.ofNat c.chan.val)
          (strtoins (p.subins (UInt8.ofNat c.chan.val)) c.ins)
        subtys := update p.subtys (UInt8.ofNat c.chan.val) st }, ⟨0, []⟩) := by
  obtain ⟨t, u, htu⟩ := List.exists_cons_of_ne_nil
    (show c.between ++ pair ≠ [] by simp [pair, ascii])
  have hval : (strtoul 10 (c.chan.digits ++ c.between ++ pair ++ [chr '"'] ++ c.ins ++ [chr '"'] ++
      c.rest)).val = c.chan.val := by
    have hended := c.ended
    rw [htu] at hended
    have h := c.chan.scan t (u ++ [chr '"'] ++ c.ins ++ [chr '"'] ++ c.rest) hended
    rw [← List.cons_append, ← List.cons_append, ← List.cons_append, ← List.cons_append, ← htu] at h
    simp only [List.append_assoc] at h ⊢
    rw [h]
  have hdrop : (c.chan.digits ++ c.between ++ pair ++ [chr '"'] ++ c.ins ++ [chr '"'] ++ c.rest).drop
      ((c.chan.digits ++ c.between).length + pair.length) = chr '"' :: (c.ins ++ chr '"' :: c.rest) := by
    have htext : c.chan.digits ++ c.between ++ pair ++ [chr '"'] ++ c.ins ++ [chr '"'] ++ c.rest =
        c.chan.digits ++ c.between ++ pair ++ chr '"' :: (c.ins ++ chr '"' :: c.rest) := by simp
    rw [htext, ← List.length_append, List.drop_left]
  unfold subscr_chan
  rw [hval, xmemmem_spec, c.first]
  simp only [hdrop]
  rw [if_neg (by simp [deref]), List.tail_cons, upto_some _ _ _ c.quoted]

theorem opening_apart (a b body : List Byte) (hle : a.length ≤ b.length) (h : ¬ a <+: b) :
    ¬ a <+: b ++ body := fun hp =>
  h (List.prefix_of_prefix_length_le hp (List.prefix_append b body) hle)

theorem subscr_spec (p : Processor) (st : btf_subt_t) (hst : st ≠ SUBT_UNK) (body : List Byte)
    (hbody : 3 ≤ body.length) : subscr p (opening st ++ body) = subscr_chan p st body := by
  have hlong : stra.length = sbok.length + 2 := by decide
  have hsame : stop.length = stra.length := by decide
  unfold subscr
  cases st with
  | SUBT_UNK => exact absurd rfl hst
  | SUBT_BOK =>
    have hopen : opening SUBT_BOK = sbok := rfl
    rw [hopen, if_neg (by rw [List.length_append]; omega), if_pos (List.prefix_append sbok body),
      List.drop_left]
  | SUBT_TOP =>
    have hopen : opening SUBT_TOP = stop := rfl
    rw [hopen, if_neg (by rw [List.length_append]; omega),
      if_neg (opening_apart sbok stop body (by omega) (by decide)),
      if_pos (List.prefix_append stop body), List.drop_left]
  | SUBT_TRA =>
    have hopen : opening SUBT_TRA = stra := rfl
    rw [hopen, if_neg (by rw [List.length_append]; omega),
      if_neg (opening_apart sbok stra body (by omega) (by decide)),
      if_neg (opening_apart stop stra body (by omega) (by decide)),
      if_pos (List.prefix_append stra body), List.drop_left]

theorem procln_confirm (p : Processor) (wild : List Byte) (c : Confirmation) :
    procln p wild c.text = ({
      metr := c.stamp.tv
      subins := update p.subins (UInt8.ofNat c.chan.val)
        (strtoins (p.subins (UInt8.ofNat c.chan.val)) c.ins)
      subtys := update p.subtys (UInt8.ofNat c.chan.val) c.st }, ⟨0, []⟩) := by
  have hbody : 3 ≤ (c.chan.digits ++ c.between ++ pair ++ [chr '"'] ++ c.ins ++ [chr '"'] ++
      c.rest).length := by
    have : pair.length = 7 := by decide
    simp only [List.length_append]
    omega
  unfold procln Confirmation.text
  rw [c.stamp.reads]
  simp only [if_neg c.stamp.valid, deref_cons, List.tail_cons, ne_eq, not_true_eq_false, if_false,
    if_true]
  rw [subscr_spec _ c.st c.known _ hbody, subscr_chan_spec]

theorem procln_event (p : Processor) (e : Event) :
    procln p e.wild e.text = ({ p with metr := e.stamp.tv },
      events { p with metr := e.stamp.tv } e.wild (e.chan.digits ++ chr ',' :: e.body)) := by
  unfold procln Event.text
  rw [e.stamp.reads]
  simp only [if_neg e.stamp.valid]
  rfl

/-! ## Events -/

theorem events_unknown (p : Processor) (wild body : List Byte) (c : ChanId)
    (h : p.subtys (UInt8.ofNat c.val) = SUBT_UNK) :
    events p wild (c.digits ++ chr ',' :: body) = failed := by
  unfold events
  rw [c.scan (chr ',') body (by decide)]
  simp only [List.drop_left, deref_cons, ne_eq, not_true_eq_false, if_false, h]

theorem events_carries (p : Processor) (wild body : List Byte) (c : ChanId) (st : btf_subt_t)
    (hst : st ≠ SUBT_UNK) (h : p.subtys (UInt8.ofNat c.val) = st) :
    ∀ r ∈ (events p wild (c.digits ++ chr ',' :: body)).out,
      Carries p.metr (instostr (p.subins (UInt8.ofNat c.val))) st r := by
  unfold events
  rw [c.scan (chr ',') body (by decide)]
  simp only [List.drop_left, deref_cons, ne_eq, not_true_eq_false, if_false, h, List.tail_cons]
  cases st with
  | SUBT_UNK => exact absurd rfl hst
  | SUBT_BOK => exact levels_carries p _ _ _ _
  | SUBT_TOP => exact evttop_carries p _ _
  | SUBT_TRA => exact evttra_carries p _ _ _

/-! ## Runs -/

theorem latest_concat (key : Nat → Nat) (ls : List Line) (l : Line) (k : Nat) :
    latest key (ls ++ [l]) k =
      match l with
      | .confirm c => if key c.chan.val = k then some c else latest key ls k
      | .event _ => latest key ls k := by
  unfold latest
  rw [List.foldl_append]
  rfl

/-- The tables have the last confirmation of every channel. -/
def Knows (ls : List Line) (p : Processor) : Prop :=
  ∀ n : Nat, match latest (· % 256) ls (n % 256) with
    | none => p.subtys (UInt8.ofNat n) = SUBT_UNK
    | some c => p.subtys (UInt8.ofNat n) = c.st ∧ instostr (p.subins (UInt8.ofNat n)) = c.ins

theorem chid_eq (m n : Nat) : UInt8.ofNat m = UInt8.ofNat n ↔ m % 256 = n % 256 := by
  rw [← UInt8.toNat_inj, UInt8.toNat_ofNat', UInt8.toNat_ofNat']

theorem process_confirm (p : Processor) (c : Confirmation) :
    (process p (.confirm c)).1 = {
      metr := c.stamp.tv
      subins := update p.subins (UInt8.ofNat c.chan.val)
        (strtoins (p.subins (UInt8.ofNat c.chan.val)) c.ins)
      subtys := update p.subtys (UInt8.ofNat c.chan.val) c.st } := by
  simp only [process, procln_confirm]

theorem process_event (p : Processor) (e : Event) :
    (process p (.event e)).1 = { p with metr := e.stamp.tv } := by
  simp only [process, procln_event]

theorem knows_step (ls : List Line) (l : Line) (p : Processor) (h : Knows ls p) :
    Knows (ls ++ [l]) (process p l).1 := by
  intro n
  have hn := h n
  rw [latest_concat]
  cases l with
  | event e =>
    rw [process_event]
    exact hn
  | confirm c =>
    rw [process_confirm]
    unfold update
    simp only
    by_cases hk : c.chan.val % 256 = n % 256
    · rw [if_pos hk, if_pos ((chid_eq _ _).mpr hk.symm), if_pos ((chid_eq _ _).mpr hk.symm)]
      exact ⟨rfl, instostr_strtoins _ _ c.short⟩
    · have hne : ¬ UInt8.ofNat n = UInt8.ofNat c.chan.val := fun he => hk ((chid_eq _ _).mp he).symm
      rw [if_neg hk, if_neg hne, if_neg hne]
      exact hn

theorem knows_run (ls : List Line) : Knows ls (feed process init ls).1 := by
  induction ls using List.reverseRecOn with
  | nil => exact fun _ => rfl
  | append_singleton ls l ih =>
    rw [feed_concat]
    exact knows_step ls l _ ih

/-- After any lines an event is printed as the last confirmation of its channel says. -/
theorem events_attributed (ls : List Line) (e : Event) :
    Attributed (· % 256) ls e (procln (feed process init ls).1 e.wild e.text).2 := by
  have hknows := knows_run ls e.chan.val
  rw [procln_event]
  unfold Attributed
  cases hl : latest (· % 256) ls (e.chan.val % 256) with
  | none =>
    rw [hl] at hknows
    exact events_unknown _ _ _ _ hknows
  | some c =>
    rw [hl] at hknows
    obtain ⟨hst, hins⟩ := hknows
    simp only
    rw [← hins]
    exact events_carries _ _ _ e.chan c.st c.known hst

def noon : Stamp where
  text := ascii "1451649600" ++ ascii "." ++ ascii "000000000"
  tv := UInt64.ofNat (digitsVal 10 (ascii "1451649600")) * NSECS +
    UInt64.ofNat (digitsVal 10 (ascii "000000000"))
  reads rest := strtotv_full (ascii "1451649600") (ascii "000000000") rest (by decide) (by decide)
    (by decide) (by decide)
  valid := by decide

def btcusd : Confirmation where
  stamp := noon
  st := SUBT_BOK
  known := by simp
  chan := ⟨ascii "5", by decide, by decide, by decide⟩
  between := ascii ","
  ins := ascii "BTCUSD"
  rest := ascii "\x7d\n"
  ended := by decide
  first := by decide +kernel
  quoted := by decide
  short := by decide

/-- An event of channel 261, which nobody subscribed to. -/
def stranger : Event where
  stamp := noon
  chan := ⟨ascii "261", by decide, by decide, by decide⟩
  body := ascii "432.1,1,2.5]\n"
  wild := []

theorem stranger_misattributed :
    ¬ Attributed id [.confirm btcusd] stranger
      (procln (feed process init [.confirm btcusd]).1 stranger.wild stranger.text).2 := by
  have hlatest : latest id [.confirm btcusd] (id stranger.chan.val) = none := by
    unfold latest
    simp only [List.foldl_cons, List.foldl_nil]
    exact if_neg (by decide)
  unfold Attributed
  rw [hlatest]
  simp only
  decide +kernel

end Coins.Quotes.Bitfin2b
