import Coins.Ws.Frame
import Coins.Lib.Transducer
import Coins.Lib.Lines

/-!
# The frame stream

A receiver that takes one byte at a time, and what a stream of whole frames says to it. It has no
buffer, so where the stream is cut makes no difference to it.
-/

open Coins.Transducer Coins.Lines

namespace Coins.Ws

/-! ## One byte at a time -/

/-- Some bytes of a header, or a whole header and the payload bytes that are still to come; `dead`
after a header with an unknown opcode. -/
inductive Rx where
  | hdr (got : List Byte)
  | body (h : List Byte) (left : Nat)
  | dead
  deriving DecidableEq, Repr

/-- The payloads that are passed on: all but those of pongs. -/
def shows (h : List Byte) : Bool := opcode h ≠ 10

/-- The frames that end a line: final data frames, close frames and pings. -/
def ends (h : List Byte) : Bool := opcode h = 8 ∨ opcode h = 9 ∨ (opcode h ≤ 2 ∧ finBit h)

/-- The frames that end a line wherever a call ends in them: close frames and pings. -/
def cuts (h : List Byte) : Bool := opcode h = 8 ∨ opcode h = 9

/-- The frames that `ws_recv` does not `abort` on. -/
def known (h : List Byte) : Bool := opcode h ≤ 2 ∨ opcode h = 8 ∨ opcode h = 9 ∨ opcode h = 10

def endOf (h : List Byte) : List Byte := if ends h then [nl] else []

def rxStep : Rx → Byte → Rx × List Byte
  | .hdr got, b =>
    let h := got ++ [b]
    if 2 ≤ h.length ∧ hdrLen h ≤ h.length then
      if known h = false then (.dead, [])
      else if payLen h = 0 then (.hdr [], endOf h) else (.body h (payLen h), [])
    else (.hdr h, [])
  | .body h left, b =>
    if left ≤ 1 then (.hdr [], (if shows h then [b] else []) ++ endOf h)
    else (.body h (left - 1), if shows h then [b] else [])
  | .dead, _ => (.dead, [])

/-- What a decoder adds when it has to stop here. -/
def cutOf : Rx → List Byte
  | .body h _ => if cuts h then [nl] else []
  | _ => []

@[simp] theorem cutOf_hdr (got : List Byte) : cutOf (.hdr got) = [] := rfl

theorem feed_dead (l : List Byte) : feed rxStep .dead l = (.dead, []) := by
  induction l with
  | nil => rfl
  | cons b l ih => simp [feed, rxStep, ih]

theorem alive_of_append (x : Rx) (a b : List Byte) (h : (feed rxStep x (a ++ b)).1 ≠ .dead) :
    (feed rxStep x a).1 ≠ .dead := by
  intro hd
  rw [feed_append, hd, feed_dead] at h
  exact h rfl

theorem feed_body (h : List Byte) (left : Nat) (l : List Byte) (hpos : 0 < left)
    (hl : l.length ≤ left) :
    feed rxStep (.body h left) l =
      if l.length = left then (.hdr [], (if shows h then l else []) ++ endOf h)
      else (.body h (left - l.length), if shows h then l else []) := by
  induction l generalizing left with
  | nil =>
    have : ¬ (0 = left) := by omega
    simp [this]
  | cons b l ih =>
    simp only [List.length_cons] at hl
    by_cases h1 : left = 1
    · subst h1
      have : l = [] := List.eq_nil_of_length_eq_zero (by omega)
      subst this
      simp [feed, rxStep]
    · have hstep : rxStep (.body h left) b = (.body h (left - 1), if shows h then [b] else []) := by
        rw [rxStep, if_neg (by omega)]
      rw [feed, hstep, ih (left - 1) (by omega) (by omega)]
      by_cases hlast : l.length = left - 1
      · have hall : (b :: l).length = left := by
          rw [List.length_cons]
          omega
        rw [if_pos hlast, if_pos hall]
        cases shows h <;> simp
      · have hall : ¬ (b :: l).length = left := by
          rw [List.length_cons]
          omega
        have hsub : left - 1 - l.length = left - (b :: l).length := by
          rw [List.length_cons]
          omega
        rw [if_neg hlast, if_neg hall, hsub]
        cases shows h <;> simp

theorem feed_hdr_part (l : List Byte) (k : Nat) (hk : k < hdrLen l) (hl : k ≤ l.length) :
    feed rxStep (.hdr []) (l.take k) = (.hdr (l.take k), []) := by
  induction k with
  | zero => rfl
  | succ k ih =>
    have hlen : (l.take (k + 1)).length = k + 1 := by
      rw [List.length_take]
      omega
    rw [List.take_add_one, List.getElem?_eq_getElem (by omega), Option.toList_some, feed_concat,
      ih (by omega) (by omega)]
    have hcat : l.take k ++ [l[k]] = l.take (k + 1) := by
      rw [List.take_add_one, List.getElem?_eq_getElem (by omega), Option.toList_some]
    have hopen : ¬ (2 ≤ (l.take (k + 1)).length ∧ hdrLen (l.take (k + 1)) ≤ (l.take (k + 1)).length) := by
      rintro ⟨h2, hfull⟩
      rw [hdrLen_take _ _ (by omega)] at hfull
      omega
    simp only [rxStep, hcat]
    rw [if_neg hopen]
    rfl

theorem feed_hdr (l : List Byte) (hl : hdrLen l ≤ l.length) :
    feed rxStep (.hdr []) (l.take (hdrLen l)) =
      if known l = false then (.dead, [])
      else if payLen l = 0 then (.hdr [], endOf (l.take (hdrLen l)))
      else (.body (l.take (hdrLen l)) (payLen l), []) := by
  have h2 := two_le_hdrLen l
  obtain ⟨k, hk⟩ : ∃ k, hdrLen l = k + 1 := ⟨hdrLen l - 1, by omega⟩
  have hcat : l.take k ++ [l[k]] = l.take (k + 1) := by
    rw [List.take_add_one, List.getElem?_eq_getElem (by omega), Option.toList_some]
  have hpay : payLen (l.take (k + 1)) = payLen l := payLen_take _ _ (by omega)
  have hhdr : hdrLen (l.take (k + 1)) = k + 1 := by
    rw [hdrLen_take _ _ (by omega), hk]
  have hknown : known (l.take (k + 1)) = known l := by rw [known, known, opcode_take _ _ (by omega)]
  have hlen : (l.take (k + 1)).length = k + 1 := by
    rw [List.length_take]
    omega
  rw [hk, ← hcat, feed_concat, feed_hdr_part l k (by omega) (by omega)]
  simp only [rxStep, hcat]
  rw [if_pos (by omega), hpay, hknown]
  split_ifs <;> rfl

theorem feed_frame (l : List Byte) (hl : hdrLen l ≤ l.length) (hk : known l = true) :
    feed rxStep (.hdr []) (l.take (hdrLen l + payLen l)) =
      if hdrLen l + payLen l ≤ l.length then
        (.hdr [], (if shows l then (l.drop (hdrLen l)).take (payLen l) else []) ++ endOf l)
      else (.body (l.take (hdrLen l)) (payLen l - (l.length - hdrLen l)),
        if shows l then l.drop (hdrLen l) else []) := by
  have h2 := two_le_hdrLen l
  have hshows : shows (l.take (hdrLen l)) = shows l := by
    rw [shows, shows, opcode_take _ _ h2]
  have hends : endOf (l.take (hdrLen l)) = endOf l := by
    rw [endOf, endOf, ends, ends, opcode_take _ _ h2, finBit_take _ _ h2]
  rw [List.take_add, feed_append, feed_hdr l hl, if_neg (by simp [hk])]
  by_cases h0 : payLen l = 0
  · rw [if_pos h0, h0, if_pos (by omega)]
    simp [hends]
  · rw [if_neg h0]
    simp only [List.nil_append]
    rw [feed_body _ _ _ (by omega) (by rw [List.length_take]; omega), hshows, hends]
    by_cases hfull : hdrLen l + payLen l ≤ l.length
    · rw [if_pos hfull, if_pos (by rw [List.length_take, List.length_drop]; omega)]
    · have hrest : (l.drop (hdrLen l)).take (payLen l) = l.drop (hdrLen l) :=
        List.take_of_length_le (by rw [List.length_drop]; omega)
      rw [if_neg hfull, hrest, List.length_drop, if_neg (by omega)]

/-! ## Streams of whole frames -/

/-- A frame as it goes over the wire: any header that is all there, and the payload it announces. -/
structure Frame where
  head : List Byte
  payload : List Byte
  head_len : head.length = hdrLen head
  pay_len : payload.length = payLen head

def Frame.bytes (f : Frame) : List Byte := f.head ++ f.payload

def encode (fs : List Frame) : List Byte := fs.flatMap Frame.bytes

/-- Where the receiver stands after `n` bytes of the frames. -/
def stateAt : List Frame → Nat → Rx
  | [], _ => .hdr []
  | f :: fs, n =>
    if n < f.head.length then .hdr (f.head.take n)
    else if n < f.bytes.length then .body f.head (f.bytes.length - n)
    else stateAt fs (n - f.bytes.length)

/-- What the receiver has put out after `n` bytes of the frames. -/
def textAt : List Frame → Nat → List Byte
  | [], _ => []
  | f :: fs, n =>
    if n < f.bytes.length then if shows f.head then f.payload.take (n - f.head.length) else []
    else (if shows f.head then f.payload else []) ++ endOf f.head ++ textAt fs (n - f.bytes.length)

theorem Frame.length_bytes (f : Frame) : f.bytes.length = hdrLen f.head + payLen f.head := by
  rw [Frame.bytes, List.length_append, f.head_len, f.pay_len]

theorem Frame.feed_take (f : Frame) (hk : known f.head = true) (k : Nat) :
    feed rxStep (.hdr []) (f.head ++ f.payload.take k) =
      if payLen f.head ≤ k then (.hdr [], (if shows f.head then f.payload else []) ++ endOf f.head)
      else (.body f.head (payLen f.head - k), if shows f.head then f.payload.take k else []) := by
  have h2 := two_le_hdrLen f.head
  have hhl := f.head_len
  have hpl := f.pay_len
  generalize hl : f.head ++ f.payload.take k = l
  have hhead : l.take f.head.length = f.head := by rw [← hl, List.take_left']; rfl
  have hdrop : l.drop f.head.length = f.payload.take k := by rw [← hl, List.drop_left']; rfl
  have hhdr : hdrLen l = hdrLen f.head := by
    rw [← hhead, hdrLen_take _ _ (by omega)]
  have hpay : payLen l = payLen f.head := by
    rw [← hhead, payLen_take _ _ (by omega)]
  have hop : opcode l = opcode f.head := by
    rw [← hhead, opcode_take _ _ (by omega)]
  have hfin : finBit l = finBit f.head := by
    rw [← hhead, finBit_take _ _ (by omega)]
  have hkl : known l = true := by rw [known, hop]; exact hk
  have hshows : shows l = shows f.head := by rw [shows, shows, hop]
  have hends : endOf l = endOf f.head := by rw [endOf, endOf, ends, ends, hop, hfin]
  have hlen : l.length = hdrLen f.head + min k (payLen f.head) := by
    rw [← hl, List.length_append, List.length_take, hhl, hpl]
  have hall : l.take (hdrLen l + payLen l) = l := List.take_of_length_le (by omega)
  have hframe := feed_frame l (by omega) hkl
  rw [hall, hhdr, hpay, ← hhl, hhead, hdrop, hshows, hends, hhl, hlen] at hframe
  rw [hframe]
  by_cases hle : payLen f.head ≤ k
  · rw [if_pos hle, if_pos (by omega), List.take_take, List.take_of_length_le (by omega)]
  · rw [if_neg hle, if_neg (by omega)]
    congr 2
    omega

theorem feed_encode (fs : List Frame) (hk : ∀ f ∈ fs, known f.head = true) (n : Nat) :
    feed rxStep (.hdr []) ((encode fs).take n) = (stateAt fs n, textAt fs n) := by
  induction fs generalizing n with
  | nil => simp [encode, stateAt, textAt]
  | cons f fs ih =>
    have ih' := ih fun g hg => hk g (List.mem_cons_of_mem _ hg)
    have hkf := hk f List.mem_cons_self
    have h2 := two_le_hdrLen f.head
    have hlen := f.length_bytes
    have hhl := f.head_len
    have henc : encode (f :: fs) = f.bytes ++ encode fs := rfl
    by_cases hh : n < f.head.length
    · -- inside the header
      have htake : (encode (f :: fs)).take n = f.head.take n := by
        rw [henc, Frame.bytes, List.append_assoc, List.take_append_of_le_length (by omega)]
      rw [htake, feed_hdr_part _ _ (by omega) (by omega), stateAt, textAt, if_pos hh,
        if_pos (by omega)]
      have hzero : n - f.head.length = 0 := by omega
      simp [hzero]
    · have hframe := f.feed_take hkf
      by_cases hb : n < f.bytes.length
      · -- inside the payload
        have htake : (encode (f :: fs)).take n = f.head ++ f.payload.take (n - f.head.length) := by
          rw [henc, List.take_append_of_le_length (by omega), Frame.bytes, List.take_append,
            List.take_of_length_le (by omega)]
        rw [htake, hframe, if_neg (by omega), stateAt, textAt, if_neg hh, if_pos hb, if_pos hb]
        congr 2
        omega
      · have htake : (encode (f :: fs)).take n =
            f.head ++ f.payload.take (payLen f.head) ++ (encode fs).take (n - f.bytes.length) := by
          rw [henc, List.take_append, List.take_of_length_le (by omega),
            List.take_of_length_le (le_of_eq f.pay_len), Frame.bytes]
        rw [htake, feed_append, hframe, if_pos (le_refl _), stateAt, textAt, if_neg hh, if_neg hb,
          if_neg hb]
        simp only
        rw [ih']

theorem stateAt_ne_dead (fs : List Frame) (n : Nat) : stateAt fs n ≠ .dead := by
  induction fs generalizing n with
  | nil => simp [stateAt]
  | cons f fs ih =>
    rw [stateAt]
    split_ifs
    · simp
    · simp
    · exact ih _

theorem cutOf_stateAt (fs : List Frame) (hc : ∀ f ∈ fs, cuts f.head = false) (n : Nat) :
    cutOf (stateAt fs n) = [] := by
  induction fs generalizing n with
  | nil => rfl
  | cons f fs ih =>
    rw [stateAt]
    split_ifs
    · rfl
    · simp [cutOf, hc f List.mem_cons_self]
    · exact ih (fun g hg => hc g (List.mem_cons_of_mem _ hg)) _

/-! ## Pings -/

/-- The receiver, with what it has of the payload of a ping, which it puts out at its end. -/
def pgStep : Rx × List Byte → Byte → (Rx × List Byte) × List (List Byte)
  | (.hdr got, _), b =>
    let y := (rxStep (.hdr got) b).1
    ((y, []), if y = .hdr [] ∧ opcode (got ++ [b]) = 9 then [[]] else [])
  | (.body h left, acc), b =>
    let y := (rxStep (.body h left) b).1
    if opcode h ≠ 9 then ((y, []), [])
    else if left ≤ 1 then ((y, []), [acc ++ [b]])
    else ((y, acc ++ [b]), [])
  | (.dead, _), _ => ((.dead, []), [])

/-- What there is of a ping when the receiver has to stop here. -/
def unanswered : Rx × List Byte → List (List Byte)
  | (.body h _, acc) => if opcode h = 9 then [acc] else []
  | _ => []

/-- The payloads that a decoder answers which takes the bytes `c` and stops. -/
def answers (x : Rx) (c : List Byte) : List (List Byte) :=
  let r := feed pgStep (x, []) c
  r.2 ++ unanswered r.1

theorem pg_fst (s : Rx × List Byte) (c : List Byte) : (feed pgStep s c).1.1 = (feed rxStep s.1 c).1 := by
  induction c generalizing s with
  | nil => rfl
  | cons b c ih =>
    rw [feed_cons, feed_cons, ih]
    obtain ⟨x, acc⟩ := s
    cases x with
    | hdr got => rfl
    | body h left =>
      simp only [pgStep]
      split
      · rfl
      · split <;> rfl
    | dead => rfl

theorem pg_idle (x : Rx) (c got : List Byte) (h : (feed rxStep x c).1 = .hdr got) :
    (feed pgStep (x, []) c).1 = (.hdr got, []) := by
  refine Prod.ext ((pg_fst (x, []) c).trans h) ?_
  rcases List.eq_nil_or_concat c with rfl | ⟨c, b, rfl⟩
  · rfl
  · rw [List.concat_eq_append] at h ⊢
    rw [← pg_fst (x, []), feed_concat] at h
    rw [feed_concat]
    generalize (feed pgStep (x, []) c).1 = s at h ⊢
    obtain ⟨y, acc⟩ := s
    cases y with
    | hdr got => rfl
    | body hd left =>
      simp only [pgStep] at h ⊢
      split
      · rfl
      · split
        · rfl
        · rename_i h9 hleft
          rw [if_neg h9, if_neg hleft] at h
          rw [rxStep, if_neg hleft] at h
          cases h
    | dead => rfl

theorem pg_body (h : List Byte) (left : Nat) (acc l : List Byte) (hpos : 0 < left) (hl : l.length ≤ left)
    (hacc : opcode h ≠ 9 → acc = []) :
    feed pgStep (.body h left, acc) l =
      if l.length = left then ((.hdr [], []), if opcode h = 9 then [acc ++ l] else [])
      else ((.body h (left - l.length), if opcode h = 9 then acc ++ l else []), []) := by
  induction l generalizing left acc with
  | nil =>
    rw [feed_nil, if_neg (by rw [List.length_nil]; omega), List.length_nil, Nat.sub_zero, List.append_nil]
    split
    · rfl
    · rename_i h9
      rw [hacc h9]
  | cons b l ih =>
    rw [List.length_cons] at hl
    rw [feed_cons]
    by_cases h1 : left = 1
    · subst h1
      have hnil : l = [] := List.eq_nil_of_length_eq_zero (by omega)
      subst hnil
      by_cases h9 : opcode h = 9 <;> simp [pgStep, rxStep, h9]
    · have hstep : pgStep (.body h left, acc) b =
          ((.body h (left - 1), if opcode h = 9 then acc ++ [b] else []), []) := by
        simp only [pgStep, rxStep]
        rw [if_neg (show ¬ left ≤ 1 by omega)]
        by_cases h9 : opcode h = 9
        · rw [if_neg (not_not.mpr h9), if_neg (by omega), if_pos h9]
        · rw [if_pos h9, if_neg h9]
      rw [hstep, ih (left - 1) _ (by omega) (by omega) (fun h9 => if_neg h9)]
      by_cases hlast : l.length = left - 1
      · have hall : (b :: l).length = left := by
          rw [List.length_cons]
          omega
        rw [if_pos hlast, if_pos hall]
        by_cases h9 : opcode h = 9 <;> simp [h9]
      · have hall : ¬ (b :: l).length = left := by
          rw [List.length_cons]
          omega
        have hsub : left - 1 - l.length = left - (b :: l).length := by
          rw [List.length_cons]
          omega
        rw [if_neg hlast, if_neg hall, hsub]
        by_cases h9 : opcode h = 9 <;> simp [h9]

theorem pg_hdr_step (l : List Byte) (k : Nat) (hk : k < l.length)
    (ih : feed pgStep (.hdr [], []) (l.take k) = ((.hdr (l.take k), []), [])) :
    feed pgStep (.hdr [], []) (l.take (k + 1)) =
      (((feed rxStep (.hdr []) (l.take (k + 1))).1, []),
        if (feed rxStep (.hdr []) (l.take (k + 1))).1 = .hdr [] ∧ opcode (l.take (k + 1)) = 9 then [[]]
        else []) := by
  have hcat : l.take (k + 1) = l.take k ++ [l[k]] := by
    rw [List.take_add_one, List.getElem?_eq_getElem hk, Option.toList_some]
  have hrx : (rxStep (.hdr (l.take k)) l[k]).1 = (feed rxStep (.hdr []) (l.take (k + 1))).1 := by
    have := pg_fst (.hdr [], []) (l.take k)
    rw [ih] at this
    rw [hcat, feed_concat, ← this]
  conv => lhs; rw [hcat, feed_concat, ih]
  simp only [pgStep, hrx, List.nil_append]
  rw [hcat]

theorem pg_hdr_part (l : List Byte) (k : Nat) (hk : k < hdrLen l) (hl : k ≤ l.length) :
    feed pgStep (.hdr [], []) (l.take k) = ((.hdr (l.take k), []), []) := by
  induction k with
  | zero => rfl
  | succ k ih =>
    have hopen : ¬ (Rx.hdr (l.take (k + 1)) = .hdr [] ∧ opcode (l.take (k + 1)) = 9) := by
      rintro ⟨hnil, -⟩
      have := congrArg List.length (Rx.hdr.inj hnil)
      rw [List.length_take, List.length_nil] at this
      omega
    rw [pg_hdr_step l k (by omega) (ih (by omega) (by omega)), feed_hdr_part l (k + 1) hk hl, if_neg hopen]

theorem pg_hdr (l : List Byte) (hl : hdrLen l ≤ l.length) (hk : known l = true) :
    feed pgStep (.hdr [], []) (l.take (hdrLen l)) =
      if payLen l = 0 then ((.hdr [], []), if opcode l = 9 then [[]] else [])
      else ((.body (l.take (hdrLen l)) (payLen l), []), []) := by
  have h2 := two_le_hdrLen l
  obtain ⟨k, hk'⟩ : ∃ k, hdrLen l = k + 1 := ⟨hdrLen l - 1, by omega⟩
  have hrx := feed_hdr l hl
  have hop : opcode (l.take (hdrLen l)) = opcode l := opcode_take _ _ h2
  rw [if_neg (by simp [hk])] at hrx
  rw [hk'] at hrx hop ⊢
  rw [pg_hdr_step l k (by omega) (pg_hdr_part l k (by omega) (by omega)), hrx, hop]
  by_cases h0 : payLen l = 0
  · rw [if_pos h0, if_pos h0]
    simp
  · rw [if_neg h0, if_neg h0]
    simp

theorem pg_frame (l : List Byte) (hl : hdrLen l ≤ l.length) (hk : known l = true) :
    feed pgStep (.hdr [], []) (l.take (hdrLen l + payLen l)) =
      if hdrLen l + payLen l ≤ l.length then
        ((.hdr [], []), if opcode l = 9 then [(l.drop (hdrLen l)).take (payLen l)] else [])
      else ((.body (l.take (hdrLen l)) (payLen l - (l.length - hdrLen l)),
        if opcode l = 9 then l.drop (hdrLen l) else []), []) := by
  have h2 := two_le_hdrLen l
  have hop : opcode (l.take (hdrLen l)) = opcode l := opcode_take _ _ h2
  rw [List.take_add, feed_append, pg_hdr l hl hk]
  by_cases h0 : payLen l = 0
  · rw [if_pos h0, h0, if_pos (show hdrLen l + 0 ≤ l.length from hl)]
    simp
  · rw [if_neg h0]
    simp only [List.nil_append]
    rw [pg_body _ _ _ _ (by omega) (by rw [List.length_take]; omega) (fun _ => rfl), hop, List.nil_append]
    by_cases hfull : hdrLen l + payLen l ≤ l.length
    · rw [if_pos hfull, if_pos (by rw [List.length_take, List.length_drop]; omega)]
    · have hrest : (l.drop (hdrLen l)).take (payLen l) = l.drop (hdrLen l) :=
        List.take_of_length_le (by rw [List.length_drop]; omega)
      rw [if_neg hfull, hrest, List.length_drop, if_neg (by omega)]

theorem answers_append (x : Rx) (c t : List Byte) (h : (feed rxStep x c).1 = .hdr []) :
    answers x (c ++ t) = answers x c ++ answers (.hdr []) t := by
  simp only [answers]
  rw [feed_append, pg_idle x c [] h]
  simp [unanswered]

theorem answers_body (h : List Byte) (left : Nat) (l : List Byte) (hpos : 0 < left) :
    answers (.body h left) (l.take left) = if opcode h = 9 then [l.take left] else [] := by
  unfold answers
  rw [pg_body h left [] (l.take left) hpos (by rw [List.length_take]; omega) (fun _ => rfl)]
  by_cases h9 : opcode h = 9 <;> split <;> simp [unanswered, h9]

theorem answers_frame (l : List Byte) (hl : hdrLen l ≤ l.length) (hk : known l = true) :
    answers (.hdr []) (l.take (hdrLen l + payLen l)) =
      if opcode l = 9 then [(l.drop (hdrLen l)).take (payLen l)] else [] := by
  have hop : opcode (l.take (hdrLen l)) = opcode l := opcode_take _ _ (two_le_hdrLen l)
  unfold answers
  rw [pg_frame l hl hk]
  by_cases hfull : hdrLen l + payLen l ≤ l.length
  · rw [if_pos hfull]
    simp [unanswered]
  · have hrest : (l.drop (hdrLen l)).take (payLen l) = l.drop (hdrLen l) :=
      List.take_of_length_le (by rw [List.length_drop]; omega)
    rw [if_neg hfull, hrest]
    by_cases h9 : opcode l = 9 <;> simp [unanswered, hop, h9]

end Coins.Ws
