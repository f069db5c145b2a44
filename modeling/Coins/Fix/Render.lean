import Coins.Fix.Frame
import Coins.Lib.Cursor
import Coins.Lib.Transducer
import Coins.Xmemmem

/-!
# Rendering messages

`fix_render` of `fix.c` writes a message from front to back, then fills in the length of its body
and puts the checksum behind it. Both get three digits, whatever they are.
-/

open Coins.Memory Coins.Numeral Coins.Transducer Coins.Xmemmem

namespace Coins.Fix

structure fix_msg_t where
  typ : Byte
  msg : List Byte

/-- The comp ids and the clock, as they are when a message is rendered. -/
structure Setting where
  scomp_id : List Byte
  tcomp_id : List Byte
  clck : List Byte
  clck_len : clck.length = 21

/-- The sum of signed characters in an `unsigned int`. -/
def fix_chksum (str : List Byte) : UInt8 :=
  ((str.foldl (fun res p => res + uchr p) (0 : UInt32)) &&& 0xff).toUInt8

def fhdr : List Byte := ascii "8=FIX.4.4" ++ [SOH] ++ ascii "9=XXX" ++ [SOH]

/-- Three digits at `a`, the last one first. -/
def print3 (m : Mem Byte) (a : Int) (n : Nat) : Mem Byte :=
  ((m.store (a + 2) [digitChar (n % 10)]).store (a + 1) [digitChar (n / 10 % 10)]).store a
    [digitChar (n / 10 / 10 % 10)]

def put3 (c : Cursor Byte) (n : Nat) : Cursor Byte :=
  { c with mem := print3 c.mem (c.base + c.len) n, len := c.len + 3 }

/-- The digits of `s`, last one first. Ten are enough for an `unsigned int`. -/
def put_seq : Nat → Nat → Cursor Byte → Cursor Byte
  | 0, _, c => c
  | fuel + 1, s, c => if s = 0 then c else put_seq fuel (s / 10) (c.put [digitChar (s % 10)])

/-- The sequence number, printed backwards and turned around. -/
def seq_field (seq : UInt32) (c : Cursor Byte) : Cursor Byte :=
  let d := put_seq 10 seq.toNat c
  { d with mem := d.mem.turn (d.base + c.len) (d.len - c.len) }

/-- `fix_render` up to the end of the user's message. -/
def render_body (g : Setting) (seq : UInt32) (m : Mem Byte) (buf : Int) (msg : fix_msg_t) :
    Cursor Byte :=
  let c := (Cursor.start m buf).put fhdr
  -- message type
  let c := ((c.put (ascii "35=")).put [msg.typ]).put [SOH]
  -- sequence number
  let c := (seq_field seq (c.put (ascii "34="))).put [SOH]
  -- our comp id
  let c := if g.scomp_id ≠ [] then ((c.put (ascii "49=")).put g.scomp_id).put [SOH] else c
  -- time
  let c := ((c.put (ascii "52=")).put g.clck).put [SOH]
  -- target comp id
  let c := ((c.put (ascii "56=")).put g.tcomp_id).put [SOH]
  c.put (msg.msg.map fun b => if b ≠ 0 then b else SOH)

/-- The length of the body, over the letters in the header. -/
def put_length (c : Cursor Byte) : Cursor Byte :=
  { c with mem := print3 c.mem (c.base + (fhdr.length - 4 : Nat)) (c.len - fhdr.length) }

structure Rendered where
  mem : Mem Byte
  len : Nat

def fix_render (g : Setting) (seq : UInt32) (m : Mem Byte) (buf : Int) (msg : fix_msg_t) :
    UInt32 × Rendered :=
  let c := put_length (render_body g seq m buf msg)
  let ck := fix_chksum c.text
  let c := { c with mem := c.mem.read buf c.len }
  let c := (put3 (c.put (ascii "10=")) ck.toNat).put [SOH]
  (seq + 1, ⟨(c.mem.store (buf + c.len) [10]).store (buf + c.len + 1) [0], c.len⟩)

/-- The bytes of the message. -/
def Rendered.text (r : Rendered) (buf : Int) : List Byte := r.mem.view buf r.len

/-! ## The pieces -/

theorem uchr_mod (b : Byte) : (uchr b).toNat % 256 = b.toNat := by
  have h := congrArg UInt8.toNat (toUInt8_uchr b)
  rwa [UInt32.toNat_toUInt8] at h

theorem fix_chksum_spec (str : List Byte) : (fix_chksum str).toNat = checksum str := by
  have hsum : ∀ s : UInt32, (str.foldl (fun res p => res + uchr p) s).toNat % 256 =
      (s.toNat + (str.map UInt8.toNat).sum) % 256 := by
    induction str with
    | nil => intro s; simp
    | cons b bs ih =>
      intro s
      have hb := uchr_mod b
      rw [List.foldl_cons, ih, UInt32.toNat_add, List.map_cons, List.sum_cons]
      omega
  have h := hsum 0
  rw [UInt32.toNat_zero, Nat.zero_add] at h
  unfold fix_chksum checksum
  rw [UInt32.toNat_toUInt8, UInt32.toNat_and, ← h]
  have hmask := Nat.and_two_pow_sub_one_eq_mod (str.foldl (fun res p => res + uchr p) 0).toNat 8
  rw [show (0xff : UInt32).toNat = 2 ^ 8 - 1 from rfl, hmask, Nat.mod_mod]

theorem view_print3 (m : Mem Byte) (a : Int) (n : Nat) : (print3 m a n).view a 3 = fixed 3 n := by
  have h2 : a + 1 + 1 = a + 2 := by omega
  have h3 : a + 2 ≠ a := by omega
  simp [print3, Mem.view, Mem.cell_store_one, fixed, h2, h3]

theorem within_print3 (m : Mem Byte) (a : Int) (n : Nat) : Mem.Within a (a + 3) m (print3 m a n) := by
  unfold print3
  have h : ∀ (m : Mem Byte) (k : Nat) (b : Byte), k < 3 →
      Mem.Within a (a + 3) m (m.store (a + k) [b]) := by
    intro m k b hk
    exact Mem.Within.store _ _ (Or.inr ⟨by omega, by simp only [List.length_singleton]; omega⟩)
  have h0 := h ((m.store (a + 2) [digitChar (n % 10)]).store (a + 1) [digitChar (n / 10 % 10)]) 0
    (digitChar (n / 10 / 10 % 10)) (by omega)
  simp only [Nat.cast_zero, Int.add_zero] at h0
  exact ((h m 2 _ (by omega)).trans (h _ 1 _ (by omega))).trans h0

@[simp] theorem text_put3 (c : Cursor Byte) (n : Nat) : (put3 c n).text = c.text ++ fixed 3 n := by
  unfold put3 Cursor.text
  simp only
  rw [Mem.view_append, (within_print3 _ _ _).view _ _ (Or.inl (le_refl _)), view_print3]

theorem put3_from {m : Mem Byte} {c : Cursor Byte} (h : c.From m) (n : Nat) : (put3 c n).From m := by
  unfold Cursor.From put3 at *
  simp only
  refine (h.mono (le_refl _) (by omega)).trans ((within_print3 _ _ _).mono (by omega) ?_)
  push_cast
  omega

/-! ## The body -/

theorem put_seq_spec (m : Mem Byte) (fuel s : Nat) (c : Cursor Byte) (h : c.From m) :
    (put_seq fuel s c).text = c.text ++ revDigits fuel s ∧ (put_seq fuel s c).base = c.base ∧
      (put_seq fuel s c).From m := by
  induction fuel generalizing s c with
  | zero => simpa [put_seq, revDigits] using h
  | succ fuel ih =>
    unfold put_seq revDigits
    split
    · simpa using h
    · obtain ⟨htext, hbase, hfrom⟩ := ih (s / 10) _ (h.put [digitChar (s % 10)])
      exact ⟨by rw [htext]; simp, hbase, hfrom⟩

/-- The text of a sequence number; there is none for 0, which comes after 2^32 messages. -/
def seqText (seq : UInt32) : List Byte := (revDigits 10 seq.toNat).reverse

theorem seqText_decimal (seq : UInt32) (hseq : seq ≠ 0) : seqText seq = decimal seq.toNat := by
  have hlt := seq.toNat_lt
  have hne : seq.toNat ≠ 0 := by
    intro h0
    exact hseq (UInt32.toNat_inj.mp h0)
  rw [seqText, decimal, if_neg hne, revDigits_fuel 10 seq.toNat seq.toNat (by omega)
    (Nat.lt_pow_self (by omega))]

theorem seq_field_spec (m : Mem Byte) (seq : UInt32) (c : Cursor Byte) (h : c.From m) :
    (seq_field seq c).text = c.text ++ seqText seq ∧ (seq_field seq c).base = c.base ∧
      (seq_field seq c).From m := by
  obtain ⟨htext, hbase, hfrom⟩ := put_seq_spec m 10 seq.toNat c h
  obtain ⟨n, hn⟩ : ∃ n, (put_seq 10 seq.toNat c).len = c.len + n := by
    refine ⟨(revDigits 10 seq.toNat).length, ?_⟩
    rw [Cursor.len_eq, htext, List.length_append, ← Cursor.len_eq]
  unfold seq_field
  have hwithin := Mem.within_turn (c.base + c.len) n (put_seq 10 seq.toNat c).mem
  simp only [hbase, hn, Nat.add_sub_cancel_left]
  refine ⟨?_, trivial, ?_⟩
  · unfold Cursor.text at htext ⊢
    rw [hbase, hn, Mem.view_append] at htext
    obtain ⟨hfront, hdigits⟩ := List.append_inj htext (by simp)
    simp only
    rw [Mem.view_append, hwithin.view _ _ (Or.inl (le_refl _)), hfront, Mem.view_turn, hdigits]
    rfl
  · unfold Cursor.From at hfrom ⊢
    rw [hbase, hn] at hfrom
    simp only
    exact hfrom.trans (hwithin.mono (by omega) (by push_cast; omega))

/-- The fields between the sequence number and the user's message. -/
def fields (g : Setting) : List Byte :=
  (if g.scomp_id ≠ [] then ascii "49=" ++ g.scomp_id ++ [SOH] else []) ++ ascii "52=" ++ g.clck ++
    [SOH] ++ ascii "56=" ++ g.tcomp_id ++ [SOH]

def bodyText (g : Setting) (k : Nat) (msg : fix_msg_t) : List Byte :=
  ascii "35=" ++ [msg.typ] ++ [SOH] ++ ascii "34=" ++ decimal k ++ [SOH] ++ fields g ++
    msg.msg.map fun b => if b ≠ 0 then b else SOH

/-- A body whose sequence number reads `ds`. -/
def bodyOf (g : Setting) (ds : List Byte) (msg : fix_msg_t) : List Byte :=
  ascii "35=" ++ [msg.typ] ++ [SOH] ++ ascii "34=" ++ ds ++ [SOH] ++ fields g ++
    msg.msg.map fun b => if b ≠ 0 then b else SOH

theorem render_body_spec (g : Setting) (seq : UInt32) (m : Mem Byte) (buf : Int) (msg : fix_msg_t) :
    (render_body g seq m buf msg).text = fhdr ++ bodyOf g (seqText seq) msg ∧
      (render_body g seq m buf msg).base = buf ∧ (render_body g seq m buf msg).From m := by
  have h0 := ((((Cursor.From.start m buf).put fhdr).put (ascii "35=")).put [msg.typ]).put [SOH]
  obtain ⟨htext, hbase, hfrom⟩ := seq_field_spec m seq _ (h0.put (ascii "34="))
  unfold render_body bodyOf fields
  simp only
  split
  · refine ⟨by simp [htext], by simp [hbase], ?_⟩
    exact (((((((((((hfrom.put _).put _).put _).put _).put _).put _).put _).put _).put _).put _).put _)
  · refine ⟨by simp [htext], by simp [hbase], ?_⟩
    exact ((((((((hfrom.put _).put _).put _).put _).put _).put _).put _).put _)

/-! ## The whole -/

@[simp] theorem base_put_length (c : Cursor Byte) : (put_length c).base = c.base := rfl

theorem put_length_spec (m : Mem Byte) (c : Cursor Byte) (b : List Byte) (hfrom : c.From m)
    (htext : c.text = fhdr ++ b) :
    (put_length c).text = opening (fixed 3 b.length) b ∧ (put_length c).From m := by
  have hlen : c.len = 16 + b.length := by
    rw [Cursor.len_eq, htext, List.length_append]
    rfl
  have hn : c.len - fhdr.length = b.length := by
    rw [hlen]
    exact Nat.add_sub_cancel_left 16 b.length
  have hpatch := within_print3 c.mem (c.base + (12 : Nat)) b.length
  have hview := view_print3 c.mem (c.base + (12 : Nat)) b.length
  have hput : (put_length c).mem = print3 c.mem (c.base + (12 : Nat)) b.length := by
    unfold put_length
    rw [hn]
    rfl
  refine ⟨?_, ?_⟩
  · have hsum : 12 + 3 + ([SOH] ++ b).length = c.len := by
      rw [hlen, List.length_append, List.length_singleton]
      omega
    have hold : c.mem.view c.base (12 + 3 + ([SOH] ++ b).length) =
        (ascii "8=FIX.4.4" ++ [SOH] ++ ascii "9=") ++ ascii "XXX" ++ ([SOH] ++ b) := by
      rw [hsum]
      unfold Cursor.text at htext
      rw [htext]
      simp [fhdr, ascii]
    have h := Mem.Within.patch (u := ascii "8=FIX.4.4" ++ [SOH] ++ ascii "9=") (v := ascii "XXX")
      (w := [SOH] ++ b) hpatch hold
    have hlen3 : (ascii "XXX").length = 3 := rfl
    have hlen12 : (ascii "8=FIX.4.4" ++ [SOH] ++ ascii "9=").length = 12 := rfl
    rw [hlen3, hlen12, hsum, hview] at h
    unfold Cursor.text opening
    rw [hput]
    exact h.trans (by simp)
  · unfold Cursor.From at hfrom ⊢
    rw [hput]
    refine hfrom.trans (hpatch.mono ?_ ?_)
    · exact Int.le_add_of_nonneg_right (by omega)
    · have : (put_length c).len = c.len := rfl
      have := base_put_length c
      push_cast
      omega

theorem fix_render_text (g : Setting) (seq : UInt32) (m : Mem Byte) (buf : Int) (msg : fix_msg_t) :
    let b := bodyOf g (seqText seq) msg
    let r := (fix_render g seq m buf msg).2
    r.text buf = frame (fixed 3 b.length) b ∧ r.len = (frame (fixed 3 b.length) b).length ∧
      Mem.Within buf (buf + (r.len + 2 : Nat)) m r.mem := by
  intro b r
  obtain ⟨htext, hbase, hfrom⟩ := render_body_spec g seq m buf msg
  obtain ⟨hopen, hfrom1⟩ := put_length_spec m _ b hfrom htext
  generalize hc : put_length (render_body g seq m buf msg) = c at hopen hfrom1
  have hbase1 : c.base = buf := by
    rw [← hc, base_put_length, hbase]
  have hread : Cursor.From m { c with mem := c.mem.read buf c.len } := by
    refine hfrom1.trans (Mem.Within.read _ _ (Or.inr ?_))
    rw [hbase1]
    exact ⟨le_refl _, le_refl _⟩
  have hopen1 : Cursor.text { c with mem := c.mem.read buf c.len } = opening (fixed 3 b.length) b := by
    rw [← hopen]
    exact Mem.view_read _ _ _ _ _
  -- the cursor behind the last SOH
  generalize hd : (put3 (({ c with mem := c.mem.read buf c.len } : Cursor Byte).put (ascii "10="))
    (fix_chksum c.text).toNat).put [SOH] = d
  have hfrom2 : d.From m := by
    rw [← hd]
    exact (put3_from (hread.put _) _).put _
  have htext2 : d.text = frame (fixed 3 b.length) b := by
    rw [← hd, Cursor.text_put, text_put3, Cursor.text_put, hopen1, fix_chksum_spec, hopen]
    rfl
  have hbase2 : d.base = buf := by
    rw [← hd]
    exact hbase1
  have hr : r = ⟨(d.mem.store (buf + d.len) [10]).store (buf + d.len + 1) [0], d.len⟩ := by
    rw [← hd]
    unfold r fix_render
    rw [hc]
  rw [hr]
  refine ⟨?_, ?_, ?_⟩
  · unfold Rendered.text
    simp only
    rw [Mem.view_store_before _ _ _ _ _ (by omega), Mem.view_store_before _ _ _ _ _ (by omega),
      ← htext2, ← hbase2]
    rfl
  · rw [← htext2]
    exact d.len_eq
  · unfold Cursor.From at hfrom2
    rw [hbase2] at hfrom2
    have h1 : ∀ (m : Mem Byte) (k : Nat) (x : Byte), k < 2 →
        Mem.Within buf (buf + (d.len + 2 : Nat)) m (m.store (buf + d.len + k) [x]) := by
      intro m k x hk
      exact Mem.Within.store _ _ (Or.inr ⟨by omega, by simp only [List.length_singleton]; omega⟩)
    have h2 := h1 d.mem 0 10 (by omega)
    simp only [Nat.cast_zero, Int.add_zero] at h2
    exact ((hfrom2.mono (le_refl _) (by omega)).trans h2).trans (h1 _ 1 0 (by omega))

theorem fix_render_spec (g : Setting) (seq : UInt32) (m : Mem Byte) (buf : Int) (msg : fix_msg_t)
    (hseq : seq ≠ 0) :
    let b := bodyText g seq.toNat msg
    let r := (fix_render g seq m buf msg).2
    r.text buf = frame (fixed 3 b.length) b ∧ r.len = (frame (fixed 3 b.length) b).length ∧
      Mem.Within buf (buf + (r.len + 2 : Nat)) m r.mem := by
  have h := fix_render_text g seq m buf msg
  rw [seqText_decimal seq hseq] at h
  exact h

/-! ## Frames or not -/

/-- What a rendered message has to look like. -/
def Valid (typ : Byte) (k : Nat) (user out : List Byte) : Prop :=
  ∃ size body between, Sized size body ∧ out = frame size body ∧
    body = ascii "35=" ++ [typ] ++ [SOH] ++ ascii "34=" ++ decimal k ++ [SOH] ++ between ++
      user.map fun b => if b ≠ 0 then b else SOH

def bodyLength (g : Setting) (k : Nat) (msg : fix_msg_t) : Nat :=
  9 + (decimal k).length + (if g.scomp_id ≠ [] then g.scomp_id.length + 4 else 0) +
    (g.clck.length + 4) + (g.tcomp_id.length + 4) + msg.msg.length

theorem bodyText_length (g : Setting) (k : Nat) (msg : fix_msg_t) :
    (bodyText g k msg).length = bodyLength g k msg := by
  have h3 : (ascii "35=").length = 3 ∧ (ascii "34=").length = 3 ∧ (ascii "49=").length = 3 ∧
      (ascii "52=").length = 3 ∧ (ascii "56=").length = 3 := by decide
  unfold bodyText fields bodyLength
  split
  · simp only [List.length_append, List.length_map, List.length_singleton, h3]
    omega
  · simp only [List.length_append, List.length_map, List.length_singleton, List.length_nil, h3]
    omega

theorem frame_length (n : Nat) (body : List Byte) :
    (frame (fixed 3 n) body).length = fhdr.length + body.length + 7 := by
  have h : (ascii "8=FIX.4.4").length = 9 ∧ (ascii "9=").length = 2 ∧ (ascii "10=").length = 3 ∧
      fhdr.length = 16 := by decide
  unfold frame opening
  simp only [List.length_append, List.length_singleton, fixed_length, h]

theorem valid_frame (g : Setting) (k : Nat) (msg : fix_msg_t) :
    Valid msg.typ k msg.msg (frame (fixed 3 (bodyLength g k msg)) (bodyText g k msg)) ↔
      bodyLength g k msg < 1000 := by
  have hval := digitsVal_fixed 3 (bodyLength g k msg)
  have hdigits := fixed_digits 3 (bodyLength g k msg)
  constructor
  · rintro ⟨size, body, between, ⟨-, hds, hsize⟩, heq, -⟩
    obtain ⟨rfl, rfl⟩ := frame_inj (SOH_not_mem _ hdigits) (SOH_not_mem _ hds) heq
    rw [hval, bodyText_length] at hsize
    omega
  · intro h
    refine ⟨_, _, fields g, ⟨?_, hdigits, ?_⟩, rfl, rfl⟩
    · intro hnil
      have := congrArg List.length hnil
      simp at this
    · rw [hval, bodyText_length]
      omega

structure RenderCall where
  setting : Setting
  mem : Mem Byte
  buf : Int
  bsz : Nat
  msg : fix_msg_t

/-- The `k`-th message, with its checksum and the line break and the NUL behind it, fits. -/
def RenderCall.Fits (c : RenderCall) (k : Nat) : Prop :=
  fhdr.length + bodyLength c.setting k c.msg + 7 + 2 ≤ c.bsz

def fix_reset : UInt32 := 1

def render (seq : UInt32) (c : RenderCall) : UInt32 × List Rendered :=
  let r := fix_render c.setting seq c.mem c.buf c.msg
  (r.1, [r.2])

theorem render_run (calls : List RenderCall) (seq : UInt32) (i : Nat) (c : RenderCall)
    (hc : calls[i]? = some c) :
    (feed render seq calls).2[i]? =
      some (fix_render c.setting (seq + UInt32.ofNat i) c.mem c.buf c.msg).2 := by
  induction calls generalizing seq i with
  | nil => simp at hc
  | cons d ds ih =>
    rw [feed_cons]
    cases i with
    | zero =>
      obtain rfl : d = c := by simpa using hc
      simp [render]
    | succ i =>
      have h := ih (seq + 1) i (by simpa using hc)
      have hseq : seq + 1 + UInt32.ofNat i = seq + UInt32.ofNat (i + 1) := by
        rw [UInt32.add_assoc, UInt32.ofNat_add, UInt32.add_comm 1]
        rfl
      have hstep : (render seq d).1 = seq + 1 := rfl
      rw [hseq] at h
      rw [hstep]
      simpa [render] using h

/-- A message is a frame as long as its body has a length of three digits. -/
theorem fix_render_valid (calls : List RenderCall) (hlen : calls.length < 2 ^ 32)
    (hfit : ∀ (i : Nat) (c : RenderCall), calls[i]? = some c → c.Fits (i + 1)) (i : Nat) (c : RenderCall)
    (hc : calls[i]? = some c) :
    ∃ r, (feed render fix_reset calls).2[i]? = some r ∧
      Mem.Within c.buf (c.buf + c.bsz) c.mem r.mem ∧
      (Valid c.msg.typ (i + 1) c.msg.msg (r.text c.buf) ↔ bodyLength c.setting (i + 1) c.msg < 1000) := by
  have hi := (List.getElem?_eq_some_iff.mp hc).1
  have hnum : (fix_reset + UInt32.ofNat i).toNat = i + 1 := by
    rw [UInt32.toNat_add, UInt32.toNat_ofNat', show fix_reset.toNat = 1 from rfl]
    omega
  have hseq : fix_reset + UInt32.ofNat i ≠ 0 := by
    intro h0
    rw [h0] at hnum
    simp at hnum
  obtain ⟨htext, hrlen, hwithin⟩ := fix_render_spec c.setting _ c.mem c.buf c.msg hseq
  rw [hnum, bodyText_length] at htext hrlen
  refine ⟨_, render_run calls fix_reset i c hc, hwithin.mono (le_refl _) ?_, ?_⟩
  · have h := hfit i c hc
    unfold RenderCall.Fits at h
    rw [hrlen, frame_length, bodyText_length]
    omega
  · rw [htext]
    exact valid_frame _ _ _

def message (typ : Char) (user : List Byte) : RenderCall where
  setting := ⟨ascii "ME", ascii "YOU", ascii "20160101-12:00:00.000", by decide⟩
  mem := ⟨fun _ => 0, 1536, []⟩
  buf := 0
  bsz := 1536
  msg := ⟨UInt8.ofNat typ.toNat, user⟩

theorem fix_render_valid_heartbeats :
    ∃ r, (feed render fix_reset [message '0' [], message '0' []]).2[1]? = some r ∧
      Valid 48 2 [] (r.text 0) := by
  have hfit : ∀ (i : Nat) (c : RenderCall), [message '0' [], message '0' []][i]? = some c →
      c.Fits (i + 1) := by
    intro i c hc
    match i with
    | 0 =>
      obtain rfl : message '0' [] = c := by simpa using hc
      unfold RenderCall.Fits
      decide
    | 1 =>
      obtain rfl : message '0' [] = c := by simpa using hc
      unfold RenderCall.Fits
      decide
    | i + 2 => simp at hc
  obtain ⟨r, hr, -, h⟩ := fix_render_valid [message '0' [], message '0' []] (by decide) hfit 1 _ rfl
  exact ⟨r, hr, h.mpr (by decide)⟩

/-- A body of 1024 bytes is announced as one of 24. -/
theorem long_body_misframed :
    let c := message 'V' (List.replicate 976 65)
    c.Fits 1 ∧ ∃ r, (feed render fix_reset [c]).2[0]? = some r ∧
      ¬ Valid 86 1 c.msg.msg (r.text 0) := by
  intro c
  refine ⟨?_, _, render_run [c] fix_reset 0 c rfl, ?_⟩
  · unfold RenderCall.Fits
    decide +kernel
  · obtain ⟨htext, -, -⟩ := fix_render_spec c.setting 1 c.mem c.buf c.msg (by decide)
    rw [bodyText_length] at htext
    have hlong : bodyLength c.setting 1 c.msg = 1024 := by decide +kernel
    have h := valid_frame c.setting 1 c.msg
    intro hv
    have := h.mp (htext ▸ hv)
    omega

end Coins.Fix
