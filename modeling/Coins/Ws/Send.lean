import Coins.Ws.Frame

/-!
# The encoders

`ws_send`, `ws_ping` and `ws_pong`, and when a receiver gets back what they were given.
-/

open Coins.Endian

namespace Coins.Ws

/-! ## The code -/

/-- The members of a `wsfr_t`. -/
structure Fields where
  code : Nat
  rsv3 : Nat
  rsv2 : Nat
  rsv1 : Nat
  finp : Nat
  plen : Nat
  mask : Nat
  plen16 : Nat
  plen16_1 : Nat
  plen16_2 : Nat
  plen16_3 : Nat
  mkey : Nat

/-- The 14 bytes of the struct: bit fields from the low bit on, numbers low byte first. -/
def Fields.bytes (f : Fields) : List Byte :=
  UInt8.ofNat (f.code + 16 * f.rsv3 + 32 * f.rsv2 + 64 * f.rsv1 + 128 * f.finp) ::
  UInt8.ofNat (f.plen + 128 * f.mask) ::
  (leBytes 2 f.plen16 ++ leBytes 2 f.plen16_1 ++ leBytes 2 f.plen16_2 ++ leBytes 2 f.plen16_3 ++
    leBytes 4 f.mkey)

/-- The header of a frame of `bsz` bytes, and how much of it goes out (`slen`). -/
def ws_send_header (bsz : Nat) : Fields × Nat :=
  let fr : Fields := ⟨1, 0, 0, 0, 1, 0, 1, 0, 0, 0, 0, 0⟩
  if 65536 ≤ bsz then
    let blen := htobe64 bsz
    ({ fr with
        plen := 127
        plen16 := blen >>> 48 &&& 0xffff
        plen16_1 := blen >>> 32 &&& 0xffff
        plen16_2 := blen >>> 16 &&& 0xffff
        plen16_3 := blen >>> 0 &&& 0xffff }, 14)
  else if 126 ≤ bsz then ({ fr with plen := 126, plen16 := htobe16 bsz }, 2 + 2 + 4)
  else ({ fr with plen := bsz }, 2 + 4)

/-- The send buffer that all handles share: its allocation, `gbsz` and `gbrc`. -/
structure gbuf_s where
  gbuf : Option Nat
  gbsz : Nat
  gbrc : Nat

/-- Makes room for `n` bytes; `none` when `malloc` fails. -/
def gbuf_s.room (g : gbuf_s) (malloc : Nat → Bool) (n : Nat) : Option gbuf_s :=
  if g.gbsz < n then
    let gbsz := (n ||| 0xff) + 1
    if malloc gbsz then some { g with gbuf := some gbsz, gbsz := gbsz } else none
  else some g

/-- The send buffer afterwards, and the bytes handed to the socket. -/
def ws_send (g : gbuf_s) (malloc : Nat → Bool) (buf : List Byte) : gbuf_s × Option (List Byte) :=
  let fr := ws_send_header buf.length
  match g.room malloc (fr.2 + buf.length) with
  | none => ({ g with gbuf := none, gbsz := 0 }, none)
  | some g => (g, some (fr.1.bytes.take fr.2 ++ buf))

def ws_ping (msg : List Byte) : List Byte :=
  let _ping : List Byte := [0x89, 0x80, 0x00, 0x00, 0x00, 0x00]
  if 0 < msg.length then
    let msz := if 125 < msg.length then 125 else msg.length
    [0x8a, UInt8.ofNat (0x80 ^^^ msz), 0, 0, 0, 0] ++ msg.take msz
  else _ping

def ws_pong (msg : List Byte) : List Byte :=
  let _pong : List Byte := [0x8a, 0x80, 0x00, 0x00, 0x00, 0x00]
  if 0 < msg.length then
    let msz := if 125 < msg.length then 125 else msg.length
    [0x8a, UInt8.ofNat (0x80 ^^^ msz), 0, 0, 0, 0] ++ msg.take msz
  else _pong

/-! ## Frames that decode to what went in -/

/-- A header as the encoders lay it out, in front of `payload`: two bytes, the extended length `e`
and the zero key. -/
def masked (b0 b1 : Byte) (e payload : List Byte) : List Byte :=
  b0 :: b1 :: (e ++ [0, 0, 0, 0] ++ payload)

section
variable (b0 b1 : Byte) {code : Nat} (short : Nat) (e payload : List Byte)
  (h0 : b0.toNat = 128 + code) (hc : code < 16) (h1 : b1.toNat = 128 + short) (hs : short < 128)
  (he : e.length = if short = 126 then 2 else if short = 127 then 8 else 0)

include h1 hs in
theorem masked_shortLen : shortLen (masked b0 b1 e payload) = short := by
  have : byteAt (masked b0 b1 e payload) 1 = 128 + short := h1
  rw [shortLen, this]
  omega

include h1 hs he in
theorem masked_extLen : extLen (masked b0 b1 e payload) = e.length := by
  rw [extLen, masked_shortLen b0 b1 short e payload h1 hs, he]

include h1 hs he in
theorem masked_hdrLen : hdrLen (masked b0 b1 e payload) = 2 + e.length + 4 := by
  have : byteAt (masked b0 b1 e payload) 1 = 128 + short := h1
  rw [hdrLen, masked_extLen b0 b1 short e payload h1 hs he, maskBit, this]
  simp

include h1 hs he in
theorem masked_payLen :
    payLen (masked b0 b1 e payload) = if e.length = 0 then short else ofBe e := by
  rw [payLen, masked_extLen b0 b1 short e payload h1 hs he, masked_shortLen b0 b1 short e payload h1 hs]
  congr 2
  simp [masked]

include h0 hc h1 hs he in
theorem masked_iff :
    SingleFrame code payload (masked b0 b1 e payload) ↔
      (if e.length = 0 then short else ofBe e) = payload.length := by
  have e0 : byteAt (masked b0 b1 e payload) 0 = 128 + code := h0
  have e1 : byteAt (masked b0 b1 e payload) 1 = 128 + short := h1
  have hx := masked_extLen b0 b1 short e payload h1 hs he
  have hh := masked_hdrLen b0 b1 short e payload h1 hs he
  have hp := masked_payLen b0 b1 short e payload h1 hs he
  constructor
  · intro h
    unfold SingleFrame decodeFrame at h
    split at h
    · simp at h
    · simp only [Option.some.injEq, Decoded.mk.injEq] at h
      rw [← hp]
      exact h.2.2.2.1
  · intro h
    rw [h] at hp
    have hlen : (masked b0 b1 e payload).length = 2 + e.length + 4 + payload.length := by
      simp [masked]
      omega
    have hkey : (masked b0 b1 e payload).drop (2 + e.length) = [0, 0, 0, 0] ++ payload := by
      rw [Nat.add_comm]
      simp [masked]
    have hbody : (masked b0 b1 e payload).drop (2 + e.length + 4) = payload := by
      rw [← List.drop_drop, hkey]
      rfl
    have hrest : (masked b0 b1 e payload).drop (2 + e.length + 4 + payload.length) = [] := by
      rw [← List.drop_drop, hbody, List.drop_length]
    rw [SingleFrame, decodeFrame, hh, hp, hx, if_neg (by omega), hkey, hbody, hrest]
    simp [finBit, opcode, maskBit, e0, e1]
    omega

end

theorem xor_128 (n : Nat) (h : n < 128) : 128 ^^^ n = 128 + n := by
  have key : ∀ n : Fin 128, (128 ^^^ n.val) = 128 + n.val := by decide
  exact key ⟨n, h⟩

theorem control_msg (msg : List Byte) :
    msg.take (if 125 < msg.length then 125 else msg.length) = msg.take 125 := by
  split
  · rfl
  · rw [List.take_length, List.take_of_length_le (by omega)]

theorem control_frame (msg : List Byte) :
    SingleFrame 0xA (msg.take 125)
      ([0x8a, UInt8.ofNat (0x80 ^^^ (if 125 < msg.length then 125 else msg.length)), 0, 0, 0, 0] ++
        msg.take (if 125 < msg.length then 125 else msg.length)) := by
  have hlen : (if 125 < msg.length then 125 else msg.length) = (msg.take 125).length := by
    rw [List.length_take]
    split <;> omega
  have hle : (msg.take 125).length ≤ 125 := by simp
  rw [control_msg, hlen]
  refine (masked_iff _ _ (msg.take 125).length [] _ rfl (by omega) ?_ (by omega) ?_).mpr rfl
  · rw [xor_128 _ (by omega), UInt8.toNat_ofNat']
    omega
  · rw [if_neg (by omega), if_neg (by omega)]
    rfl

theorem ws_pong_spec (msg : List Byte) : SingleFrame 0xA (msg.take 125) (ws_pong msg) := by
  have h := control_frame msg
  rw [ws_pong]
  split
  · exact h
  · rename_i h0
    have : msg = [] := List.eq_nil_of_length_eq_zero (by omega)
    subst this
    exact h

theorem ws_ping_spec (msg : List Byte) :
    SingleFrame (if msg = [] then 0x9 else 0xA) (msg.take 125) (ws_ping msg) := by
  have h := control_frame msg
  rw [ws_ping]
  by_cases h0 : msg = []
  · subst h0
    rfl
  · rw [if_neg h0, if_pos (List.length_pos_of_ne_nil h0)]
    exact h

theorem singleFrame_code {c d : Nat} {payload payload' l : List Byte} (h : SingleFrame c payload l)
    (h' : SingleFrame d payload' l) : c = d := by
  rw [SingleFrame, h] at h'
  simp only [Option.some.injEq, Decoded.mk.injEq] at h'
  exact h'.2.1

theorem ws_send_wire (g g' : gbuf_s) (malloc : Nat → Bool) (buf wire : List Byte)
    (h : ws_send g malloc buf = (g', some wire)) :
    wire = (ws_send_header buf.length).1.bytes.take (ws_send_header buf.length).2 ++ buf := by
  simp only [ws_send] at h
  split at h
  · simp at h
  · simp only [Prod.mk.injEq, Option.some.injEq] at h
    exact h.2.symm

theorem ws_send_sends (g : gbuf_s) (buf : List Byte) :
    ∃ g' wire, ws_send g (fun _ => true) buf = (g', some wire) := by
  by_cases h : g.gbsz < (ws_send_header buf.length).2 + buf.length
  · simp [ws_send, gbuf_s.room, h]
  · simp [ws_send, gbuf_s.room, h]

/-! ## The 64-bit length -/

/-- The four 16-bit words of a number in the opposite order. -/
def swapWords (n : Nat) : Nat :=
  n % 2 ^ 16 * 2 ^ 48 + n / 2 ^ 16 % 2 ^ 16 * 2 ^ 32 + n / 2 ^ 32 % 2 ^ 16 * 2 ^ 16 + n / 2 ^ 48 % 2 ^ 16

theorem word_of_eight (a m z : List Byte) (h : m.length = 2) :
    leBytes 2 (ofLe (a ++ m ++ z) >>> (8 * a.length) &&& 0xffff) = m := by
  have hmask : ∀ x : Nat, x &&& 0xffff = x % 256 ^ 2 := fun x => Nat.and_two_pow_sub_one_eq_mod x 16
  have hpow : 2 ^ (8 * a.length) = 256 ^ a.length := by
    rw [pow_mul]
    norm_num
  have ha := ofLe_lt a
  have hdiv : ofLe (a ++ m ++ z) / 256 ^ a.length = ofLe m + 256 ^ m.length * ofLe z := by
    rw [List.append_assoc, ofLe_append, Nat.add_mul_div_left _ _ (by positivity),
      Nat.div_eq_of_lt ha, Nat.zero_add, ofLe_append]
  have hm := ofLe_lt m
  have hback := leBytes_ofLe m
  rw [h] at hdiv hm hback
  rw [hmask, Nat.shiftRight_eq_div_pow, hpow, hdiv, Nat.add_mul_mod_self_left, Nat.mod_eq_of_lt hm]
  exact hback

theorem words_swapped (n : Nat) :
    ofBe (leBytes 2 (htobe64 n >>> 48 &&& 0xffff) ++ leBytes 2 (htobe64 n >>> 32 &&& 0xffff) ++
      leBytes 2 (htobe64 n >>> 16 &&& 0xffff) ++ leBytes 2 (htobe64 n >>> 0 &&& 0xffff)) =
      swapWords n := by
  -- the words of the length, high byte first
  have hsplit : beBytes 8 n = beBytes 2 (n / 256 ^ 6) ++ beBytes 2 (n / 256 ^ 4) ++
      beBytes 2 (n / 256 ^ 2) ++ beBytes 2 n := by
    simp [beBytes, leBytes, Nat.div_div_eq_div_mul]
  have w3 := word_of_eight (beBytes 2 (n / 256 ^ 6) ++ beBytes 2 (n / 256 ^ 4) ++
    beBytes 2 (n / 256 ^ 2)) (beBytes 2 n) [] (by simp)
  have w2 := word_of_eight (beBytes 2 (n / 256 ^ 6) ++ beBytes 2 (n / 256 ^ 4))
    (beBytes 2 (n / 256 ^ 2)) (beBytes 2 n) (by simp)
  have w1 := word_of_eight (beBytes 2 (n / 256 ^ 6)) (beBytes 2 (n / 256 ^ 4))
    (beBytes 2 (n / 256 ^ 2) ++ beBytes 2 n) (by simp)
  have w0 := word_of_eight [] (beBytes 2 (n / 256 ^ 6))
    (beBytes 2 (n / 256 ^ 4) ++ beBytes 2 (n / 256 ^ 2) ++ beBytes 2 n) (by simp)
  simp only [List.append_nil, List.nil_append, ← List.append_assoc, ← hsplit, List.length_append,
    beBytes_length, List.length_nil] at w0 w1 w2 w3
  rw [htobe64, w3, w2, w1, w0]
  -- what each word is worth at its new place
  rw [ofBe, List.reverse_append, List.reverse_append, List.reverse_append]
  simp only [beBytes, List.reverse_reverse, ofLe_append, leBytes_length, ofLe_leBytes, swapWords]
  norm_num
  omega

theorem ws_send_iff (g g' : gbuf_s) (malloc : Nat → Bool) (buf wire : List Byte)
    (h : ws_send g malloc buf = (g', some wire)) :
    SingleFrame 0x1 buf wire ↔ buf.length < 65536 ∨ swapWords buf.length = buf.length := by
  rw [ws_send_wire g g' malloc buf wire h]
  by_cases hlong : 65536 ≤ buf.length
  · -- 127 and eight bytes
    have hwire : (ws_send_header buf.length).1.bytes.take (ws_send_header buf.length).2 ++ buf =
        masked 129 255
          (leBytes 2 (htobe64 buf.length >>> 48 &&& 0xffff) ++
            leBytes 2 (htobe64 buf.length >>> 32 &&& 0xffff) ++
            leBytes 2 (htobe64 buf.length >>> 16 &&& 0xffff) ++
            leBytes 2 (htobe64 buf.length >>> 0 &&& 0xffff)) buf := by
      rw [ws_send_header, if_pos hlong]
      simp [Fields.bytes, masked, leBytes]
    rw [hwire, masked_iff _ _ 127 _ buf rfl (by omega) rfl (by omega) (by simp), words_swapped,
      if_neg (by simp)]
    omega
  · by_cases hmid : 126 ≤ buf.length
    · -- 126 and two bytes
      have hwire : (ws_send_header buf.length).1.bytes.take (ws_send_header buf.length).2 ++ buf =
          masked 129 254 (leBytes 2 (htobe16 buf.length)) buf := by
        rw [ws_send_header, if_neg hlong, if_pos hmid]
        simp [Fields.bytes, masked, leBytes]
      have hbe : leBytes 2 (htobe16 buf.length) = beBytes 2 buf.length := by
        have := leBytes_ofLe (beBytes 2 buf.length)
        rwa [beBytes_length] at this
      rw [hwire, masked_iff _ _ 126 _ buf rfl (by omega) rfl (by omega) (by simp), hbe,
        if_neg (by simp), ofBe_beBytes]
      omega
    · -- the length in the second byte
      have hwire : (ws_send_header buf.length).1.bytes.take (ws_send_header buf.length).2 ++ buf =
          masked 129 (UInt8.ofNat (buf.length + 128)) [] buf := by
        rw [ws_send_header, if_neg hlong, if_neg hmid]
        simp [Fields.bytes, masked, leBytes]
      have h1 : (UInt8.ofNat (buf.length + 128)).toNat = 128 + buf.length := by
        rw [UInt8.toNat_ofNat']
        omega
      rw [hwire, masked_iff _ _ buf.length _ buf rfl (by omega) h1 (by omega)
        (by rw [if_neg (by omega), if_neg (by omega)]; rfl)]
      simp
      omega

/-! ## What the encoders put on the wire -/

/-- Each encoder yields its frame, but for long payloads whose length does not read the same with
its words swapped, and for pings with a message. -/
theorem encoders_spec (g g' : gbuf_s) (malloc : Nat → Bool) (buf wire msg : List Byte)
    (h : ws_send g malloc buf = (g', some wire)) :
    (SingleFrame 0x1 buf wire ↔ buf.length < 65536 ∨ swapWords buf.length = buf.length) ∧
      (SingleFrame 0x9 (msg.take 125) (ws_ping msg) ↔ msg = []) ∧
      SingleFrame 0xA (msg.take 125) (ws_pong msg) := by
  refine ⟨ws_send_iff g g' malloc buf wire h, ?_, ws_pong_spec msg⟩
  have hping := ws_ping_spec msg
  constructor
  · intro h9
    by_contra hne
    rw [if_neg hne] at hping
    exact absurd (singleFrame_code h9 hping) (by omega)
  · rintro rfl
    exact hping

theorem encoders_spec_hi :
    SingleFrame 0x1 [104, 105] [0x81, 0x82, 0, 0, 0, 0, 104, 105] ∧
      SingleFrame 0x9 [] (ws_ping []) := by
  have h := encoders_spec ⟨none, 0, 1⟩ ⟨some 256, 256, 1⟩ (fun _ => true) [104, 105]
    [0x81, 0x82, 0, 0, 0, 0, 104, 105] [] rfl
  exact ⟨h.1.mpr (Or.inl (by decide)), h.2.1.mpr rfl⟩

/-- 65536 bytes go out with the length 2^32, and a ping that says `x` is a pong. -/
theorem long_send_and_ping_misframed :
    (∃ g wire, ws_send ⟨none, 0, 1⟩ (fun _ => true) (List.replicate 65536 0) = (g, some wire) ∧
      ¬ SingleFrame 0x1 (List.replicate 65536 0) wire) ∧
    ¬ SingleFrame 0x9 [120] (ws_ping [120]) := by
  constructor
  · obtain ⟨g, wire, h⟩ := ws_send_sends ⟨none, 0, 1⟩ (List.replicate 65536 0)
    refine ⟨g, wire, h, ?_⟩
    rw [ws_send_iff _ _ _ _ _ h, List.length_replicate]
    simp [swapWords]
  · intro h
    exact absurd (singleFrame_code h (ws_ping_spec [120])) (by simp)

end Coins.Ws
