import Coins.Ws.Send
import Coins.Ws.Stream

/-!
# `ws_recv`

The frame decoder: it reads behind the bytes it kept from last time, takes the headers out in
place, and keeps the bytes of a header that is not all there.
-/

open Coins.Endian Coins.Memory Coins.Transducer

namespace Coins.Ws

/-! ## The code -/

/-- The handle and the locals of `ws_recv`, the pongs sent so far, and whether it called `abort`. -/
structure Loc where
  ws : ws_s
  mem : Mem Byte
  pp : Nat
  rp : Nat
  sent : List (List Byte)
  dead : Bool

/-- From `again` to `unpkd`: takes the next header. -/
def unpack (buf : Int) (s : Loc) : Loc :=
  let frml := s.ws.frml.set (s.mem.view (buf + s.pp) 14)
  -- finalise the previous output
  let mem := (s.mem.read (buf + s.pp) 14).store (buf + s.rp) [nl]
  let rp := s.rp + s.ws.state
  let togo : Int :=
    if frml.plen = 126 then be16toh frml.plen16
    else if frml.plen = 127 then toSsize (be64toh frml.plen64)
    else frml.plen
  let pp := s.pp + if frml.plen = 126 then 4 else if frml.plen = 127 then 10 else 2
  -- mind the masking
  let pp := pp + if frml.mask = 1 then 4 else 0
  { s with ws := { s.ws with togo := togo, frml := frml }, mem := mem, pp := pp, rp := rp }

/-- From `unpkd` on: takes as much of the payload as is there. -/
def deliver (buf : Int) (nrd : Nat) (s : Loc) : Loc :=
  let pz := min_z (toSize s.ws.togo) (nrd - s.pp)
  let togo := toSsize (s.ws.togo - pz)
  let code := s.ws.frml.code
  if code = 0 ∨ code = 1 ∨ code = 2 ∨ code = 8 then
    { s with
      ws := { s.ws with
        togo := togo
        state := if (togo = 0 ∧ s.ws.frml.finp ≠ 0) ∨ code = 8 then 1 else 0 }
      mem := s.mem.move (buf + s.rp) (buf + s.pp) pz
      rp := s.rp + pz
      pp := s.pp + pz }
  else if code = 9 then
    let msg := s.mem.view (buf + s.pp) pz
    { s with
      ws := { s.ws with togo := togo, state := 1 }
      mem := (s.mem.read (buf + s.pp) (min pz 125)).move (buf + s.rp) (buf + s.pp) pz
      rp := s.rp + pz
      pp := s.pp + pz
      sent := s.sent ++ [ws_pong msg] }
  else if code = 10 then
    { s with ws := { s.ws with togo := togo, state := 0 }, pp := s.pp + pz }
  else { s with ws := { s.ws with togo := togo }, dead := true }

/-- `goto again` as long as there is more than a header left. Each turn takes two bytes at least,
so `nrd` turns are enough. -/
def more (buf : Int) (nrd : Nat) : Nat → Loc → Loc
  | 0, s => s
  | n + 1, s =>
    if s.dead ∨ nrd ≤ s.pp + 14 then s else more buf nrd n (deliver buf nrd (unpack buf s))

theorem more_stop (buf : Int) (nrd n : Nat) (s : Loc) (h : s.dead = true ∨ nrd ≤ s.pp + 14) :
    more buf nrd n s = s := by
  cases n with
  | zero => rfl
  | succ n => rw [more, if_pos h]

/-- The handle, the buffer and the pongs after a call, and what it returned; `none` is `abort`. -/
structure Received where
  ws : ws_s
  mem : Mem Byte
  sent : List (List Byte)
  ret : Option Int

/-- From `stash` on. -/
def stash (buf : Int) (nrd : Nat) (s : Loc) : Received :=
  if s.dead ∨ nrd < s.pp then ⟨s.ws, s.mem, s.sent, none⟩
  else
    let n := nrd - s.pp
    let frml := s.ws.frml.set (s.mem.view (buf + s.pp) n)
    -- finalise the previous output
    let mem := (s.mem.read (buf + s.pp) n).store (buf + s.rp) [nl]
    ⟨{ s.ws with frml := frml, done := n }, mem, s.sent, some (s.rp + s.ws.state : Nat)⟩

/-- `rd` is what the peer has sent; the socket hands over as much of it as there is room for. -/
def ws_recv (ws : ws_s) (m : Mem Byte) (buf : Int) (bsz : Nat) (rd : List Byte) : Received :=
  -- unstash
  let m := m.store buf (ws.frml.raw.take ws.done)
  let got := rd.take (bsz - ws.done)
  let m := m.store (buf + ws.done) got
  if got = [] then ⟨ws, m, [], some (-1)⟩
  else
    let nrd := got.length + ws.done
    let s : Loc := ⟨ws, m, 0, 0, [], false⟩
    if nrd < 14 ∧ ws.togo = 0 then stash buf nrd s
    else
      let s := if ws.togo ≠ 0 then s else unpack buf s
      stash buf nrd (more buf nrd nrd (deliver buf nrd s))

/-! ## The protocol stays -/

theorem deliver_p (buf : Int) (nrd : Nat) (s : Loc) : (deliver buf nrd s).ws.p = s.ws.p := by
  unfold deliver
  simp only
  split
  · rfl
  · split
    · rfl
    · split <;> rfl

theorem more_p (buf : Int) (nrd n : Nat) (s : Loc) : (more buf nrd n s).ws.p = s.ws.p := by
  induction n generalizing s with
  | zero => rfl
  | succ n ih =>
    unfold more
    split
    · rfl
    · rw [ih, deliver_p]
      rfl

theorem stash_p (buf : Int) (nrd : Nat) (s : Loc) : (stash buf nrd s).ws.p = s.ws.p := by
  unfold stash
  split <;> rfl

theorem ws_recv_p (ws : ws_s) (m : Mem Byte) (buf : Int) (bsz : Nat) (rd : List Byte) :
    (ws_recv ws m buf bsz rd).ws.p = ws.p := by
  unfold ws_recv
  simp only
  split
  · rfl
  · split
    · exact stash_p _ _ _
    · rw [stash_p, more_p, deliver_p]
      split <;> rfl

/-- The bytes that the caller gets to see. -/
def Received.text (r : Received) (buf : Int) : List Byte :=
  match r.ret with
  | none => []
  | some k => r.mem.view buf k.toNat

/-! ## The header in the handle -/

/-- The handle holds the header `h`, as far as a payload depends on it. -/
def Holds (f : wsfr_t) (h : List Byte) : Prop := f.code = opcode h ∧ (f.finp ≠ 0 ↔ finBit h = true)

theorem holds_raw (f : wsfr_t) : Holds f f.raw := by
  refine ⟨rfl, ?_⟩
  have : finBit f.raw = decide (128 ≤ f.byte 0) := rfl
  rw [this, wsfr_t.finp, decide_eq_true_iff]
  omega

theorem Holds.take {f : wsfr_t} {h : List Byte} (hf : Holds f h) (k : Nat) (hk : 2 ≤ k) :
    Holds f (h.take k) := by
  rw [Holds, opcode_take _ _ hk, finBit_take _ _ hk]
  exact hf

theorem ext16 (f : wsfr_t) : be16toh f.plen16 = ofBe ((f.raw.drop 2).take 2) := by
  have hlen : ((f.raw.drop 2).take 2).length = 2 := by simp [f.size]
  have := ofBe_leBytes_ofLe ((f.raw.drop 2).take 2)
  rwa [hlen] at this

theorem ext64 (f : wsfr_t) : be64toh f.plen64 = ofBe ((f.raw.drop 2).take 8) := by
  have hlen : ((f.raw.drop 2).take 8).length = 8 := by simp [f.size]
  have := ofBe_leBytes_ofLe ((f.raw.drop 2).take 8)
  rwa [hlen] at this

theorem togo_payLen (f : wsfr_t) :
    (if f.plen = 126 then (be16toh f.plen16 : Int) else if f.plen = 127 then
      toSsize (be64toh f.plen64) else f.plen) = toSsize (payLen f.raw) := by
  have hplen : f.plen = shortLen f.raw := rfl
  have hlt : shortLen f.raw < 128 := Nat.mod_lt _ (by omega)
  rw [hplen, ext16, ext64, payLen, extLen]
  by_cases h6 : shortLen f.raw = 126
  · have hlen : ((f.raw.drop 2).take 2).length = 2 := by simp [f.size]
    have h16 := ofBe_lt ((f.raw.drop 2).take 2)
    rw [hlen] at h16
    rw [if_pos h6, if_pos h6, if_neg (by omega), toSsize_of_lt _ (by omega)]
  · by_cases h7 : shortLen f.raw = 127
    · rw [if_neg h6, if_pos h7, if_neg h6, if_pos h7, if_neg (by omega)]
    · rw [if_neg h6, if_neg h7, if_neg h6, if_neg h7, if_pos rfl, toSsize_of_lt _ (by omega)]

theorem pp_hdrLen (f : wsfr_t) :
    (if f.plen = 126 then 4 else if f.plen = 127 then 10 else 2) + (if f.mask = 1 then 4 else 0) =
      hdrLen f.raw := by
  have hplen : f.plen = shortLen f.raw := rfl
  have hmask : f.mask = 1 ↔ maskBit f.raw = true := by
    have hlt : byteAt f.raw 1 < 256 := (f.raw.getD 1 0).toNat_lt
    have : f.mask = byteAt f.raw 1 / 128 := rfl
    rw [this, maskBit, decide_eq_true_iff]
    omega
  simp only [hplen, hmask, hdrLen, extLen]
  split_ifs <;> omega

theorem unpack_fields (buf : Int) (s : Loc) (l : List Byte)
    (hl : s.mem.view (buf + s.pp) 14 = l.take 14) :
    Holds (unpack buf s).ws.frml l ∧ (unpack buf s).ws.togo = toSsize (payLen l) ∧
      (unpack buf s).pp = s.pp + hdrLen l := by
  have hraw : (unpack buf s).ws.frml.raw = l.take 14 := by
    rw [← hl]
    exact wsfr_t.raw_set_full _ _ (by simp)
  have hle := hdrLen_le l
  have hpay : payLen (unpack buf s).ws.frml.raw = payLen l := by rw [hraw, payLen_take _ _ hle]
  have hhdr : hdrLen (unpack buf s).ws.frml.raw = hdrLen l := by
    rw [hraw, hdrLen_take _ _ (by omega)]
  refine ⟨?_, ?_, ?_⟩
  · have h := holds_raw (unpack buf s).ws.frml
    rwa [hraw, Holds, opcode_take _ _ (by omega), finBit_take _ _ (by omega)] at h
  · rw [← hpay]
    exact togo_payLen (unpack buf s).ws.frml
  · rw [← hhdr, ← pp_hdrLen, ← Nat.add_assoc]
    rfl

/-! ## One turn -/

/-- The text so far, with the line break that is still to be written. -/
def Loc.text (s : Loc) (buf : Int) : List Byte :=
  s.mem.view buf s.rp ++ List.replicate s.ws.state nl

/-- A place in the loop with the bytes `l` left to look at. -/
structure At (buf : Int) (nrd : Nat) (s : Loc) (l : List Byte) : Prop where
  pp_le : s.pp ≤ nrd
  rp_le : s.rp ≤ s.pp
  state_le : s.ws.state ≤ 1
  view : s.mem.view (buf + s.pp) (nrd - s.pp) = l
  alive : s.dead = false

theorem At.length {buf : Int} {nrd : Nat} {s : Loc} {l : List Byte} (h : At buf nrd s l) :
    l.length = nrd - s.pp := by
  rw [← h.view, Mem.view_length]

/-- After a payload, `k` bytes of it from `l`, under the header `h`. -/
structure Delivered (buf : Int) (nrd : Nat) (h l : List Byte) (k : Nat) (s s' : Loc) : Prop where
  at_ : At buf nrd s' (l.drop k)
  pp : s'.pp = s.pp + k
  text : s'.mem.view buf s'.rp = s.mem.view buf s.rp ++ if shows h then l.take k else []
  state : s'.ws.state = if (s'.ws.togo = 0 ∧ ends h) ∨ cuts h then 1 else 0
  togo : s'.ws.togo = toSsize (s.ws.togo - k)
  frml : s'.ws.frml = s.ws.frml
  mem : Mem.Within buf (buf + nrd) s.mem s'.mem

theorem moved (m : Mem Byte) (buf : Int) (nrd pp rp k : Nat) (l : List Byte) (hpp : pp + k ≤ nrd)
    (hrp : rp ≤ pp) (hl : m.view (buf + pp) (nrd - pp) = l) :
    (m.move (buf + rp) (buf + pp) k).view buf (rp + k) = m.view buf rp ++ l.take k ∧
      (m.move (buf + rp) (buf + pp) k).view (buf + (pp + k : Nat)) (nrd - (pp + k)) = l.drop k ∧
      Mem.Within buf (buf + nrd) m (m.move (buf + rp) (buf + pp) k) := by
  refine ⟨?_, ?_, Mem.Within.move _ _ _ (by omega) (by omega)⟩
  · rw [Mem.view_move_append, ← hl, Mem.view_take, Nat.min_eq_left (by omega)]
  · rw [Mem.view_move_after _ _ _ _ _ _ (by omega), ← hl, Mem.view_drop, Nat.sub_sub]
    congr 1
    omega

theorem flag_le (c : Prop) [Decidable c] : (if c then 1 else 0) ≤ 1 := by
  split <;> omega

theorem deliver_spec (buf : Int) (nrd : Nat) (s : Loc) (h l : List Byte) (hs : At buf nrd s l)
    (hh : Holds s.ws.frml h) (hk : known h = true) :
    Delivered buf nrd h l (min (toSize s.ws.togo) l.length) s (deliver buf nrd s) := by
  obtain ⟨hcode, hfin⟩ := hh
  have hpp := hs.pp_le
  have hrp := hs.rp_le
  have hlen := hs.length
  rw [hlen, ← min_z_eq]
  have hk0 : min_z (toSize s.ws.togo) (nrd - s.pp) ≤ nrd - s.pp := by
    rw [min_z_eq]
    omega
  generalize hz : min_z (toSize s.ws.togo) (nrd - s.pp) = pz at hk0
  have hpp' : s.pp + pz ≤ nrd := by omega
  have hrp' : s.rp + pz ≤ s.pp + pz := by omega
  obtain ⟨htext, hrest, hmem⟩ := moved s.mem buf nrd s.pp s.rp pz l (by omega) hrp hs.view
  simp only [known, decide_eq_true_eq] at hk
  by_cases hdata : opcode h = 0 ∨ opcode h = 1 ∨ opcode h = 2 ∨ opcode h = 8
  · have hshows : shows h = true := by
      simp only [shows, decide_eq_true_eq]
      omega
    simp only [deliver, hcode, hz]
    rw [if_pos hdata]
    refine ⟨⟨hpp', hrp', flag_le _, hrest, hs.alive⟩, rfl, ?_, ?_, rfl, rfl, hmem⟩
    · rw [hshows]
      exact htext
    · simp only [hfin, ends, cuts, decide_eq_true_eq]
      rcases hdata with h0 | h0 | h0 | h0 <;> simp [h0]
  · by_cases hping : opcode h = 9
    · obtain ⟨htext, hrest, hmem⟩ := moved (s.mem.read (buf + s.pp) (min pz 125)) buf nrd s.pp s.rp
        pz l (by omega) hrp (by rw [Mem.view_read, hs.view])
      simp only [deliver, hcode, hz]
      rw [if_neg hdata, if_pos hping]
      refine ⟨⟨hpp', hrp', le_refl 1, hrest, hs.alive⟩, rfl, ?_, ?_, rfl, rfl,
        (Mem.Within.read _ _ (by omega)).trans hmem⟩
      · have hshows : shows h = true := by simp [shows, hping]
        rw [hshows, ← Mem.view_read s.mem (buf + s.pp) buf (min pz 125) s.rp]
        exact htext
      · simp [cuts, hping]
    · have hpong : opcode h = 10 := by omega
      simp only [deliver, hcode, hz]
      rw [if_neg hdata, if_neg hping, if_pos hpong]
      refine ⟨⟨hpp', hrp.trans (Nat.le_add_right _ _), Nat.zero_le 1, ?_, hs.alive⟩, rfl, ?_, ?_, rfl,
        rfl, Mem.Within.refl _⟩
      · rw [← hs.view, Mem.view_drop, Nat.sub_sub]
        congr 1
        push_cast
        omega
      · simp [shows, hpong]
      · simp [ends, cuts, hpong]

/-- A header that is all there is taken out, and the pending line break is written. -/
structure Unpacked (buf : Int) (nrd : Nat) (l : List Byte) (s s' : Loc) : Prop where
  at_ : At buf nrd s' (l.drop (hdrLen l))
  pp : s'.pp = s.pp + hdrLen l
  rp_lt : s'.rp < s'.pp
  text : s'.mem.view buf s'.rp = s.text buf
  togo : s'.ws.togo = toSsize (payLen l)
  holds : Holds s'.ws.frml l
  mem : Mem.Within buf (buf + nrd) s.mem s'.mem

theorem finalise (m : Mem Byte) (buf : Int) (rp state : Nat) (h : state ≤ 1) :
    (m.store (buf + rp) [nl]).view buf (rp + state) = m.view buf rp ++ List.replicate state nl := by
  have hcases : state = 0 ∨ state = 1 := by omega
  rcases hcases with rfl | rfl
  · rw [Nat.add_zero, Mem.view_store_before _ _ _ _ _ (le_refl _)]
    simp
  · exact Mem.view_store_append m buf rp [nl]

theorem unpack_spec (buf : Int) (nrd : Nat) (s : Loc) (l : List Byte) (hs : At buf nrd s l)
    (h14 : 14 ≤ l.length) : Unpacked buf nrd l s (unpack buf s) := by
  have hlen := hs.length
  have hrp := hs.rp_le
  have hst := hs.state_le
  have h2 := two_le_hdrLen l
  have hle := hdrLen_le l
  have hhead : s.mem.view (buf + s.pp) 14 = l.take 14 := by
    rw [← hs.view, Mem.view_take, Nat.min_eq_left (by omega)]
  obtain ⟨hholds, htogo, hpp⟩ := unpack_fields buf s l hhead
  have hrp' : (unpack buf s).rp = s.rp + s.ws.state := rfl
  have hmem : (unpack buf s).mem = (s.mem.read (buf + s.pp) 14).store (buf + s.rp) [nl] := rfl
  refine ⟨⟨by omega, by omega, hst, ?_, hs.alive⟩, hpp, by omega, ?_, htogo, hholds, ?_⟩
  · -- the line break goes in front of the payload
    rw [hmem, hpp, Mem.view_store_after _ _ _ _ _ (by simp; omega), Mem.view_read, ← hs.view,
      Mem.view_drop, Nat.sub_sub]
    congr 1
    omega
  · rw [hmem, hrp', finalise _ _ _ _ hst, Mem.view_read]
    rfl
  · rw [hmem]
    exact (Mem.Within.read _ _ (by omega)).trans (Mem.Within.store _ _ (by simp; omega))

theorem deliver_dead (buf : Int) (nrd : Nat) (s : Loc) (h : List Byte) (hh : Holds s.ws.frml h)
    (hk : known h = false) : (deliver buf nrd s).dead = true := by
  simp only [known, decide_eq_false_iff_not] at hk
  simp only [deliver, hh.1]
  rw [if_neg (by omega), if_neg (by omega), if_neg (by omega)]

/-- The end of a call: the bytes that are left over go into the handle. -/
structure Stashed (buf : Int) (nrd : Nat) (l : List Byte) (s : Loc) (r : Received) : Prop where
  ret : r.ret = some ((s.rp + s.ws.state : Nat) : Int)
  text : r.text buf = s.text buf
  kept : r.ws.frml.raw.take r.ws.done = l
  done : r.ws.done = l.length
  togo : r.ws.togo = s.ws.togo
  state : r.ws.state = s.ws.state
  frml : l = [] → r.ws.frml = s.ws.frml
  mem : ∀ hi : Nat, nrd ≤ hi → s.rp < hi → Mem.Within buf (buf + hi) s.mem r.mem
  wrote : r.mem.Wrote (buf + s.rp)

theorem wsfr_t.set_nil (f : wsfr_t) : f.set [] = f := by
  cases f
  simp [wsfr_t.set]

theorem stash_spec (buf : Int) (nrd : Nat) (s : Loc) (l : List Byte) (hs : At buf nrd s l)
    (h14 : l.length ≤ 14) : Stashed buf nrd l s (stash buf nrd s) := by
  have hlen := hs.length
  have hpp := hs.pp_le
  have hrp := hs.rp_le
  have hgo : ¬ (s.dead = true ∨ nrd < s.pp) := by
    rw [hs.alive]
    simpa using hpp
  simp only [stash, hs.view]
  rw [if_neg hgo]
  refine ⟨rfl, ?_, ?_, hlen.symm, rfl, rfl, ?_, fun hi _ _ => ?_, by simp⟩
  · simp only [Received.text, Int.toNat_natCast]
    rw [finalise _ _ _ _ hs.state_le, Mem.view_read]
    rfl
  · simp only
    rw [← hlen]
    exact wsfr_t.raw_set _ _ h14
  · rintro rfl
    exact wsfr_t.set_nil _
  · exact (Mem.Within.read _ _ (by omega)).trans (Mem.Within.store _ _ (by simp; omega))

theorem at_start (ws : ws_s) (m : Mem Byte) (buf : Int) (rd kept : List Byte)
    (hraw : ws.frml.raw.take ws.done = kept) (hdone : ws.done = kept.length)
    (hst : ws.state ≤ 1) :
    At buf (rd.length + ws.done)
      ⟨ws, (m.store buf (ws.frml.raw.take ws.done)).store (buf + ws.done) rd, 0, 0, [], false⟩
      (kept ++ rd) := by
  refine ⟨Nat.zero_le _, le_refl _, hst, ?_, rfl⟩
  have h := Mem.view_store_append (m.store buf kept) buf kept.length rd
  simp only [Nat.cast_zero, Int.add_zero, Nat.sub_zero]
  rw [hraw, hdone, Nat.add_comm, h, Mem.view_store]

end Coins.Ws
