import Coins.Tinf.Deflate
import Coins.Tinf.Inflate

/-!
# Reading bits

`tag` holds the bits of bytes that have been taken from the source and not used yet, fewer than eight between two
reads. Behind the end of the source there are zeros, and `overflow` tells.
-/

open Coins.Bits Coins.Decoder Coins.Huffman

namespace Coins.Tinf

/-- The bits that are left. -/
def tinf_data.bits (d : tinf_data) : List Bool := lsb d.bitcount d.tag ++ ofBytes d.source

structure Good (d : tinf_data) : Prop where
  few : d.bitcount < 8
  tag_lt : d.tag < 2 ^ d.bitcount
  ended : d.overflow = true → d.source = []
  room : d.dest.length ≤ d.room
  ltree : d.ltree.symbols.length = 288
  dtree : d.dtree.symbols.length = 288

def seen : Seen tinf_data tinf_error_code Point where
  good := Good
  lost d := d.overflow = true
  view d := ⟨d.bits, d.dest⟩
  fits d p := p.out.length ≤ d.room
  full := .TINF_BUF_ERROR
  fits_view _ hd := hd.room

theorem bind_grows {α α' γ δ : Type} {rel : α → γ → Prop} {rel' : α' → δ → Prop} {m : Inflate α} {f : α → Inflate α'}
    {R : Piece γ} {S : γ → Piece δ} {d : tinf_data} (hm : Reads seen d (m d) rel R)
    (hf : ∀ a c e, m d = .ok (a, e) → Good e → rel a c → Reads seen e (f a e) rel' (S c)) (hS : ∀ c, Grows (S c)) :
    Reads seen d ((m >>= f) d) rel' (R.andThen S) := by
  apply hm.bind hf
  rintro c b q r - hb hfit
  exact (hS c q b r hb).trans hfit

theorem bind_quiet {α α' γ δ : Type} {rel : α → γ → Prop} {rel' : α' → δ → Prop} {m : Inflate α} {f : α → Inflate α'}
    {R : Piece γ} {S : γ → Piece δ} {d : tinf_data} (hm : Reads seen d (m d) rel R)
    (hf : ∀ a c e, m d = .ok (a, e) → Good e → rel a c → Reads seen e (f a e) rel' (S c)) (hS : ∀ c, Quiet (S c)) :
    Reads seen d ((m >>= f) d) rel' (R.andThen S) :=
  bind_grows hm hf fun c => (hS c).grows

/-! ## Refilling -/

/-- Enough bits are on the way; what is not read yet has not changed, and nothing else has. -/
structure Refilled (num : Nat) (d e : tinf_data) : Prop where
  enough : num ≤ e.bitcount
  few : e.bitcount < num + 8
  tag_lt : e.tag < 2 ^ e.bitcount
  ended : e.overflow = true → e.source = []
  lost : d.overflow = true → e.overflow = true
  bits : e.overflow = false → e.bits = d.bits
  long : num ≤ d.bits.length → d.overflow = false → e.overflow = false
  rest : e.dest = d.dest ∧ e.room = d.room ∧ e.ltree = d.ltree ∧ e.dtree = d.dtree

theorem refill_byte_source {d : tinf_data} {b : UInt8} {source : List UInt8} (h : d.source = b :: source)
    (hfew : d.bitcount ≤ 24) (htag : d.tag < 2 ^ d.bitcount) :
    refill_byte d
        = { d with source := source, tag := d.tag + 2 ^ d.bitcount * b.toNat, bitcount := d.bitcount + 8 } ∧
      d.tag + 2 ^ d.bitcount * b.toNat < 2 ^ (d.bitcount + 8) ∧ (refill_byte d).bits = d.bits := by
  have hb := b.toNat_lt
  have hpow : 2 ^ (d.bitcount + 8) ≤ 2 ^ 32 := Nat.pow_le_pow_right (by omega) (by omega)
  have hsplit : 2 ^ (d.bitcount + 8) = 2 ^ d.bitcount * 256 := Nat.pow_add 2 d.bitcount 8
  have hor : d.tag ||| b.toNat <<< d.bitcount = d.tag + 2 ^ d.bitcount * b.toNat := by
    rw [Nat.or_comm, ← Nat.shiftLeft_add_eq_or_of_lt htag, Nat.shiftLeft_eq, Nat.mul_comm, Nat.add_comm]
  have hmul := Nat.mul_le_mul_left (2 ^ d.bitcount) (Nat.le_of_lt_succ hb)
  have hnew : d.tag + 2 ^ d.bitcount * b.toNat < 2 ^ (d.bitcount + 8) := by omega
  have hbyte : refill_byte d
      = { d with source := source, tag := d.tag + 2 ^ d.bitcount * b.toNat, bitcount := d.bitcount + 8 } := by
    simp only [refill_byte, h]
    rw [hor, Nat.mod_eq_of_lt (hnew.trans_le hpow)]
  refine ⟨hbyte, hnew, ?_⟩
  rw [hbyte, tinf_data.bits, tinf_data.bits, h]
  simp only
  rw [lsb_join _ _ _ _ htag, List.append_assoc, ofBytes_cons]

theorem refill_byte_end {d : tinf_data} (h : d.source = []) :
    refill_byte d = { d with overflow := true, bitcount := d.bitcount + 8 } := by
  simp only [refill_byte, h]

theorem refill_spec (num : Nat) (d : tinf_data) (hnum : num ≤ 24) (hfew : d.bitcount < num + 8)
    (htag : d.tag < 2 ^ d.bitcount) (hend : d.overflow = true → d.source = []) : Refilled num d (refill num d) := by
  induction d using refill.induct num with
  | case2 d hge =>
    rw [refill, if_neg hge]
    exact ⟨by omega, hfew, htag, hend, id, fun _ => rfl, fun _ h => h, rfl, rfl, rfl, rfl⟩
  | case1 d hlt ih =>
    rw [refill, if_pos hlt]
    cases hsource : d.source with
    | cons b source =>
      obtain ⟨hbyte, hnew, hbits⟩ := refill_byte_source hsource (by omega) htag
      have hover : d.overflow = true → source = [] := by
        intro h
        rw [hend h] at hsource
        cases hsource
      rw [hbyte] at ih hbits ⊢
      have hstep := ih (by simp only; omega) hnew hover
      exact ⟨hstep.enough, hstep.few, hstep.tag_lt, hstep.ended, hstep.lost, fun h => (hstep.bits h).trans hbits,
        fun h h' => hstep.long (hbits ▸ h) h', hstep.rest⟩
    | nil =>
      have htag' : d.tag < 2 ^ (d.bitcount + 8) := htag.trans_le (Nat.pow_le_pow_right (by omega) (by omega))
      rw [refill_byte_end hsource] at ih ⊢
      have hstep := ih (by simp only; omega) htag' fun _ => hsource
      have hover := hstep.lost rfl
      refine ⟨hstep.enough, hstep.few, hstep.tag_lt, hstep.ended, fun _ => hover, fun h => ?_, fun h _ => ?_,
        hstep.rest⟩
      · rw [hover] at h
        cases h
      · rw [tinf_data.bits, hsource, ofBytes_nil, List.append_nil, lsb_length] at h
        omega

/-! ## Numbers -/

theorem getbits_reads (num : Nat) (hnum : num ≤ 24) (d : tinf_data) (hd : Good d) :
    Reads seen d (tinf_getbits num d) (Is (· < 2 ^ num)) (Number num) := by
  have hspec := refill_spec num d hnum (by have := hd.few; omega) hd.tag_lt hd.ended
  generalize he : refill num d = e at hspec
  obtain ⟨henough, hfew, htag, hended, hlost, hbits, hlong, hdest, hroom, hlt, hdt⟩ := hspec
  have hrun : tinf_getbits num d
      = .ok (e.tag % 2 ^ num, { e with tag := e.tag >>> num, bitcount := e.bitcount - num }) := by
    rw [tinf_getbits, tinf_refill, bind_apply, assert_bind (by omega : num ≤ 32), modify_bind, get_bind, he]
    rw [assert, if_pos (by omega : e.bitcount ≤ 32)]
    rw [← Nat.and_two_pow_sub_one_eq_mod, ← Nat.one_shiftLeft num]
    change tinf_getbits_no_refill num e = _
    rw [tinf_getbits_no_refill, get_bind, assert_bind henough]
    rfl
  have hpow : 2 ^ e.bitcount = 2 ^ num * 2 ^ (e.bitcount - num) := by
    rw [← Nat.pow_add, Nat.add_sub_cancel' henough]
  have hview : e.bits = lsb num (e.tag % 2 ^ num)
      ++ tinf_data.bits { e with tag := e.tag >>> num, bitcount := e.bitcount - num } := by
    rw [tinf_data.bits, tinf_data.bits]
    simp only
    rw [lsb_mod, Nat.shiftRight_eq_div_pow, ← List.append_assoc, ← lsb_add, Nat.add_sub_cancel' henough]
  rw [hrun]
  refine ⟨(fun h => by cases h), ?_, ?_, ?_, ?_⟩
  · rintro v t ht
    cases ht
    refine ⟨⟨by simp only; omega, ?_, hended, by simp only; rw [hdest, hroom]; exact hd.room,
      by simp only; rw [hlt]; exact hd.ltree, by simp only; rw [hdt]; exact hd.dtree⟩,
      ⟨_, rfl, Nat.mod_lt _ (Nat.two_pow_pos num)⟩, ?_, hlost⟩
    · simp only
      rw [Nat.shiftRight_eq_div_pow, Nat.div_lt_iff_lt_mul (Nat.two_pow_pos num), Nat.mul_comm, ← hpow]
      exact htag
    · funext p
      simp only [seen, hroom]
  · rintro v t ht hl
    cases ht
    have hover : e.overflow = false := by simpa [seen] using hl
    have hv := Nat.mod_lt e.tag (Nat.two_pow_pos num)
    refine ⟨_, ⟨rfl, hv⟩, hv, ?_⟩
    simp only [seen]
    rw [← hbits hover, hview, hdest]
  · rintro v q ⟨hv, hq⟩ hl -
    have hdbits : d.bits = lsb num v ++ q.bits := congrArg Point.bits hq
    have hdest' : d.dest = q.out := congrArg Point.out hq
    have hover : e.overflow = false :=
      hlong (by rw [hdbits, List.length_append, lsb_length]; omega) (by simpa [seen] using hl)
    have hsame := (hbits hover).symm.trans hview
    rw [hdbits] at hsame
    obtain ⟨hnum', hrest⟩ := List.append_inj hsame (by simp)
    have hval := congrArg value hnum'
    rw [value_lsb, value_lsb, Nat.mod_mod, Nat.mod_eq_of_lt hv] at hval
    refine ⟨_, _, rfl, ⟨hval.symm, ?_⟩, ?_, by simpa [seen] using hover⟩
    · rw [← hval]
      exact hv
    · simp only [seen]
      rw [← hrest, hdest, hdest']
  · rintro v q ⟨-, hq⟩ - hfull
    have hdest' : d.dest = q.out := congrArg Point.out hq
    simp only [seen, ← hdest'] at hfull
    exact absurd hd.room hfull

/-- What is returned for a number with something added to it. -/
def Above (num base v n : Nat) : Prop := v = base + n ∧ n < 2 ^ num

theorem getbits_base_reads (num base : Nat) (hnum : num ≤ 24) (d : tinf_data) (hd : Good d) :
    Reads seen d (tinf_getbits_base num base d) (Above num base) (Number num) := by
  rw [tinf_getbits_base]
  split
  · rename_i hzero
    subst hzero
    have hzero : Above 0 base base 0 := ⟨rfl, Nat.one_pos⟩
    refine (Reads.pure (V := seen) hd hzero).congr fun v q => ?_
    constructor
    · rintro ⟨rfl, rfl⟩
      exact ⟨Nat.one_pos, rfl⟩
    · rintro ⟨hn, hq⟩
      exact ⟨by simpa using hn, hq.symm⟩
  · refine (bind_quiet (getbits_reads num hnum d hd) (S := fun n p v q => v = n ∧ q = p) ?_ ?_).congr fun v q => ?_
    · rintro b n t - ht ⟨rfl, hn⟩
      exact Reads.pure ht ⟨rfl, hn⟩
    · rintro n p v q ⟨-, rfl⟩
      rfl
    · constructor
      · rintro ⟨n, m, hn, rfl, rfl⟩
        exact hn
      · rintro hn
        exact ⟨v, q, hn, rfl, rfl⟩

end Coins.Tinf
