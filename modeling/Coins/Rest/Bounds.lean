import Coins.Rest.Recv

/-!
# The bytes `rest_recv` writes

They lie in the caller's buffer, unless a body fills it to the last byte, or the line with the size
of a chunk ends behind the bytes that came.
-/

open Coins.Memory Coins.Numeral Coins.Search Coins.Ws

namespace Coins.Rest

/-! ## Behind the header -/

/-- The line with the size of a chunk is taken for good, but ends behind the `nrd` bytes there are. -/
def LinePast (l : List Byte) (nrd : Nat) : Prop :=
  let n := strtoul 16 l
  toSsize n.val ≠ 0 ∧ l[n.stop]? = some 13 ∧ l[n.stop + 1]? = some 10 ∧ nrd < n.stop + 2

instance (l : List Byte) (nrd : Nat) : Decidable (LinePast l nrd) := by
  unfold LinePast
  infer_instance

section
variable (ws : ws_s) (m : Mem Byte) (buf : Int) (bsz nrd : Nat)
  (hw : ∀ i, buf + bsz ≤ i → ¬ m.Wrote i) (hn : nrd ≤ bsz)

include hw hn in
theorem plain_contained :
    Contained buf bsz (plain ws m buf nrd).mem (plain ws m buf nrd).ret ↔
      ¬ (ws.togo = bsz ∧ nrd = bsz) := by
  unfold plain
  split
  · rename_i hlt
    constructor
    · intro _ h
      omega
    · intro _
      exact ⟨hw, by simp only; omega⟩
  · rename_i hge
    constructor
    · intro h he
      exact h.1 (buf + bsz) (le_refl _) (by simp [he.1])
    · intro hno
      refine ⟨fun i hi => ?_, by simp only; omega⟩
      simp only [Mem.wrote_store, List.length_cons, List.length_nil]
      rintro (h | h)
      · omega
      · exact hw i hi h

include hw hn in
theorem chunk_contained (n : Int) (hnn : n ≤ nrd) :
    Contained buf bsz (chunk ws m n).mem (chunk ws m n).ret := by
  unfold chunk
  split
  · exact ⟨hw, by simp only; omega⟩
  · exact ⟨hw, by simp only; omega⟩

include hw in
theorem give_up_contained (hb : 0 < bsz) :
    Contained buf bsz (give_up ws m buf).mem (give_up ws m buf).ret := by
  refine ⟨fun i hi => ?_, by simp [give_up]; omega⟩
  simp only [give_up, Mem.wrote_store, List.length_cons, List.length_nil]
  rintro (h | h)
  · omega
  · exact hw i hi h

include hw hn in
theorem chunked_contained (hb : 0 < bsz) (hfit : buf + bsz ≤ m.size) (h0 : 0 ≤ buf)
    (hsize : m.size < 2 ^ 63) :
    Contained buf bsz (chunked ws m buf nrd).mem (chunked ws m buf nrd).ret ↔
      ¬ (ws.togo = 0 ∧ LinePast (text m buf) nrd) := by
  by_cases htogo : ws.togo = 0
  · have hlen : (text m buf).length = (m.size - buf).toNat := by simp [text]
    rw [chunked, if_pos htogo]
    simp only [LinePast, htogo, true_and]
    generalize strtoul 16 (text m buf) = scan
    have hw1 : ∀ i, buf + bsz ≤ i → ¬ (m.read buf scan.seen).Wrote i := by simpa using hw
    split
    · rename_i hbad
      refine iff_of_true (give_up_contained _ _ buf bsz hw1 hb) ?_
      rintro ⟨hz, h13, -⟩
      exact hbad.elim hz fun h => h h13
    · rename_i hgood
      push Not at hgood
      have hw2 : ∀ i, buf + bsz ≤ i →
          ¬ ((m.read buf scan.seen).read (buf + scan.stop + 1) 1).Wrote i := by simpa using hw
      split
      · rename_i hten
        exact iff_of_true (give_up_contained _ _ buf bsz hw2 hb) fun h => hten h.2.2.1
      · rename_i hten
        rw [not_not] at hten
        have hin : scan.stop + 1 < (text m buf).length := by
          by_contra hge
          rw [List.getElem?_eq_none (by omega)] at hten
          simp at hten
        by_cases hpast : nrd < scan.stop + 2
        · -- the rest of a negative length goes over everything
          have hhuge : (2 : Int) ^ 63 ≤ toSize (nrd - (scan.stop + 2)) := by
            unfold toSize
            omega
          refine iff_of_false (fun h => h.1 (buf + bsz) (le_refl _) ?_)
            (not_not.mpr ⟨hgood.1, hgood.2, hten, hpast⟩)
          unfold chunk
          split
          · simp only [Mem.wrote_move]
            omega
          · simp only [Mem.wrote_move]
            omega
        · have hlen : toSize (nrd - (scan.stop + 2)) = nrd - (scan.stop + 2) := by
            unfold toSize
            omega
          refine iff_of_true (chunk_contained _ _ buf bsz nrd (fun i hi => ?_) hn _ (by omega))
            (by omega)
          rw [hlen]
          simp only [Mem.wrote_move]
          rintro (h | h)
          · omega
          · exact hw2 i hi h
  · have hc : chunked ws m buf nrd = chunk ws m nrd := by rw [chunked, if_neg htogo]
    rw [hc]
    exact iff_of_true (chunk_contained ws m buf bsz nrd hw hn nrd (le_refl _)) (by tauto)

end

/-! ## The call -/

/-- A body that ends with the last byte of the buffer, or a chunk size line that ends behind the
bytes there are. -/
def Overrun (ws : ws_s) (m : Mem Byte) (buf : Int) (bsz : Nat) (rd : List Byte) : Prop :=
  let got := rd.take bsz
  let w := announced ws m buf got
  ∃ k, headerLen ws got = some k ∧
    if w.state &&& LEN_SEEN ≠ 0 then w.togo = bsz ∧ got.length - k = bsz
    else w.state &&& ENC_SEEN ≠ 0 ∧ w.togo = 0 ∧ LinePast (shifted m buf got k) (got.length - k)

theorem Stripped.same {ws : ws_s} {m m1 : Mem Byte} {buf : Int} {got : List Byte} {k nrd : Nat}
    {ws' : ws_s} {m' : Mem Byte} (h : Stripped ws m m1 buf got k ws' m' nrd) :
    ws'.togo = ws.togo ∧ ws'.state &&& LEN_SEEN = ws.state &&& LEN_SEEN ∧
      ws'.state &&& ENC_SEEN = ws.state &&& ENC_SEEN := by
  rw [h.ws]
  split
  · refine ⟨rfl, ?_, ?_⟩
    · rw [Nat.and_or_distrib_right]
      simp [HDR_SEEN, LEN_SEEN]
    · rw [Nat.and_or_distrib_right]
      simp [HDR_SEEN, ENC_SEEN]
  · exact ⟨rfl, rfl, rfl⟩

theorem rest_recv_contained (ws : ws_s) (m : Mem Byte) (buf : Int) (bsz : Nat) (rd : List Byte)
    (hlog : m.log = []) (hrd : rd ≠ []) (hb : 0 < bsz) (h0 : 0 ≤ buf) (hfit : buf + bsz ≤ m.size)
    (hsize : m.size < 2 ^ 63) :
    Contained buf bsz (rest_recv ws m buf bsz rd).mem (rest_recv ws m buf bsz rd).ret ↔
      ¬ Overrun ws m buf bsz rd := by
  have hne : rd.take bsz ≠ [] := by
    simp [List.take_eq_nil_iff, hrd, hb.ne']
  have hle : (rd.take bsz).length ≤ bsz := by simp
  have hnone := Mem.not_wrote_of_log_nil m hlog
  cases hk : headerLen ws (rd.take bsz) with
  | none =>
    obtain ⟨-, hret, hw⟩ := rest_recv_header ws m buf bsz rd hne hk
    refine iff_of_true ⟨fun i hi h => ?_, by omega⟩ ?_
    · rcases hw i h with h | h
      · exact hnone i h
      · omega
    · rintro ⟨k, hk', -⟩
      rw [hk] at hk'
      simp at hk'
  | some k =>
    obtain ⟨ws', m1, m', nrd, hr, hs, hw1⟩ := rest_recv_body ws m buf bsz rd k hne hfit hk
    obtain ⟨htogo, hlen, henc⟩ := hs.same
    have hnrd : (rd.take bsz).length - k = nrd := by
      have := hs.len
      omega
    have hn : nrd ≤ bsz := by omega
    have hw : ∀ i, buf + bsz ≤ i → ¬ m'.Wrote i := by
      intro i hi h
      rcases hs.mem.wrote i h with h | h
      · rcases hw1 i h with h | h
        · exact hnone i h
        · omega
      · omega
    have hover : Overrun ws m buf bsz rd ↔
        if ws'.state &&& LEN_SEEN ≠ 0 then ws'.togo = bsz ∧ nrd = bsz
        else ws'.state &&& ENC_SEEN ≠ 0 ∧ ws'.togo = 0 ∧ LinePast (text m' buf) nrd := by
      simp only [Overrun, hk, Option.some.injEq, exists_eq_left', hnrd, htogo, hlen, henc, hs.text]
    rw [hr, hover, body]
    split
    · exact plain_contained ws' m' buf bsz nrd hw hn
    · split
      · rename_i henc'
        rw [chunked_contained ws' m' buf bsz nrd hw hn hb (by rw [hs.size]; exact hfit) h0
          (by rw [hs.size]; exact hsize)]
        simp [henc']
      · rename_i henc'
        exact iff_of_true ⟨hw, by simp only; omega⟩ fun h => henc' h.1

end Coins.Rest
