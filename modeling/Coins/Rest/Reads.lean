import Coins.Rest.Bounds

/-!
# The bytes `rest_recv` touches

Reads stay in the caller's buffer as well, as long as the numbers that `strtoul` looks at end there.
-/

open Coins.Memory Coins.Numeral Coins.Search Coins.Ws Coins.Xmemmem

namespace Coins.Rest

/-- A line with the size of a chunk that is taken for good ends within the `nrd` bytes there are; a
bad one ends within the buffer. -/
def LineInside (l : List Byte) (nrd : Nat) : Prop :=
  let n := strtoul 16 l
  n.seen ≤ l.length ∧ (toSsize n.val ≠ 0 → l[n.stop]? = some 13 →
    n.stop + 1 < l.length ∧ (l[n.stop + 1]? = some 10 → n.stop + 2 ≤ nrd))

/-- A read that keeps `rest_recv` in its buffer. -/
def Steady (ws : ws_s) (m : Mem Byte) (buf : Int) (bsz : Nat) (rd : List Byte) : Prop :=
  let got := rd.take bsz
  let w := announced ws m buf got
  (ws.state = 0 → ∀ i, find clen1 got = some i →
    (strtoul 10 ((buffered m buf got).drop (i + 15))).seen ≤
      ((buffered m buf got).drop (i + 15)).length) ∧
  ∀ k, headerLen ws got = some k →
    if w.state &&& LEN_SEEN ≠ 0 then
      (got.length - k : Nat) < w.togo ∨ (0 ≤ buf + w.togo ∧ w.togo < bsz)
    else w.state &&& ENC_SEEN ≠ 0 → w.togo = 0 →
      LineInside (shifted m buf got k) (got.length - k)

theorem announce_sound (ws : ws_s) (m : Mem Byte) (buf : Int) (got : List Byte) (hm : m.Sound)
    (h0 : 0 ≤ buf) (hfit : buf + got.length ≤ m.size)
    (h : ws.state = 0 → ∀ i, find clen1 got = some i →
      (strtoul 10 ((buffered m buf got).drop (i + 15))).seen ≤
        ((buffered m buf got).drop (i + 15)).length) :
    (announce ws (m.store buf got) buf got.length).2.Sound := by
  have hstore : (m.store buf got).Sound := by
    rw [Mem.sound_store]
    exact ⟨Or.inr ⟨h0, hfit⟩, hm⟩
  have hread : ((m.store buf got).read buf got.length).Sound := by
    rw [Mem.sound_read]
    exact ⟨Or.inr ⟨h0, hfit⟩, hstore⟩
  unfold announce
  by_cases hst : ws.state = 0
  · rw [if_pos hst]
    simp only [Mem.view_store, xmemmem_spec]
    cases hi : find clen1 got with
    | some i =>
      have hseen := h hst i hi
      have hlen := find_le _ _ _ hi
      rw [clen1_length] at hlen
      simp only [clen1_length, text_read, text_drop]
      rw [Mem.sound_read]
      refine ⟨Or.inr ⟨by omega, ?_⟩, hread⟩
      have hbuffered : (buffered m buf got).length = (m.size - buf).toNat := by
        unfold buffered text
        rw [Mem.view_length, Mem.size_store]
      rw [List.length_drop, hbuffered] at hseen
      unfold buffered at hseen
      simp only [Mem.size_read, Mem.size_store]
      omega
    | none =>
      cases find clen2 got with
      | some _ => exact hread
      | none => exact hread
  · rw [if_neg hst]
    exact hstore

/-- What a call keeps to: its buffer, and a length that fits. -/
structure Kept (bsz z : Nat) (r : Received) : Prop where
  sound : r.mem.Sound
  size : r.mem.size = z
  ret : r.ret ≤ bsz

section
variable (ws : ws_s) (m : Mem Byte) (buf : Int) (bsz nrd : Nat) (hm : m.Sound) (h0 : 0 ≤ buf)
  (hfit : buf + bsz ≤ m.size) (hn : nrd ≤ bsz)

include hm hfit hn in
theorem plain_kept (h : (nrd : Int) < ws.togo ∨ (0 ≤ buf + ws.togo ∧ ws.togo < bsz)) :
    Kept bsz m.size (plain ws m buf nrd) := by
  unfold plain
  split
  · exact ⟨hm, rfl, by simp only; omega⟩
  · rename_i hge
    have hin := h.resolve_left hge
    refine ⟨?_, rfl, by simp only; omega⟩
    rw [Mem.sound_store]
    exact ⟨Or.inr ⟨hin.1, by simp only [List.length_singleton]; omega⟩, hm⟩

include hm hn in
theorem chunk_kept (n : Int) (hnn : n ≤ nrd) : Kept bsz m.size (chunk ws m n) := by
  unfold chunk
  split
  · exact ⟨hm, rfl, by simp only; omega⟩
  · exact ⟨hm, rfl, by simp only; omega⟩

include hm h0 hfit in
theorem give_up_kept (hb : 0 < bsz) : Kept bsz m.size (give_up ws m buf) := by
  refine ⟨?_, rfl, by simp only [give_up]; omega⟩
  unfold give_up
  rw [Mem.sound_store]
  exact ⟨Or.inr ⟨h0, by simp only [List.length_singleton]; omega⟩, hm⟩

include hm h0 hfit hn in
theorem chunked_kept (hb : 0 < bsz) (hsize : m.size < 2 ^ 63)
    (h : ws.togo = 0 → LineInside (text m buf) nrd) : Kept bsz m.size (chunked ws m buf nrd) := by
  unfold chunked
  split
  · rename_i htogo
    have hlen : (text m buf).length = (m.size - buf).toNat := by
      unfold text
      rw [Mem.view_length]
    obtain ⟨hseen, hline⟩ := h htogo
    simp only
    generalize strtoul 16 (text m buf) = scan at hseen hline
    have h1 : (m.read buf scan.seen).Sound := by
      rw [Mem.sound_read]
      exact ⟨Or.inr ⟨h0, by omega⟩, hm⟩
    split
    · exact give_up_kept _ _ buf bsz h1 h0 hfit hb
    · rename_i hgood
      push Not at hgood
      obtain ⟨hin, hline⟩ := hline hgood.1 hgood.2
      have h2 : ((m.read buf scan.seen).read (buf + scan.stop + 1) 1).Sound := by
        rw [Mem.sound_read]
        exact ⟨Or.inr ⟨by omega, by simp only [Mem.size_read]; omega⟩, h1⟩
      split
      · exact give_up_kept _ _ buf bsz h2 h0 hfit hb
      · rename_i hten
        have hend := hline (not_not.mp hten)
        have hmove : toSize ((nrd : Int) - (scan.stop + 2)) = nrd - (scan.stop + 2) := by
          unfold toSize
          omega
        have hkept := chunk_kept { ws with togo := toSsize scan.val }
          (((m.read buf scan.seen).read (buf + scan.stop + 1) 1).move buf (buf + scan.stop + 2)
            (toSize ((nrd : Int) - (scan.stop + 2)))) bsz nrd ?_ hn ((nrd : Int) - (scan.stop + 2))
          (by omega)
        · exact ⟨hkept.sound, hkept.size, hkept.ret⟩
        · rw [hmove, Mem.sound_move]
          simp only [Mem.size_read]
          exact ⟨by omega, h2⟩
  · exact chunk_kept ws m bsz nrd hm hn nrd (le_refl _)

end

theorem rest_recv_kept (ws : ws_s) (m : Mem Byte) (buf : Int) (bsz : Nat) (rd : List Byte)
    (hm : m.Sound) (hb : 0 < bsz) (h0 : 0 ≤ buf) (hfit : buf + bsz ≤ m.size)
    (hsize : m.size < 2 ^ 63) (h : Steady ws m buf bsz rd) :
    Kept bsz m.size (rest_recv ws m buf bsz rd) := by
  obtain ⟨hnum, hbody⟩ := h
  have hle : (rd.take bsz).length ≤ bsz := by simp
  generalize hgot : rd.take bsz = got at hnum hbody hle
  have hann := announce_sound ws m buf got hm h0 (by omega) hnum
  obtain ⟨hc, hs, -⟩ := announce_mem ws (m.store buf got) buf got.length
  have hws := announce_ws ws m buf got
  unfold rest_recv
  rw [hgot]
  simp only
  split
  · rename_i hnil
    refine ⟨?_, rfl, by simp only; omega⟩
    rw [Mem.sound_store]
    exact ⟨Or.inl hnil, hm⟩
  · generalize announce ws (m.store buf got) buf got.length = q at hann hc hs hws
    obtain ⟨w, m1⟩ := q
    simp only at hann hc hs hws
    subst hws
    have hlen := headerLen_announced ws m buf got
    cases hk : headerLen ws got with
    | none =>
      rw [strip_none _ m m1 buf got hc (hlen.trans hk)]
      exact ⟨hann, hs, by simp only; omega⟩
    | some k =>
      obtain ⟨ws', m', nrd, hstrip, hspec⟩ := strip_some (announced ws m buf got) m m1 buf got hc hs
        (by omega) k (hlen.trans hk)
      obtain ⟨htogo, hlenseen, hencseen⟩ := hspec.same
      have hnrd : got.length - k = nrd := by
        have := hspec.len
        omega
      have hcase := hbody k hk
      rw [hnrd, ← htogo, ← hlenseen, ← hencseen, ← hspec.text] at hcase
      have hm' : m'.Sound := hspec.mem.sound h0 (by rw [hs, Mem.size_store]; omega) hann
      rw [hstrip]
      simp only
      unfold body
      have hfit' : buf + bsz ≤ m'.size := by
        rw [hspec.size]
        exact hfit
      have hsize' : m'.size < 2 ^ 63 := by
        rw [hspec.size]
        exact hsize
      have hback : ∀ r, Kept bsz m'.size r → Kept bsz m.size r := fun r hr =>
        ⟨hr.sound, hr.size.trans hspec.size, hr.ret⟩
      split
      · rename_i h2
        rw [if_pos h2] at hcase
        exact hback _ (plain_kept ws' m' buf bsz nrd hm' hfit' (by omega) hcase)
      · rename_i h2
        rw [if_neg h2] at hcase
        split
        · rename_i h4
          exact hback _ (chunked_kept ws' m' buf bsz nrd hm' h0 hfit' (by omega) hb hsize' (hcase h4))
        · exact ⟨hm', hspec.size, by simp only; omega⟩

/-! ## In front of the buffer -/

/-- What is in front of `buf` stays, and the memory keeps its size. -/
def Untouched (buf : Int) (m m' : Mem Byte) : Prop := m'.size = m.size ∧ ∀ i, i < buf → m'.cell i = m.cell i

theorem Untouched.trans {buf : Int} {m m' m'' : Mem Byte} (h : Untouched buf m m') (h' : Untouched buf m' m'') :
    Untouched buf m m'' := ⟨h'.1.trans h.1, fun i hi => (h'.2 i hi).trans (h.2 i hi)⟩

theorem untouched_store (m : Mem Byte) (buf p : Int) (l : List Byte) (hp : buf ≤ p) : Untouched buf m (m.store p l) :=
  ⟨rfl, fun i hi => Mem.cell_store_of_lt m p l i (by omega)⟩

theorem untouched_read (m : Mem Byte) (buf p : Int) (n : Nat) : Untouched buf m (m.read p n) := ⟨rfl, fun _ _ => rfl⟩

theorem untouched_move (m : Mem Byte) (buf s : Int) (n : Nat) : Untouched buf m (m.move buf s n) :=
  ⟨rfl, fun i hi => Mem.cell_store_of_lt _ buf _ i hi⟩

theorem chunk_untouched (ws : ws_s) (m : Mem Byte) (buf n : Int) : Untouched buf m (chunk ws m n).mem := by
  unfold chunk
  split
  · exact ⟨rfl, fun _ _ => rfl⟩
  · exact ⟨rfl, fun _ _ => rfl⟩

theorem give_up_untouched (ws : ws_s) (m : Mem Byte) (buf : Int) : Untouched buf m (give_up ws m buf).mem :=
  untouched_store m buf buf [nl] (le_refl buf)

theorem chunked_untouched (ws : ws_s) (m : Mem Byte) (buf nrd : Int) : Untouched buf m (chunked ws m buf nrd).mem := by
  unfold chunked
  split
  · simp only
    generalize strtoul 16 (text m buf) = scan
    have h1 := untouched_read m buf buf scan.seen
    split
    · exact h1.trans (give_up_untouched _ _ buf)
    · have h2 := h1.trans (untouched_read _ buf (buf + scan.stop + 1) 1)
      split
      · exact h2.trans (give_up_untouched _ _ buf)
      · have h3 := h2.trans (untouched_move _ buf (buf + scan.stop + 2) (toSize (nrd - (scan.stop + 2))))
        exact h3.trans (chunk_untouched _ _ buf _)
  · exact chunk_untouched ws m buf nrd

theorem body_untouched (ws : ws_s) (m : Mem Byte) (buf nrd : Int) (h : ws.state &&& LEN_SEEN ≠ 0 → 0 ≤ ws.togo) :
    Untouched buf m (body ws m buf nrd).mem := by
  unfold body
  split
  · rename_i hlen
    have htogo := h hlen
    unfold plain
    split
    · exact ⟨rfl, fun _ _ => rfl⟩
    · exact untouched_store m buf _ [nl] (by omega)
  · split
    · exact chunked_untouched ws m buf nrd
    · exact ⟨rfl, fun _ _ => rfl⟩

/-- No length below 0 is known when a body is taken. -/
def Positive (ws : ws_s) (m : Mem Byte) (buf : Int) (got : List Byte) : Prop :=
  (announced ws m buf got).state &&& LEN_SEEN ≠ 0 → 0 ≤ (announced ws m buf got).togo

theorem rest_recv_untouched (ws : ws_s) (m : Mem Byte) (buf : Int) (bsz : Nat) (rd : List Byte)
    (hfit : buf + bsz ≤ m.size) (h : Positive ws m buf (rd.take bsz)) :
    Untouched buf m (rest_recv ws m buf bsz rd).mem := by
  have hle : (rd.take bsz).length ≤ bsz := by simp
  obtain ⟨hc, hs, -⟩ := announce_mem ws (m.store buf (rd.take bsz)) buf (rd.take bsz).length
  have hws := announce_ws ws m buf (rd.take bsz)
  have hstore : Untouched buf m (announce ws (m.store buf (rd.take bsz)) buf (rd.take bsz).length).2 := by
    refine ⟨hs, fun i hi => ?_⟩
    rw [hc]
    exact Mem.cell_store_of_lt m buf _ i hi
  unfold rest_recv
  simp only
  split
  · exact untouched_store m buf buf _ (le_refl buf)
  · generalize announce ws (m.store buf (rd.take bsz)) buf (rd.take bsz).length = q at hc hs hws hstore
    obtain ⟨w, m1⟩ := q
    simp only at hc hs hws hstore
    subst hws
    cases hk : headerLen (announced ws m buf (rd.take bsz)) (rd.take bsz) with
    | none =>
      rw [strip_none _ m m1 buf _ hc hk]
      exact hstore
    | some k =>
      obtain ⟨ws', m', nrd, hstrip, hspec⟩ := strip_some (announced ws m buf (rd.take bsz)) m m1 buf _ hc hs
        (by omega) k hk
      obtain ⟨htogo, hlen, -⟩ := hspec.same
      rw [hstrip]
      have hbody : Untouched buf m' (body ws' m' buf nrd).mem := by
        refine body_untouched ws' m' buf nrd fun hseen => ?_
        rw [htogo]
        exact h (hlen ▸ hseen)
      exact (hstore.trans ⟨hspec.mem.size, fun i hi => hspec.mem.cell i (Or.inl hi)⟩).trans hbody

end Coins.Rest
