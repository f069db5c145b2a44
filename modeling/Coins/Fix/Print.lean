import Coins.Lib.Cursor
import Coins.Quotes.Coalesced
import Coins.Snarf.Lines

/-!
# The log of the FIX clients

`buf_print` puts a record together on the stack, in a buffer that is as long as the longest read.
-/

open Coins.Memory Coins.Quotes Coins.Snarf

namespace Coins.Fix.Log

/-- The length of `out`, and of the buffer that is read into. -/
def OUT : Nat := 16384

/-- The loop over what was read. -/
def copied (c : Cursor Byte) (buf : List Byte) : Cursor Byte := buf.foldl (fun c b => c.put [Quotes.logged b]) c

/-- `out` when the record is complete, as far as it was filled. -/
def filled (t : Clock) (out : Mem Byte) (buf : List Byte) : Cursor Byte :=
  -- the next byte goes over the NUL that `sprintf` has put behind the time
  let c : Cursor Byte := ⟨hrclock_print t out 0, 0, t.text.length⟩
  (copied (c.put [tab]) buf).put [nl]

/-- `out`, which is on the stack, afterwards, and what is written to the log. -/
def buf_print (t : Clock) (stack : Int → Byte) (buf : List Byte) (bsz : Int) : Mem Byte × List Byte :=
  let out : Mem Byte := ⟨stack, OUT, []⟩
  if bsz < 0 then (out, [])
  else
    let c := filled t out (buf.take bsz.toNat)
    (c.mem.read 0 c.len, c.text)

/-! ## The record -/

theorem copied_spec (buf : List Byte) (c : Cursor Byte) :
    (copied c buf).text = c.text ++ buf.map Quotes.logged ∧ (copied c buf).base = c.base ∧
      (copied c buf).len = c.len + buf.length ∧ (copied c buf).mem.size = c.mem.size := by
  induction buf generalizing c with
  | nil => exact ⟨(List.append_nil _).symm, rfl, rfl, rfl⟩
  | cons b bs ih =>
    have hfold : copied c (b :: bs) = copied (c.put [Quotes.logged b]) bs := rfl
    obtain ⟨htext, hbase, hlen, hsize⟩ := ih (c.put [Quotes.logged b])
    rw [Cursor.text_put, List.append_assoc] at htext
    rw [Cursor.len_put, List.length_singleton] at hlen
    rw [hfold]
    exact ⟨htext, hbase, by rw [hlen, List.length_cons]; omega, hsize⟩

theorem copied_from {m : Mem Byte} (buf : List Byte) (c : Cursor Byte) (h : Cursor.From m c) :
    Cursor.From m (copied c buf) := by
  induction buf generalizing c with
  | nil => exact h
  | cons b bs ih => exact ih _ (h.put _)

theorem filled_spec (t : Clock) (ht : t.Ten) (out : Mem Byte) (buf : List Byte) :
    (filled t out buf).text = Quotes.buf_print t.text buf ∧ (filled t out buf).base = 0 ∧
      (filled t out buf).len = 22 + buf.length ∧ Cursor.From out (filled t out buf) := by
  have hten := text_ten t ht
  unfold filled
  generalize hc : (⟨hrclock_print t out 0, 0, t.text.length⟩ : Cursor Byte) = c
  have hbase : c.base = 0 := by rw [← hc]
  have hlen : c.len = 20 := by
    rw [← hc]
    exact hten
  have htext : c.text = t.text := by
    have hview := Mem.view_store out 0 (t.text ++ [0])
    rw [List.length_append, Mem.view_append] at hview
    rw [← hc]
    exact (List.append_inj hview (Mem.view_length _ _ _)).1
  -- the time and its NUL are as long as the time and the tab
  have hfrom : Cursor.From out (c.put [tab]) := by
    have hstamp : Mem.Within 0 21 out c.mem := by
      rw [← hc]
      exact Mem.Within.store 0 _ (Or.inr ⟨le_refl _, by rw [List.length_append, hten]; decide⟩)
    unfold Cursor.From
    simp only [Cursor.base_put, Cursor.len_put, hbase, hlen, List.length_singleton]
    refine (hstamp.mono (le_refl _) (by decide)).trans (Mem.Within.store _ _ (Or.inr ?_))
    rw [hbase, hlen]
    decide
  obtain ⟨hcopied, hcbase, hclen, -⟩ := copied_spec buf (c.put [tab])
  refine ⟨?_, ?_, ?_, (copied_from buf _ hfrom).put _⟩
  · rw [Cursor.text_put, hcopied, Cursor.text_put, htext]
    rfl
  · rw [Cursor.base_put, hcbase, Cursor.base_put, hbase]
  · rw [Cursor.len_put, hclen, Cursor.len_put, hlen, List.length_singleton, List.length_singleton]
    omega

/-- Nothing is written outside the buffer. -/
def Kept (m : Mem Byte) : Prop := ∀ x ∈ m.log, x.write = true → x.InBounds

theorem buf_print_eq (t : Clock) (stack : Int → Byte) (buf : List Byte) :
    buf_print t stack buf buf.length =
      ((filled t ⟨stack, OUT, []⟩ buf).mem.read 0 (filled t ⟨stack, OUT, []⟩ buf).len,
        (filled t ⟨stack, OUT, []⟩ buf).text) := by
  have hneg : ¬ ((buf.length : Int) < 0) := by omega
  unfold buf_print
  simp only [if_neg hneg, Int.toNat_natCast, List.take_length]

theorem kept_fits (t : Clock) (ht : t.Ten) (stack : Int → Byte) (buf : List Byte)
    (h : Kept (buf_print t stack buf buf.length).1) : buf.length + 22 ≤ OUT := by
  obtain ⟨-, hbase, hlen, hfrom⟩ := filled_spec t ht ⟨stack, OUT, []⟩ buf
  have hsize : (filled t ⟨stack, OUT, []⟩ buf).mem.size = OUT := hfrom.size
  rw [buf_print_eq] at h
  unfold filled at hbase hlen hsize h
  dsimp only at hbase hlen hsize h
  generalize copied _ buf = c at hbase hlen hsize h
  have hlast := h ⟨true, c.base + c.len, 1, c.mem.size⟩ (List.mem_cons_of_mem _ (List.mem_cons_self ..)) rfl
  rw [Cursor.base_put] at hbase
  rw [Cursor.len_put, List.length_singleton] at hlen
  have hmem : (c.put [nl]).mem.size = c.mem.size := rfl
  unfold Access.InBounds at hlast
  simp only at hlast
  omega

/-- **A record fits** and says what was read, up to 22 bytes below the length of the buffer. -/
theorem record_fits (t : Clock) (stack : Int → Byte) (buf : List Byte) (ht : t.Ten) :
    (Kept (buf_print t stack buf buf.length).1 ∧
      (buf_print t stack buf buf.length).2 = t.text ++ [tab] ++ buf.map Quotes.logged ++ [nl]) ↔
      buf.length + 22 ≤ OUT := by
  obtain ⟨htext, hbase, hlen, hfrom⟩ := filled_spec t ht ⟨stack, OUT, []⟩ buf
  refine ⟨fun h => kept_fits t ht stack buf h.1, fun hfit => ?_⟩
  unfold Cursor.From at hfrom
  rw [hbase, hlen] at hfrom
  have hsize : (filled t ⟨stack, OUT, []⟩ buf).mem.size = OUT := hfrom.size
  have hsound : (buf_print t stack buf buf.length).1.Sound := by
    rw [buf_print_eq, Mem.sound_read, hlen, hsize]
    refine ⟨Or.inr ⟨le_refl _, by omega⟩, hfrom.sound (le_refl _) ?_ ?_⟩
    · change (0 : Int) + (22 + buf.length : Nat) ≤ (OUT : Nat)
      omega
    · intro x hx
      cases hx
  refine ⟨fun x hx _ => hsound x hx, ?_⟩
  rw [buf_print_eq, htext]
  rfl

theorem record_fits_heartbeat :
    Kept (buf_print Snarf.noon (fun _ => 0) [56, 61, 1] 3).1 ∧
      (buf_print Snarf.noon (fun _ => 0) [56, 61, 1] 3).2 = Snarf.noon.text ++ [9, 56, 61, 124, 10] :=
  (record_fits Snarf.noon (fun _ => 0) [56, 61, 1] Snarf.noon_ten).mpr (by decide)

/-- A read that is a byte too long for it. -/
theorem record_overruns :
    ¬ ∀ (t : Clock) (stack : Int → Byte) (buf : List Byte), t.Ten → 1 ≤ buf.length → buf.length ≤ OUT →
      Kept (buf_print t stack buf buf.length).1 ∧
        (buf_print t stack buf buf.length).2 = t.text ++ [tab] ++ buf.map Quotes.logged ++ [nl] := by
  intro h
  have hlen : (List.replicate 16363 (56 : Byte)).length = 16363 := List.length_replicate
  have hrec := h Snarf.noon (fun _ => 0) (List.replicate 16363 56) Snarf.noon_ten (by rw [hlen]; decide)
    (by rw [hlen]; decide)
  have hfit := kept_fits Snarf.noon Snarf.noon_ten (fun _ => 0) _ hrec.1
  rw [hlen] at hfit
  exact absurd hfit (by decide)

end Coins.Fix.Log
