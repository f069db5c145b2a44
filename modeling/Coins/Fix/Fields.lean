import Coins.Fix.Parse
import Coins.Fix.Render

/-!
# What is rendered is parsed

`fix_parse` finds the type of a message that `fix_render` wrote, and behind it the fields one by one,
those of the user's message among them. It does not look at the length, so a wrong one does no harm.
-/

open Coins.Lines Coins.Memory Coins.Numeral

namespace Coins.Fix

/-! ## The clock -/

structure tm where
  tm_year : Nat
  tm_mon : Nat
  tm_mday : Nat
  tm_hour : Nat
  tm_min : Nat
  tm_sec : Nat

/-- The time as `CLCK_FMT` has it. -/
def strftime (t : tm) : List Byte :=
  fixed 4 t.tm_year ++ fixed 2 t.tm_mon ++ fixed 2 t.tm_mday ++ ascii "-" ++ fixed 2 t.tm_hour ++
    ascii ":" ++ fixed 2 t.tm_min ++ ascii ":" ++ fixed 2 t.tm_sec ++ ascii ".000"

theorem strftime_length (t : tm) : (strftime t).length = 21 := by
  unfold strftime
  simp only [List.length_append, fixed_length]
  rfl

def Setting.stamped (scomp_id tcomp_id : List Byte) (t : tm) : Setting :=
  ⟨scomp_id, tcomp_id, strftime t, strftime_length t⟩

/-! ## Plain texts -/

/-- A text that neither ends a field nor a string. -/
def Plain (l : List Byte) : Prop := SOH ∉ l ∧ 0 ∉ l

instance (l : List Byte) : Decidable (Plain l) := by
  unfold Plain
  infer_instance

theorem Plain.append {a b : List Byte} (ha : Plain a) (hb : Plain b) : Plain (a ++ b) := by
  unfold Plain at *
  simp only [List.mem_append, not_or]
  exact ⟨⟨ha.1, hb.1⟩, ha.2, hb.2⟩

theorem plain_digits (l : List Byte) (h : ∀ b ∈ l, isDigit 10 b = true) : Plain l :=
  ⟨SOH_not_mem l h, fun hmem => absurd (h 0 hmem) (by decide)⟩

theorem plain_seq (seq : UInt32) : Plain (seqText seq) := by
  apply plain_digits
  intro b hb
  exact revDigits_digits _ _ b (List.mem_reverse.mp hb)

theorem plain_strftime (t : tm) : Plain (strftime t) := by
  have hf : ∀ k n, Plain (fixed k n) := fun k n => plain_digits _ (fixed_digits k n)
  have hs : Plain (ascii "-") ∧ Plain (ascii ":") ∧ Plain (ascii ".000") := by decide
  unfold strftime
  exact (((((((((hf _ _).append (hf _ _)).append (hf _ _)).append hs.1).append (hf _ _)).append
    hs.2.1).append (hf _ _)).append hs.2.1).append (hf _ _)).append hs.2.2

theorem map_nul (l : List Byte) (h : Plain l) : l.map nul = l := map_nul_of SOH l h.1

/-! ## Fields -/

/-- The fields that `fix_render` puts around the fields of the user's message. -/
def allFields (g : Setting) (seq : UInt32) (msg : fix_msg_t) (ck : Nat) : List (List Byte) :=
  [ascii "34=" ++ seqText seq] ++ (if g.scomp_id ≠ [] then [ascii "49=" ++ g.scomp_id] else []) ++
    [ascii "52=" ++ g.clck, ascii "56=" ++ g.tcomp_id] ++ lines 0 (msg.msg.map nul) ++
    [ascii "10=" ++ fixed 3 ck]

/-- A view that begins with a NUL and goes on with `fs`, a NUL behind each. -/
def Fields (view : List Byte) (fs : List (List Byte)) : Prop :=
  view = 0 :: fs.flatMap (· ++ [0]) ∧ ∀ f ∈ fs, 0 ∉ f

/-- Empty, or with SOH or NUL at the end, as all callers have it. -/
def Ended (l : List Byte) : Prop := l = [] ∨ ∃ l' b, l = l' ++ [b] ∧ (b = SOH ∨ b = 0)

theorem lines_ended (l : List Byte) (h : Ended l) :
    (lines 0 (l.map nul)).flatMap (· ++ [0]) = l.map nul := by
  have hrest : rest 0 (l.map nul) = [] := by
    rcases h with rfl | ⟨l', b, rfl, hb⟩
    · rfl
    · have hnul : nul b = 0 := by
        rcases hb with rfl | rfl <;> rfl
      rw [List.map_append, List.map_singleton, hnul, rest_concat]
  have h : (lines 0 (l.map nul)).flatMap (· ++ [0]) ++ rest 0 (l.map nul) = l.map nul := lines_rest _
  rwa [hrest, List.append_nil] at h

theorem nul_soh (l : List Byte) : (l.map fun b => if b ≠ 0 then b else SOH).map nul = l.map nul := by
  rw [List.map_map]
  apply List.map_congr_left
  intro b _
  simp only [Function.comp_apply]
  split
  · rfl
  · rename_i hb
    rw [not_not.mp hb]
    rfl

theorem fields_plain (g : Setting) (seq : UInt32) (msg : fix_msg_t) (ck : Nat)
    (hs : Plain g.scomp_id) (ht : Plain g.tcomp_id) (hc : Plain g.clck) :
    ∀ f ∈ allFields g seq msg ck, 0 ∉ f := by
  have htags : Plain (ascii "34=") ∧ Plain (ascii "49=") ∧ Plain (ascii "52=") ∧
      Plain (ascii "56=") ∧ Plain (ascii "10=") := by decide
  obtain ⟨h34, h49, h52, h56, h10⟩ := htags
  intro f hf
  unfold allFields at hf
  simp only [List.mem_append, List.mem_cons, List.not_mem_nil, or_false] at hf
  rcases hf with (((rfl | hf) | rfl | rfl) | hf) | rfl
  · exact (h34.append (plain_seq seq)).2
  · split at hf
    · obtain rfl := List.mem_singleton.mp hf
      exact (h49.append hs).2
    · cases hf
  · exact (h52.append hc).2
  · exact (h56.append ht).2
  · exact not_mem_lines _ f hf
  · exact (h10.append (plain_digits _ (fixed_digits 3 ck))).2

theorem nul_fields (g : Setting) (seq : UInt32) (msg : fix_msg_t) (ck : Nat)
    (hs : Plain g.scomp_id) (ht : Plain g.tcomp_id) (hc : Plain g.clck) (hend : Ended msg.msg) :
    (ascii "34=" ++ seqText seq ++ [SOH] ++ fields g ++
      (msg.msg.map fun b => if b ≠ 0 then b else SOH) ++ ascii "10=" ++ fixed 3 ck ++ [SOH]).map nul =
      (allFields g seq msg ck).flatMap (· ++ [0]) := by
  have htags : Plain (ascii "34=") ∧ Plain (ascii "49=") ∧ Plain (ascii "52=") ∧
      Plain (ascii "56=") ∧ Plain (ascii "10=") := by decide
  obtain ⟨h34, h49, h52, h56, h10⟩ := htags
  have hsoh : nul SOH = 0 := rfl
  have hseq := map_nul _ (plain_seq seq)
  have hck := map_nul _ (plain_digits _ (fixed_digits 3 ck))
  have hfields : (fields g).map nul =
      ((if g.scomp_id ≠ [] then [ascii "49=" ++ g.scomp_id] else []) ++
        [ascii "52=" ++ g.clck, ascii "56=" ++ g.tcomp_id]).flatMap (· ++ [0]) := by
    unfold fields
    split
    · simp [map_nul _ h49, map_nul _ h52, map_nul _ h56, map_nul _ hs, map_nul _ ht, map_nul _ hc, hsoh]
    · simp [map_nul _ h52, map_nul _ h56, map_nul _ ht, map_nul _ hc, hsoh]
  simp only [List.map_append, List.map_singleton, map_nul _ h34, hseq, hfields, nul_soh, map_nul _ h10,
    hck, hsoh]
  unfold allFields
  simp only [List.flatMap_append, lines_ended _ hend]
  simp

/-! ## The round trip -/

theorem fix_parse_render (scomp_id tcomp_id : List Byte) (t : tm) (seq : UInt32) (m : Mem Byte)
    (buf : Int) (msg : fix_msg_t) (hs : Plain scomp_id) (ht : Plain tcomp_id) (hend : Ended msg.msg)
    (hlen : (fix_render (.stamped scomp_id tcomp_id t) seq m buf msg).2.len < 2 ^ 56) :
    let g := Setting.stamped scomp_id tcomp_id t
    let b := bodyOf g (seqText seq) msg
    let r := (fix_render g seq m buf msg).2
    let q := fix_parse r.mem buf r.len
    q.2.typ = msg.typ ∧ q.2.msg + q.2.len = buf + r.len ∧
      Fields (q.1.view q.2.msg q.2.len)
        (allFields g seq msg (checksum (opening (fixed 3 b.length) b))) := by
  intro g b r q
  obtain ⟨htext, hrlen, -⟩ := fix_render_text g seq m buf msg
  have hc : Plain g.clck := plain_strftime t
  unfold q
  change r.len < 2 ^ 56 at hlen
  change r.text buf = frame (fixed 3 b.length) b at htext
  change r.len = (frame (fixed 3 b.length) b).length at hrlen
  clear_value r
  generalize hck : checksum (opening (fixed 3 b.length) b) = ck
  -- the front of the message, and what is behind it
  generalize hafter : ascii "34=" ++ seqText seq ++ [SOH] ++ fields g ++
    (msg.msg.map fun b => if b ≠ 0 then b else SOH) ++ ascii "10=" ++ fixed 3 ck ++ [SOH] = after
  have hframe : frame (fixed 3 b.length) b = front (fixed 3 b.length) [msg.typ] ++ after := by
    rw [← hafter, ← hck]
    rw [front_eq]
    unfold frame opening fhdr9 fhdr9_of b bodyOf
    simp
  have hdigits := fixed_digits 3 b.length
  have hthree := fixed_length 3 b.length
  generalize fixed 3 b.length = size at htext hrlen hframe hdigits hthree
  rw [hframe] at htext hrlen
  have hsize : size ≠ [] := by
    intro hnil
    rw [hnil] at hthree
    cases hthree
  unfold Rendered.text at htext
  rw [hrlen] at hlen htext ⊢
  obtain ⟨m', hparse, hmsg⟩ := fix_parse_front r.mem buf size [] after msg.typ hsize
    (SOH_not_mem size hdigits) (by simp) (by omega) hlen htext
  rw [hparse]
  have hstart : view_start size [msg.typ] = (fhdr9 ++ size ++ [SOH] ++ ascii "35=" ++ [msg.typ]).length := by
    have h3 : (ascii "35=").length = 3 := rfl
    unfold view_start
    simp only [List.length_append, List.length_singleton, h3]
    omega
  have hle : view_start size [msg.typ] ≤ (front size [msg.typ] ++ after).length := by
    rw [hstart, front_eq]
    simp only [List.length_append]
    omega
  refine ⟨rfl, by simp only; omega, ?_⟩
  have hdrop : (front size [msg.typ] ++ after).drop (view_start size [msg.typ]) = SOH :: after := by
    rw [hstart, front_eq, List.append_assoc _ [SOH] after, List.drop_left]
    rfl
  simp only
  rw [hmsg, hdrop, List.map_cons, ← hafter, nul_fields g seq msg ck hs ht hc hend]
  exact ⟨rfl, fields_plain g seq msg ck hs ht hc⟩

def noon : tm := ⟨2016, 1, 1, 12, 0, 0⟩

/-- A request with two fields, one ended by SOH and the other by NUL. -/
theorem fix_parse_render_request :
    let g := Setting.stamped (ascii "ME") (ascii "YOU") noon
    let msg : fix_msg_t := ⟨86, ascii "262=1" ++ [SOH] ++ ascii "263=1" ++ [0]⟩
    let b := bodyOf g (seqText 7) msg
    let r := (fix_render g 7 ⟨fun _ => 0, 1536, []⟩ 0 msg).2
    let q := fix_parse r.mem 0 r.len
    q.2.typ = 86 ∧ q.2.msg + q.2.len = 0 + r.len ∧
      Fields (q.1.view q.2.msg q.2.len)
        (allFields g 7 msg (checksum (opening (fixed 3 b.length) b))) :=
  fix_parse_render (ascii "ME") (ascii "YOU") noon 7 ⟨fun _ => 0, 1536, []⟩ 0
    ⟨86, ascii "262=1" ++ [SOH] ++ ascii "263=1" ++ [0]⟩ (by decide) (by decide)
    (Or.inr ⟨_, _, rfl, Or.inr rfl⟩) (by decide +kernel)

end Coins.Fix
