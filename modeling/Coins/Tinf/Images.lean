import Coins.Tinf.Uncompress

/-!
# Images

A stream stands for the same with more bytes behind it, and for nothing when bytes of it are missing.
-/

open Coins.Bits Coins.Decoder Coins.Huffman

namespace Coins.Tinf

/-! ## More bits behind -/

/-- The point, with the bits `x` behind it. -/
def Point.behind (p : Point) (x : List Bool) : Point := ⟨p.bits ++ x, p.out⟩

section
variable {p q : Point} (x : List Bool)

theorem Number.behind {n v : Nat} (h : Number n p v q) : Number n (p.behind x) v (q.behind x) := by
  obtain ⟨hv, rfl⟩ := h
  exact ⟨hv, by simp [Point.behind]⟩

theorem Symbol.behind {ls : List Nat} {s : Nat} (h : Symbol ls p s q) : Symbol ls (p.behind x) s (q.behind x) := by
  obtain ⟨w, hw, rfl⟩ := h
  exact ⟨w, hw, by simp [Point.behind]⟩

theorem Row.behind {n k : Nat} {vs : List Nat} (h : Row n k p vs q) : Row n k (p.behind x) vs (q.behind x) := by
  induction h with
  | nil => exact .nil
  | cons h rest ih => exact .cons (h.behind x) ih

theorem Entry.behind {cl ls e : List Nat} (h : Entry cl ls p e q) : Entry cl ls (p.behind x) e (q.behind x) := by
  cases h with
  | one h hl => exact .one (h.behind x) hl
  | again h hl hn => exact .again (h.behind x) hl (hn.behind x)
  | few h hn => exact .few (h.behind x) (hn.behind x)
  | many h hn => exact .many (h.behind x) (hn.behind x)

theorem Lengths.behind {cl ls all : List Nat} {total : Nat} (h : Lengths cl total ls p all q) :
    Lengths cl total ls (p.behind x) all (q.behind x) := by
  induction h with
  | done h => exact .done h
  | more h hroom rest ih => exact .more (h.behind x) hroom ih

theorem Trees.behind {t : List Nat × List Nat} (h : Trees p t q) : Trees (p.behind x) t (q.behind x) := by
  obtain ⟨h1, h2, h3, hl, hd, h4, hcl, hsome, h5, heob, hul, hud⟩ := h
  exact .intro (h1.behind x) (h2.behind x) (h3.behind x) hl hd (h4.behind x) hcl hsome (h5.behind x) heob hul hud

theorem Copy.behind {lit dist : List Nat} (h : Copy lit dist p q) : Copy lit dist (p.behind x) (q.behind x) := by
  obtain ⟨hi, h1, h2, hj, h3, h4, hback⟩ := h
  exact .intro hi (h1.behind x) (h2.behind x) hj (h3.behind x) (h4.behind x) hback

theorem Data.behind {lit dist : List Nat} (h : Data lit dist p q) : Data lit dist (p.behind x) (q.behind x) := by
  induction h with
  | stop h => exact .stop (h.behind x)
  | byte h hs rest ih => exact .byte (h.behind x) hs ih
  | copy h rest ih => exact .copy (h.behind x) ih

theorem Stored.behind (h : Stored p q) (hx : x.length % 8 = 0) : Stored (p.behind x) (q.behind x) := by
  obtain @⟨pad, rest, data, out, hlen, hpad⟩ := h
  unfold Point.behind
  dsimp only
  rw [List.append_assoc]
  refine .intro hlen ?_
  rw [← List.append_assoc, List.length_append]
  omega

theorem Block.behind (h : Block p q) (hx : x.length % 8 = 0) : Block (p.behind x) (q.behind x) := by
  cases h with
  | stored h hs => exact .stored (h.behind x) (hs.behind x hx)
  | fixed h hd => exact .fixed (h.behind x) (hd.behind x)
  | dynamic h ht hd => exact .dynamic (h.behind x) (ht.behind x) (hd.behind x)

theorem Stream.behind (h : Stream p q) (hx : x.length % 8 = 0) : Stream (p.behind x) (q.behind x) := by
  induction h with
  | last h hb => exact .last (h.behind x) (hb.behind x hx)
  | more h hb rest ih => exact .more (h.behind x) (hb.behind x hx) ih

end

/-! ## Images of bytes -/

/-- The bytes `image` are one stream, which stands for `out`: it ends in the last byte. -/
def Image (image out : List UInt8) : Prop := ∃ rest, rest.length < 8 ∧ Stream ⟨ofBytes image, []⟩ ⟨rest, out⟩

theorem Image.whole {image out : List UInt8} (h : Image image out) (more : List UInt8) (room : Nat)
    (hroom : out.length ≤ room) : tinf_uncompress (image ++ more) room = .ok out := by
  obtain ⟨rest, -, hs⟩ := h
  have hmore := hs.behind (ofBytes more) (by rw [ofBytes_length]; omega)
  refine (uncompress_ok_iff (image ++ more) room out).mpr ⟨⟨rest ++ ofBytes more, ?_⟩, hroom⟩
  rw [ofBytes_append]
  exact hmore

theorem Image.full {image out : List UInt8} (h : Image image out) (more : List UInt8) (room : Nat)
    (hroom : room < out.length) : tinf_uncompress (image ++ more) room = .fail .TINF_BUF_ERROR := by
  obtain ⟨rest, -, hs⟩ := h
  have hmore := hs.behind (ofBytes more) (by rw [ofBytes_length]; omega)
  apply uncompress_full (image ++ more) room (Point.behind ⟨rest, out⟩ (ofBytes more)) ?_ hroom
  rw [ofBytes_append]
  exact hmore

theorem Image.part {image out : List UInt8} (h : Image image out) {p : List UInt8} (hp : p <+: image) (hne : p ≠ image)
    (room : Nat) (o : List UInt8) : tinf_uncompress p room ≠ .ok o := by
  intro hok
  obtain ⟨rest, hrest, hs⟩ := h
  obtain ⟨⟨r, hr⟩, -⟩ := (uncompress_ok_iff p room o).mp hok
  obtain ⟨more, rfl⟩ := hp
  have hmore := hr.behind (ofBytes more) (by rw [ofBytes_length]; omega)
  unfold Point.behind at hmore
  rw [← ofBytes_append] at hmore
  have hlen := congrArg (fun q => q.bits.length) (stream_unique hs hmore)
  simp only [List.length_append, ofBytes_length] at hlen
  have hnil : more ≠ [] := by
    rintro rfl
    exact hne (List.append_nil p).symm
  have := List.length_pos_iff.mpr hnil
  omega

theorem stored_image (text : List UInt8) (h : text.length < 65536) :
    Image (1 :: (le16 text.length ++ le16 (65535 - text.length) ++ text)) text := by
  refine ⟨[], Nat.succ_pos 7, ?_⟩
  generalize hbytes : ofBytes (le16 text.length ++ le16 (65535 - text.length) ++ text) = bits
  have hlen : bits.length % 8 = 0 := by
    rw [← hbytes, ofBytes_length]
    omega
  have hfinal : Number 1 ⟨ofBytes (1 :: (le16 text.length ++ le16 (65535 - text.length) ++ text)), []⟩ 1
      ⟨lsb 2 0 ++ (lsb 5 0 ++ bits), []⟩ := by
    refine ⟨by decide, ?_⟩
    rw [ofBytes_cons, hbytes]
    rfl
  have hstored : Stored ⟨lsb 5 0 ++ bits, []⟩ ⟨[], [] ++ text⟩ := by
    have hpad : (lsb 5 0).length = (lsb 5 0 ++ bits ++ []).length % 8 := by
      rw [List.append_nil, List.length_append, lsb_length]
      omega
    rw [← hbytes] at hpad ⊢
    have hblock := @Stored.intro _ _ _ [] h hpad
    rwa [List.append_nil] at hblock
  exact .last hfinal (.stored ⟨by decide, rfl⟩ hstored)

/-- **Images end where they end**: bytes behind one are not looked at, whether there is room or not, and none
can be missing. -/
theorem image_delimited (image out : List UInt8) (h : Image image out) :
    (∀ more room, out.length ≤ room → tinf_uncompress (image ++ more) room = .ok out) ∧
      (∀ more room, room < out.length → tinf_uncompress (image ++ more) room = .fail .TINF_BUF_ERROR) ∧
      ∀ p, p <+: image → p ≠ image → ∀ room o, tinf_uncompress p room ≠ .ok o :=
  ⟨fun more room hroom => h.whole more room hroom, fun more room hroom => h.full more room hroom,
    fun _ hp hne room o => h.part hp hne room o⟩

theorem image_delimited_byte :
    let image := 1 :: (le16 1 ++ le16 65534 ++ [97])
    (∀ more room, 1 ≤ room → tinf_uncompress (image ++ more) room = .ok [97]) ∧
      (∀ more room, room < 1 → tinf_uncompress (image ++ more) room = .fail .TINF_BUF_ERROR) ∧
      ∀ p, p <+: image → p ≠ image → ∀ room o, tinf_uncompress p room ≠ .ok o :=
  image_delimited _ [97] (stored_image [97] (by decide))

end Coins.Tinf
