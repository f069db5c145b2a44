import Coins.Ws.Bounds
import Coins.Rest.Bounds

/-!
# Neither receiver leaves the caller's buffer

Both put a line break behind a payload without a look at the end of the buffer. What else
`rest_recv` can write out of bounds comes from a chunk size line that it takes for complete.
-/

open Coins.Memory Coins.Numeral Coins.Transducer Coins.Ws

namespace Coins.RecvBounds

/-- `calls` are the calls so far and `c` is the next one; `rest` is any handle of `rest_recv`. -/
theorem recv_contained (p : ws_proto_t) (calls : List Call) (c : Call) (rest : ws_s)
    (hcalls : ∀ b ∈ calls, 4000 ≤ b.bsz)
    (hret : ∀ t ∈ (feed call (ws_s.init p) calls).2, t.ret ≠ none) (hbsz : 4000 ≤ c.bsz)
    (hlog : c.mem.log = []) (hrd : c.rd ≠ []) (h0 : 0 ≤ c.buf) (hfit : c.buf + c.bsz ≤ c.mem.size)
    (hsize : c.mem.size < 2 ^ 63) :
    let ws := (feed call (ws_s.init p) calls).1
    let r := ws_recv ws c.mem c.buf c.bsz c.rd
    let q := Rest.rest_recv rest c.mem c.buf c.bsz c.rd
    (Contained c.buf c.bsz r.mem (r.ret.getD 0) ↔ ¬ Ws.Overrun ws c.bsz c.rd) ∧
      (Contained c.buf c.bsz q.mem q.ret ↔ ¬ Rest.Overrun rest c.mem c.buf c.bsz c.rd) := by
  constructor
  · have hg := session_good calls (ws_s.init p) (good_init p)
      (fun b hb => le_trans (by omega) (hcalls b hb)) hret
    exact ws_recv_contained _ c.mem c.buf c.bsz c.rd hg (by omega) hlog
  · exact Rest.rest_recv_contained rest c.mem c.buf c.bsz c.rd hlog hrd (by omega) h0 hfit hsize

/-- A fresh buffer of 4000 bytes. -/
def fresh : Mem Byte := ⟨fun _ => 0, 4000, []⟩

/-- The beginning of a frame of 8192 bytes, and the beginning of a body of 4001 bytes. -/
def half_frame : Call := ⟨fresh, 0, 4000, [0x81, 126, 32, 0] ++ List.replicate 10 97⟩

def half_body : ws_s :=
  (Rest.rest_recv (ws_s.init .WS_PROTO_REST) fresh 0 4000 (ascii "Content-Length: 4001\r\n\r\na")).ws

/-- Payload and body are under way, and the read fills the buffer but for its last byte. -/
theorem recv_contained_midway :
    let ws := (call (ws_s.init .WS_PROTO_RAW) half_frame).1
    let more := List.replicate 3999 97
    Contained 0 4000 (ws_recv ws fresh 0 4000 more).mem ((ws_recv ws fresh 0 4000 more).ret.getD 0) ∧
      Contained 0 4000 (Rest.rest_recv half_body fresh 0 4000 more).mem
        (Rest.rest_recv half_body fresh 0 4000 more).ret := by
  intro ws more
  have hne : more ≠ [] := List.ne_nil_of_length_pos (by rw [List.length_replicate]; omega)
  have h := recv_contained .WS_PROTO_RAW [half_frame] ⟨fresh, 0, 4000, more⟩ half_body
    (by intro b hb; obtain rfl := List.mem_singleton.mp hb; exact le_refl _) (by decide +kernel) (le_refl _) rfl
    hne (le_refl _) (le_refl _) (by decide)
  refine ⟨h.1.mpr ?_, h.2.mpr ?_⟩
  · rw [Ws.Overrun, List.length_replicate]
    decide +kernel
  · have hstate : half_body.state &&& Rest.HDR_SEEN ≠ 0 := by decide +kernel
    have hlen : half_body.state &&& Rest.LEN_SEEN ≠ 0 := by decide +kernel
    obtain ⟨hk, han⟩ := Rest.past_header half_body fresh 0 (more.take 4000) hstate
    rintro ⟨k, hk', hover⟩
    rw [han, if_pos hlen, List.length_take, List.length_replicate] at hover
    exact absurd hover.2 (by simp only; omega)

/-- A frame of 8192 bytes, a body of 4001 bytes, and a chunk size line of which one byte came. -/
theorem full_reads_overrun :
    (let ws := (call (ws_s.init .WS_PROTO_RAW) half_frame).1
      let r := ws_recv ws fresh 0 4000 (List.replicate 4000 97)
      ¬ Contained 0 4000 r.mem (r.ret.getD 0)) ∧
    (let r := Rest.rest_recv half_body fresh 0 4000 (List.replicate 4000 97)
     ¬ Contained 0 4000 r.mem r.ret) ∧
    (let m : Mem Byte := ⟨fun i => if i = 1 then 13 else 10, 4000, []⟩
      let ws := (Rest.rest_recv (ws_s.init .WS_PROTO_REST) fresh 0 4000
        (ascii "Transfer-Encoding: chunked\r\n\r\n1\r\na")).ws
      let r := Rest.rest_recv ws m 0 4000 (ascii "5")
      ¬ Contained 0 4000 r.mem r.ret) := by
  refine ⟨?_, ?_, ?_⟩
  · intro ws r
    have hg : Good ws := by
      refine (ws_recv_bounded (ws_s.init .WS_PROTO_RAW) fresh 0 4000 _ (good_init _) (by omega)).good ?_
      decide +kernel
    have hover : Ws.Overrun ws 4000 (List.replicate 4000 97) := by
      rw [Ws.Overrun, List.length_replicate]
      decide +kernel
    exact (ws_recv_contained ws fresh 0 4000 _ hg (by omega) rfl).not.mpr (not_not.mpr hover)
  · intro r
    have hstate : half_body.state &&& Rest.HDR_SEEN ≠ 0 := by decide +kernel
    have hlen : half_body.state &&& Rest.LEN_SEEN ≠ 0 := by decide +kernel
    have htogo : half_body.togo = 4000 := by decide +kernel
    have hne : List.replicate 4000 (97 : Byte) ≠ [] :=
      List.ne_nil_of_length_pos (by rw [List.length_replicate]; omega)
    obtain ⟨hk, han⟩ := Rest.past_header half_body fresh 0 ((List.replicate 4000 97).take 4000) hstate
    refine (Rest.rest_recv_contained half_body fresh 0 4000 _ rfl hne (by omega) (le_refl _)
      (le_refl _) (by decide)).not.mpr (not_not.mpr ⟨0, hk, ?_⟩)
    rw [han, if_pos hlen, List.length_take, List.length_replicate]
    exact ⟨htogo, rfl⟩
  · intro m ws r
    have hstate : ws.state &&& Rest.HDR_SEEN ≠ 0 := by decide +kernel
    have hlen : ¬ ws.state &&& Rest.LEN_SEEN ≠ 0 := by decide +kernel
    have henc : ws.state &&& Rest.ENC_SEEN ≠ 0 := by decide +kernel
    have htogo : ws.togo = 0 := by decide +kernel
    obtain ⟨hk, han⟩ := Rest.past_header ws m 0 ((ascii "5").take 4000) hstate
    refine (Rest.rest_recv_contained ws m 0 4000 _ rfl (by decide) (by omega) (le_refl _)
      (le_refl _) (by decide)).not.mpr (not_not.mpr ⟨0, hk, ?_⟩)
    rw [han, if_neg hlen]
    exact ⟨henc, htogo, by decide +kernel⟩

end Coins.RecvBounds
