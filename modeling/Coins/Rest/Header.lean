import Coins.Rest.Recv
import Coins.Lib.Transducer

/-!
# The header of a response

`rest_recv` looks for what a header says, and for its end, in one read at a time. What is said that
way depends on the kind of the body, so `Says` stands for it here: `flag` and `togo` are what it
leaves in the handle.
-/

open Coins.Memory Coins.Numeral Coins.Search Coins.Transducer Coins.Ws

namespace Coins.Rest

def Silent (l : List Byte) : Prop := find clen1 l = none ∧ find clen2 l = none

/-- One of the reads says it, and those before it say nothing at all. -/
def First (Says : List Byte → Prop) (calls : List Call) : Prop :=
  ∃ before c after, calls = before ++ c :: after ∧ (∀ b ∈ before, Silent b.rd) ∧ Says c.rd

theorem announced_silent (ws : ws_s) (c : Call) (h : Silent c.rd) :
    announced ws c.mem c.buf c.rd = ws := by
  simp [announced, h.1, h.2]

theorem announced_before (ws : ws_s) (c : Call) (h : ws.state ≠ 0) :
    announced ws c.mem c.buf c.rd = ws := by
  simp [announced, h]

theorem header_end (head h b : List Byte) (before : List Call)
    (hend : find eoh head = some (head.length - 4)) (hcat : received before ++ h = head)
    (h4 : 4 ≤ h.length) :
    (∀ c ∈ before, find eoh c.rd = none) ∧ find eoh (h ++ b) = some (h.length - 4) := by
  have hlen : (received before).length + h.length = head.length := by
    rw [← hcat, List.length_append]
  constructor
  · intro c hc
    obtain ⟨as, bs, rfl⟩ := List.append_of_mem hc
    have hrec : received (as ++ c :: bs) = received as ++ c.rd ++ received bs := by
      simp [received]
    rw [hrec] at hcat hlen
    simp only [List.length_append] at hlen
    refine find_inside eoh (received as) c.rd (received bs ++ h) (head.length - 4) ?_ ?_
    · rw [← List.append_assoc, hcat, hend]
    · have : eoh.length = 4 := rfl
      omega
  · rw [← hcat] at hend
    have htail := find_tail eoh _ h _ hend (by rw [List.length_append]; omega)
    rw [List.length_append] at htail
    rw [find_mono eoh h b _ htail]
    congr 1
    omega

section
variable (Says : List Byte → Prop) (flag : Nat) (togo : Int)

/-- The handle knows, or a read to come says it. -/
def Due (ws : ws_s) (calls : List Call) : Prop :=
  (ws.state = flag ∧ ws.togo = togo) ∨ (ws.state = 0 ∧ First Says calls)

/-- The read that says it leaves `flag` and `togo` in the handle. -/
def Tells : Prop :=
  flag ≠ 0 ∧ flag &&& HDR_SEEN = 0 ∧ ∀ (ws : ws_s) (c : Call), Fits c → ws.state = 0 → Says c.rd →
    announced ws c.mem c.buf c.rd = { ws with togo := togo, state := flag }

variable {Says flag togo} (ht : Tells Says flag togo)

theorem Due.last {ws : ws_s} (h : Due Says flag togo ws []) :
    ws.state = flag ∧ ws.togo = togo := by
  rcases h with h | ⟨-, before, d, after, hsplit, -⟩
  · exact h
  · simp at hsplit

include ht in
theorem Due.step {ws : ws_s} {c : Call} {cs : List Call} (h : Due Says flag togo ws (c :: cs))
    (hf : Fits c) :
    Due Says flag togo (announced ws c.mem c.buf c.rd) cs ∧
      (announced ws c.mem c.buf c.rd).p = ws.p := by
  rcases h with ⟨hst, htogo⟩ | ⟨h0, before, d, after, hsplit, hsilent, hsays⟩
  · rw [announced_before ws c (by rw [hst]; exact ht.1)]
    exact ⟨Or.inl ⟨hst, htogo⟩, rfl⟩
  · cases before with
    | nil =>
      simp only [List.nil_append, List.cons.injEq] at hsplit
      obtain ⟨rfl, rfl⟩ := hsplit
      rw [ht.2.2 ws c hf h0 hsays]
      exact ⟨Or.inl ⟨rfl, rfl⟩, rfl⟩
    | cons b bs =>
      simp only [List.cons_append, List.cons.injEq] at hsplit
      obtain ⟨rfl, rfl⟩ := hsplit
      rw [announced_silent ws c (hsilent c List.mem_cons_self)]
      have hsilent' := fun e he => hsilent e (List.mem_cons_of_mem _ he)
      exact ⟨Or.inr ⟨h0, bs, d, after, rfl, hsilent', hsays⟩, rfl⟩

include ht in
theorem Due.headerLen {ws : ws_s} {cs : List Call} (h : Due Says flag togo ws cs) (l : List Byte) :
    headerLen ws l = (find eoh l).map (· + 4) := by
  rcases h with ⟨hst, -⟩ | ⟨h0, -⟩
  · rw [Rest.headerLen, hst, if_pos ht.2.1]
  · rw [Rest.headerLen, h0]
    rfl

include ht in
theorem header_run (before cs : List Call) (ws : ws_s) (hf : ∀ c ∈ before, Fits c)
    (hno : ∀ c ∈ before, find eoh c.rd = none) (h : Due Says flag togo ws (before ++ cs)) :
    ∃ ws', feed recv ws before = (ws', []) ∧ Due Says flag togo ws' cs ∧ ws'.p = ws.p := by
  induction before generalizing ws with
  | nil => exact ⟨ws, rfl, h, rfl⟩
  | cons c before ih =>
    have hfc := hf c List.mem_cons_self
    have hnone : headerLen ws c.rd = none := by
      rw [h.headerLen ht, hno c List.mem_cons_self]
      rfl
    obtain ⟨hdue, hp⟩ := h.step ht hfc
    obtain ⟨ws', hrun, hdue', hp'⟩ := ih _ (fun d hd => hf d (List.mem_cons_of_mem _ hd))
      (fun d hd => hno d (List.mem_cons_of_mem _ hd)) hdue
    refine ⟨ws', ?_, hdue', hp'.trans hp⟩
    rw [feed_cons, recv_header ws c hfc hnone, hrun]
    rfl

include ht in
theorem header_read (before : List Call) (c : Call) (ws : ws_s) (head h b : List Byte)
    (hf : ∀ d ∈ before ++ [c], Fits d) (hrd : c.rd = h ++ b)
    (hend : find eoh head = some (head.length - 4)) (hcat : received before ++ h = head)
    (h4 : 4 ≤ h.length) (h0 : ws.state = 0) (hfirst : First Says (before ++ [c])) :
    ∃ ws' m' stale, feed recv ws (before ++ [c]) = ((body ws' m' c.buf b.length).ws,
        (body ws' m' c.buf b.length).text c.buf) ∧
      ws'.state = (if b = [] then flag else flag ||| HDR_SEEN) ∧ ws'.togo = togo ∧ ws'.p = ws.p ∧
      m'.view c.buf b.length = b ∧ text m' c.buf = b ++ stale := by
  obtain ⟨hno, hfind⟩ := header_end head h b before hend hcat h4
  obtain ⟨ws1, hrun, hdue, hp1⟩ := header_run ht before [c] ws (fun d hd => hf d (by simp [hd])) hno
    (Or.inr ⟨h0, hfirst⟩)
  have hfc := hf c (by simp)
  have hk : headerLen ws1 c.rd = some h.length := by
    rw [hdue.headerLen ht, hrd, hfind, Option.map_some]
    congr 1
    omega
  obtain ⟨hdue2, hp2⟩ := hdue.step ht hfc
  obtain ⟨hst, htogo⟩ := hdue2.last
  obtain ⟨ws', m', hrecv, hws, hview, htext⟩ := recv_body ws1 c h.length hfc hk
  have hlenb : c.rd.length - h.length = b.length := by
    rw [hrd, List.length_append]
    omega
  have hdrop : c.rd.drop h.length = b := by rw [hrd, List.drop_left]
  rw [hlenb, hst] at hws
  rw [hlenb] at hrecv hview
  rw [hdrop] at hview
  rw [shifted, hdrop] at htext
  refine ⟨ws', m', _, ?_, ?_, ?_, ?_, hview, htext⟩
  · rw [feed_append, hrun, feed_cons, hrecv]
    simp
  · rw [hws]
    by_cases hb : b = []
    · rw [if_pos hb, if_neg (by simp [hb]), hst]
    · rw [if_neg hb, if_pos ⟨ht.2.1, by simpa using hb⟩]
  · rw [hws]
    split <;> exact htogo
  · rw [hws]
    split <;> exact hp2.trans hp1

end

end Coins.Rest
