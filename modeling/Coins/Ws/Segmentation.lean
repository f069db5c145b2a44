import Coins.Ws.Recv

/-!
# `ws_recv` however the stream is cut

Call by call, `ws_recv` does what the byte-at-a-time receiver does with the bytes it took.
-/

open Coins.Endian Coins.Memory Coins.Transducer Coins.Lines

namespace Coins.Ws

/-! ## One call -/

/-- The handle stands where the receiver stands. -/
def Tracks (ws : ws_s) : Rx → Prop
  | .hdr got => got = [] ∧ ws.togo = 0
  | .body h left => 0 < left ∧ toSize ws.togo = left ∧ Holds ws.frml h ∧ known h = true
  | .dead => False

theorem Tracks.hdr {ws : ws_s} {x : Rx} (h : Tracks ws x) (h0 : ws.togo = 0) : x = .hdr [] := by
  cases x with
  | hdr got => rw [h.1]
  | body hd left =>
    have := h.2.1
    rw [h0] at this
    simp [toSize] at this
    exact absurd h.1 (by omega)
  | dead => exact h.elim

theorem Tracks.body {ws : ws_s} {x : Rx} (h : Tracks ws x) (h0 : ws.togo ≠ 0) :
    ∃ hd left, x = .body hd left := by
  cases x with
  | hdr got => exact absurd h.2 h0
  | body hd left => exact ⟨hd, left, rfl⟩
  | dead => exact h.elim

/-- In the loop of a call that began with the text `base`, the receiver having put out `r.2` since
then, and `pongs` having been sent; the bytes in `rest` are still to be looked at. -/
structure Ran (buf : Int) (nrd : Nat) (base : List Byte) (pongs : List (List Byte)) (r : Rx × List Byte)
    (rest : List Byte) (s : Loc) : Prop where
  at_ : At buf nrd s rest
  text : s.text buf = base ++ r.2 ++ cutOf r.1
  tracks : Tracks s.ws r.1
  full : s.ws.togo ≠ 0 → rest = []
  sent : s.sent = pongs.map ws_pong

theorem deliver_sent (buf : Int) (nrd left : Nat) (h l : List Byte) (s : Loc) (hs : At buf nrd s l)
    (hh : Holds s.ws.frml h) (hleft : toSize s.ws.togo = left) :
    (deliver buf nrd s).sent = s.sent ++ (if opcode h = 9 then [l.take left] else []).map ws_pong := by
  have hlen := hs.length
  have hmsg : s.mem.view (buf + s.pp) (min left (nrd - s.pp)) = l.take left := by
    rw [← hs.view, Mem.view_take]
  unfold deliver
  simp only [hh.1, hleft, min_z_eq, hmsg]
  by_cases h9 : opcode h = 9
  · rw [if_neg (by omega), if_pos h9, if_pos h9]
    rfl
  · rw [if_neg h9, if_neg h9]
    split
    · simp
    · split <;> simp

theorem deliver_ran (buf : Int) (nrd left : Nat) (h l : List Byte) (s : Loc) (hs : At buf nrd s l)
    (hh : Holds s.ws.frml h) (hk : known h = true) (hleft : toSize s.ws.togo = left)
    (pongs : List (List Byte)) (hsent : s.sent = pongs.map ws_pong) :
    Ran buf nrd (s.mem.view buf s.rp) (pongs ++ if opcode h = 9 then [l.take left] else [])
      (if left ≤ l.length then (.hdr [], (if shows h then l.take left else []) ++ endOf h)
        else (.body h (left - l.length), if shows h then l else []))
      (l.drop left) (deliver buf nrd s) := by
  have hd := deliver_spec buf nrd s h l hs hh hk
  rw [hleft] at hd
  have hsize : toSize (deliver buf nrd s).ws.togo = left - min left l.length := by
    rw [hd.togo, toSize_toSsize, toSize_sub _ _ (by omega), hleft]
  have hss' : toSsize (deliver buf nrd s).ws.togo = (deliver buf nrd s).ws.togo := by
    rw [hd.togo, toSsize_idem]
  have hzero := toSize_eq_zero_of_ssize _ hss'
  have hcut : cuts h = true → ends h = true := by
    simp only [cuts, ends, decide_eq_true_eq]
    omega
  have hpongs := deliver_sent buf nrd left h l s hs hh hleft
  rw [hsent, ← List.map_append] at hpongs
  have htext : (deliver buf nrd s).text buf = s.mem.view buf s.rp ++
      (if shows h then l.take (min left l.length) else []) ++
      List.replicate (deliver buf nrd s).ws.state nl := by
    rw [Loc.text, hd.text]
  by_cases hall : left ≤ l.length
  · have htogo : (deliver buf nrd s).ws.togo = 0 := by
      rw [← hzero]
      omega
    have hmin : min left l.length = left := by omega
    have hat := hd.at_
    rw [hmin] at hat htext
    rw [if_pos hall]
    refine ⟨hat, ?_, ⟨rfl, htogo⟩, fun hne => absurd htogo hne, hpongs⟩
    rw [htext, hd.state]
    simp only [htogo, true_and, cutOf, endOf, List.append_nil, ← List.append_assoc]
    congr 1
    by_cases he : ends h = true
    · simp [he]
    · have : ¬ cuts h = true := fun hc => he (hcut hc)
      simp [he, this]
  · have htogo : (deliver buf nrd s).ws.togo ≠ 0 := by
      rw [Ne, ← hzero]
      omega
    have hmin : min left l.length = l.length := by omega
    have hat := hd.at_
    rw [hmin] at hat htext
    have hnil : l.drop left = l.drop l.length := by
      rw [List.drop_length, List.drop_eq_nil_of_le (by omega)]
    rw [if_neg hall, hnil]
    refine ⟨hat, ?_, ⟨by omega, by omega, ?_, hk⟩, fun _ => List.drop_length, hpongs⟩
    · rw [htext, hd.state, List.take_length]
      simp only [htogo, false_and, false_or, cutOf]
      by_cases hc : cuts h = true <;> simp [hc]
    · rw [hd.frml]
      exact hh

theorem body_ran (buf : Int) (nrd left : Nat) (h l : List Byte) (s : Loc) (hs : At buf nrd s l)
    (ht : Tracks s.ws (.body h left)) (hsent : s.sent = []) :
    Ran buf nrd (s.mem.view buf s.rp) (answers (.body h left) (l.take left))
      (feed rxStep (.body h left) (l.take left)) (l.drop left)
      (deliver buf nrd s) := by
  obtain ⟨hpos, hleft, hh, hk⟩ := ht
  have hr := deliver_ran buf nrd left h l s hs hh hk hleft [] hsent
  have hfeed := feed_body h left (l.take left) hpos (by rw [List.length_take]; omega)
  rw [List.nil_append] at hr
  rw [answers_body h left l hpos]
  by_cases hall : left ≤ l.length
  · rw [if_pos hall] at hr
    rw [if_pos (by rw [List.length_take]; omega)] at hfeed
    rwa [hfeed]
  · rw [if_neg hall] at hr
    have hl : l.take left = l := List.take_of_length_le (by omega)
    rw [if_neg (by rw [hl]; omega), hl] at hfeed
    rw [hl] at hr ⊢
    rwa [hfeed]

theorem hdr_ran (buf : Int) (nrd : Nat) (l : List Byte) (s : Loc) (hs : At buf nrd s l)
    (h14 : 14 ≤ l.length) (hk : known l = true) (pongs : List (List Byte)) (hsent : s.sent = pongs.map ws_pong) :
    Ran buf nrd (s.text buf) (pongs ++ answers (.hdr []) (l.take (hdrLen l + payLen l)))
      (feed rxStep (.hdr []) (l.take (hdrLen l + payLen l)))
      (l.drop (hdrLen l + payLen l)) (deliver buf nrd (unpack buf s)) := by
  have hle := hdrLen_le l
  have hu := unpack_spec buf nrd s l hs h14
  have hsize : toSize (unpack buf s).ws.togo = payLen l := by
    rw [hu.togo, toSize_toSsize, toSize_ofNat _ (payLen_lt l)]
  have h2 := two_le_hdrLen l
  have hk' : known (l.take (hdrLen l)) = true := by rw [known, opcode_take _ _ h2]; exact hk
  have hr := deliver_ran buf nrd (payLen l) _ _ _ hu.at_ (hu.holds.take (hdrLen l) h2) hk' hsize pongs hsent
  have hshows : shows (l.take (hdrLen l)) = shows l := by rw [shows, shows, opcode_take _ _ h2]
  have hends : endOf (l.take (hdrLen l)) = endOf l := by
    rw [endOf, endOf, ends, ends, opcode_take _ _ h2, finBit_take _ _ h2]
  rw [hu.text, List.drop_drop, hshows, hends, List.length_drop, opcode_take _ _ h2] at hr
  rw [feed_frame l (by omega) hk, answers_frame l (by omega) hk]
  by_cases hall : hdrLen l + payLen l ≤ l.length
  · rw [if_pos hall]
    rwa [if_pos (show payLen l ≤ l.length - hdrLen l by omega)] at hr
  · rw [if_neg hall]
    rwa [if_neg (show ¬ payLen l ≤ l.length - hdrLen l by omega)] at hr

theorem known_of_alive (l : List Byte) (h14 : 14 ≤ l.length)
    (ha : (feed rxStep (.hdr []) l).1 ≠ .dead) : known l = true := by
  have hle := hdrLen_le l
  by_contra hk
  have := alive_of_append (.hdr []) (l.take (hdrLen l)) (l.drop (hdrLen l)) (by
    rwa [List.take_append_drop])
  rw [feed_hdr l (by omega), if_pos (by simpa using hk)] at this
  exact this rfl

theorem known_of_more (buf : Int) (nrd n : Nat) (l : List Byte) (s : Loc) (hs : At buf nrd s l)
    (h14 : 14 ≤ l.length) (ha : (more buf nrd n (deliver buf nrd (unpack buf s))).dead = false) :
    known l = true := by
  by_contra hk
  have h2 := two_le_hdrLen l
  have hdead := deliver_dead buf nrd (unpack buf s) (l.take (hdrLen l))
    ((unpack_spec buf nrd s l hs h14).holds.take _ h2)
    (by rw [known, opcode_take _ _ h2]; simpa [known] using hk)
  rw [more_stop _ _ _ _ (Or.inl hdead), hdead] at ha
  cases ha

/-- How a call came to take the bytes `c` of the bytes `l` that it had at hand: not even a header, the
payload that was under way, or a last frame whose header had enough bytes from it on. -/
inductive Last (x : Rx) (l c : List Byte) : Prop
  | short (hx : x = .hdr []) (hc : c = []) (hl : l.length < 14)
  | body {h : List Byte} {left : Nat} (hx : x = .body h left) (hc : c = l.take left)
  | frame (a : List Byte) (ha : (feed rxStep x a).1 = .hdr [])
      (hl : 14 < (l.drop a.length).length ∨ a = [] ∧ l.length = 14)
      (hc : c = a ++ (l.drop a.length).take (hdrLen (l.drop a.length) + payLen (l.drop a.length)))

theorem more_ran (buf : Int) (nrd n : Nat) (base : List Byte) (x : Rx) (c l : List Byte) (s : Loc)
    (hn : l.length ≤ n + 14) (hr : Ran buf nrd base (answers x c) (feed rxStep x c) l s)
    (ha : (feed rxStep x (c ++ l)).1 ≠ .dead ∨ (more buf nrd n s).dead = false) (hlast : Last x (c ++ l) c) :
    ∃ c' l', l = c' ++ l' ∧ l'.length ≤ 14 ∧ Last x (c ++ l) (c ++ c') ∧
      Ran buf nrd base (answers x (c ++ c')) (feed rxStep x (c ++ c')) l' (more buf nrd n s) := by
  induction n generalizing c l s with
  | zero => exact ⟨[], l, rfl, hn, by rwa [List.append_nil], by rwa [List.append_nil]⟩
  | succ n ih =>
    have hlen := hr.at_.length
    rw [more] at ha ⊢
    by_cases h14 : nrd ≤ s.pp + 14
    · rw [if_pos (Or.inr h14)]
      exact ⟨[], l, rfl, by omega, by rwa [List.append_nil], by rwa [List.append_nil]⟩
    · rw [if_neg (by rw [hr.at_.alive]; simpa using h14)] at ha ⊢
      have htogo : s.ws.togo = 0 := by
        by_contra hne
        have := hr.full hne
        rw [this] at hlen
        simp at hlen
        omega
      have hx := hr.tracks.hdr htogo
      have hk : known l = true := by
        rcases ha with ha | ha
        · rw [feed_append, hx] at ha
          exact known_of_alive l (by omega) ha
        · exact known_of_more buf nrd n l s hr.at_ (by omega) ha
      have hturn := hdr_ran buf nrd l s hr.at_ (by omega) hk _ hr.sent
      have hframe : Last x (c ++ l) (c ++ l.take (hdrLen l + payLen l)) := by
        refine .frame c hx (Or.inl ?_) ?_
        · rw [List.drop_left]
          omega
        · rw [List.drop_left]
      have h2 := two_le_hdrLen l
      rw [← answers_append x c _ hx] at hturn
      generalize hm : hdrLen l + payLen l = k at hturn hframe
      -- what this turn put out goes behind what came before
      have hnext : Ran buf nrd base (answers x (c ++ l.take k)) (feed rxStep x (c ++ l.take k)) (l.drop k)
          (deliver buf nrd (unpack buf s)) := by
        refine ⟨hturn.at_, ?_, ?_, hturn.full, hturn.sent⟩
        · rw [hturn.text, hr.text, feed_append, hx, cutOf_hdr, List.append_nil]
          simp only [List.append_assoc]
        · rw [feed_append, hx]
          exact hturn.tracks
      have hall : c ++ l.take k ++ l.drop k = c ++ l := by rw [List.append_assoc, List.take_append_drop]
      obtain ⟨c', l', hl, hl', hlast', hran⟩ := ih (c ++ l.take k) (l.drop k) _
        (by rw [List.length_drop]; omega) hnext (by rwa [hall]) (by rwa [hall])
      rw [hall] at hlast'
      refine ⟨l.take k ++ c', l', ?_, hl', ?_, ?_⟩
      · rw [List.append_assoc, ← hl, List.take_append_drop]
      · rwa [← List.append_assoc]
      · rwa [← List.append_assoc]

/-- Between two calls: the receiver stands at `x`, and the bytes in `kept` are still to come to it. -/
structure Ready (ws : ws_s) (x : Rx) (kept : List Byte) : Prop where
  tracks : Tracks ws x
  raw : ws.frml.raw.take ws.done = kept
  done : ws.done = kept.length
  done_le : ws.done ≤ 14
  full : ws.togo ≠ 0 → kept = []
  state_le : ws.state ≤ 1

theorem ready_init (p : ws_proto_t) : Ready (ws_s.init p) (.hdr []) [] :=
  ⟨⟨rfl, rfl⟩, rfl, rfl, Nat.zero_le _, fun _ => rfl, Nat.zero_le _⟩

/-- The line break that the last call left to this one, which repeats it. -/
def pending (ws : ws_s) : List Byte := if ws.togo = 0 then List.replicate ws.state nl else []

/-- A call took the bytes `c` and kept the others. -/
structure Took (ws : ws_s) (buf : Int) (x : Rx) (c kept' : List Byte) (r : Received) : Prop where
  ready : Ready r.ws (feed rxStep x c).1 kept'
  ret : ∃ k : Nat, r.ret = some (k : Int)
  text : r.text buf = pending ws ++ (feed rxStep x c).2 ++ cutOf (feed rxStep x c).1
  closed : r.ws.state = 1 → ∃ t, r.text buf = t ++ [nl]
  sent : r.sent = (answers x c).map ws_pong

theorem stash_sent (buf : Int) (nrd : Nat) (s : Loc) : (stash buf nrd s).sent = s.sent := by
  unfold stash
  split <;> rfl

theorem stash_took (ws : ws_s) (buf : Int) (nrd : Nat) (x : Rx) (c l : List Byte) (s : Loc)
    (hr : Ran buf nrd (pending ws) (answers x c) (feed rxStep x c) l s) (h14 : l.length ≤ 14) :
    Took ws buf x c l (stash buf nrd s) := by
  have hst := stash_spec buf nrd s l hr.at_ h14
  have htracks : Tracks (stash buf nrd s).ws (feed rxStep x c).1 := by
    have ht := hr.tracks
    by_cases h0 : s.ws.togo = 0
    · rw [ht.hdr h0]
      exact ⟨rfl, by rw [hst.togo, h0]⟩
    · have hnil := hr.full h0
      obtain ⟨hd, left, hx⟩ := ht.body h0
      rw [hx] at ht ⊢
      rwa [Tracks, hst.togo, hst.frml hnil]
  refine ⟨⟨htracks, hst.kept, hst.done, ?_, ?_, ?_⟩, ⟨_, hst.ret⟩, ?_, ?_, ?_⟩
  · rw [hst.done]
    exact h14
  · rw [hst.togo]
    exact hr.full
  · rw [hst.state]
    exact hr.at_.state_le
  · rw [hst.text, hr.text]
  · intro h1
    rw [hst.state] at h1
    rw [hst.text, Loc.text, h1]
    exact ⟨_, rfl⟩
  · rw [stash_sent]
    exact hr.sent

theorem turns_took (ws : ws_s) (buf : Int) (nrd : Nat) (x : Rx) (c l : List Byte) (s : Loc)
    (hr : Ran buf nrd (pending ws) (answers x c) (feed rxStep x c) l s)
    (ha : (feed rxStep x (c ++ l)).1 ≠ .dead ∨ (more buf nrd nrd s).dead = false) (hlast : Last x (c ++ l) c) :
    ∃ c' kept', c ++ l = c' ++ kept' ∧ Last x (c ++ l) c' ∧
      Took ws buf x c' kept' (stash buf nrd (more buf nrd nrd s)) := by
  have hlen := hr.at_.length
  obtain ⟨c', l', rfl, h14, hlast', hran⟩ := more_ran buf nrd nrd _ x c l s (by omega) hr ha hlast
  exact ⟨c ++ c', l', (List.append_assoc _ _ _).symm, hlast', stash_took ws buf nrd x _ l' _ hran h14⟩

theorem alive_of_ret (buf : Int) (nrd : Nat) (s : Loc) (h : (stash buf nrd s).ret ≠ none) : s.dead = false := by
  unfold stash at h
  split at h
  · exact absurd rfl h
  · rename_i hs
    simpa using mt Or.inl hs

theorem ws_recv_took (ws : ws_s) (m : Mem Byte) (buf : Int) (bsz : Nat) (rd : List Byte) (x : Rx)
    (kept : List Byte) (hready : Ready ws x kept) (hrd : rd ≠ []) (hfit : rd.length + ws.done ≤ bsz)
    (ha : (feed rxStep x (kept ++ rd)).1 ≠ .dead ∨ (ws_recv ws m buf bsz rd).ret ≠ none) :
    ∃ c kept', kept ++ rd = c ++ kept' ∧ Last x (kept ++ rd) c ∧
      Took ws buf x c kept' (ws_recv ws m buf bsz rd) := by
  have hat := at_start ws m buf rd kept hready.raw hready.done hready.state_le
  have hlen : (kept ++ rd).length = rd.length + ws.done := by
    rw [List.length_append, ← hready.done, Nat.add_comm]
  simp only [ws_recv] at ha ⊢
  rw [List.take_of_length_le (by omega), if_neg hrd] at ha ⊢
  generalize hs : Loc.mk ws _ 0 0 [] false = s at ha hat ⊢
  have hws : s.ws = ws := by rw [← hs]
  have hrp : s.rp = 0 := by rw [← hs]
  have hsent : s.sent = [] := by rw [← hs]
  have hbase : s.text buf = List.replicate ws.state nl := by rw [Loc.text, hws, hrp]; rfl
  by_cases htogo : ws.togo = 0
  · have hx := hready.tracks.hdr htogo
    have hpend : pending ws = s.text buf := by rw [pending, if_pos htogo, hbase]
    subst hx
    by_cases hshort : rd.length + ws.done < 14
    · -- not even a header
      rw [if_pos ⟨hshort, htogo⟩]
      refine ⟨[], kept ++ rd, rfl, .short rfl rfl (by omega),
        stash_took ws buf _ _ [] _ s ⟨hat, ?_, ?_, ?_, hsent⟩ (by omega)⟩
      · simp [hpend]
      · rw [hws]
        exact hready.tracks
      · rw [hws]
        exact fun hne => absurd htogo hne
    · rw [if_neg (by simp [hshort]), if_neg (by simpa using htogo)] at ha ⊢
      have hfull : 14 ≤ (kept ++ rd).length := by omega
      have halive := ha.imp_right (alive_of_ret _ _ _)
      have hk : known (kept ++ rd) = true := by
        rcases halive with ha | ha
        · exact known_of_alive _ (by omega) ha
        · exact known_of_more buf _ _ _ s hat hfull ha
      have hr := hdr_ran buf _ (kept ++ rd) s hat hfull hk [] hsent
      rw [← hpend] at hr
      obtain ⟨c, kept', hsplit, hlast, htook⟩ := turns_took ws buf _ _ _ _ _ hr
        (by rwa [List.take_append_drop])
        (.frame [] rfl (by
          rw [List.take_append_drop]
          exact (Nat.lt_or_eq_of_le hfull).imp_right fun h => ⟨rfl, h.symm⟩) (by simp))
      rw [List.take_append_drop] at hsplit hlast
      exact ⟨c, kept', hsplit, hlast, htook⟩
  · -- the header is known already
    obtain ⟨h, left, hx⟩ := hready.tracks.body htogo
    have ht := hready.tracks
    rw [hx, ← hws] at ht
    have hr := body_ran buf _ left h (kept ++ rd) s hat ht hsent
    have hpend : pending ws = s.mem.view buf s.rp := by rw [pending, if_neg htogo, hrp]; rfl
    rw [if_neg (by simp [htogo]), if_pos htogo] at ha ⊢
    rw [← hpend, ← hx] at hr
    obtain ⟨c, kept', hsplit, hlast, htook⟩ := turns_took ws buf _ _ _ _ _ hr
      (by rw [List.take_append_drop]; exact ha.imp_right (alive_of_ret _ _ _))
      (.body hx (by rw [List.take_append_drop]))
    rw [List.take_append_drop] at hsplit hlast
    exact ⟨c, kept', hsplit, hlast, htook⟩

/-! ## Many calls -/

def ws_s.stashed (ws : ws_s) : List Byte := ws.frml.raw.take ws.done

/-- What a call made of the stream: the bytes it took, the text it returned. -/
structure Turn where
  took : List Byte
  text : List Byte
  ret : Option Int

def call (ws : ws_s) (c : Call) : ws_s × List Turn :=
  let r := ws_recv ws c.mem c.buf c.bsz c.rd
  (r.ws, [⟨(ws.stashed ++ c.rd).take ((ws.stashed ++ c.rd).length - r.ws.done), r.text c.buf, r.ret⟩])

def taken (turns : List Turn) : List (List Byte) := turns.map Turn.took
def returned (turns : List Turn) : List Byte := turns.flatMap Turn.text

theorem taken_cons (t : Turn) (ts : List Turn) : taken (t :: ts) = t.took :: taken ts := rfl
theorem returned_cons (t : Turn) (ts : List Turn) : returned (t :: ts) = t.text ++ returned ts := rfl

/-- A read that leaves room behind it. -/
def Fits (ws : ws_s) (c : Call) : Prop :=
  c.rd ≠ [] ∧ 4000 ≤ c.bsz ∧ c.rd.length < c.bsz - ws.done

/-- A read that there is room for. -/
def Reads (ws : ws_s) (c : Call) : Prop := c.rd ≠ [] ∧ c.rd.length + ws.done ≤ c.bsz

theorem reads_of_fits {ws : ws_s} {calls : List Call} (h : Each call Fits ws calls) :
    Each call Reads ws calls :=
  Each.mono call (fun _ _ ⟨hrd, _, hlen⟩ => ⟨hrd, by omega⟩) h

/-- What the receiver puts out when it is stopped at the end of each piece. -/
def pieces : Rx → List (List Byte) → List Byte
  | _, [] => []
  | x, c :: cs => (feed rxStep x c).2 ++ cutOf (feed rxStep x c).1 ++ pieces (feed rxStep x c).1 cs

/-- The text so far says the same, and a pending line break would be an empty line. -/
def Agrees (ws : ws_s) (d e : List Byte) : Prop :=
  Same nl d e ∧ (ws.state = 1 → atBreak nl true d = true)

theorem Agrees.pending {ws : ws_s} {d e : List Byte} (h : Agrees ws d e) (hst : ws.state ≤ 1) :
    Same nl (d ++ pending ws) e := by
  rw [Ws.pending]
  split
  · have hcases : ws.state = 0 ∨ ws.state = 1 := by omega
    rcases hcases with h0 | h1
    · rw [h0]
      simpa using h.1
    · rw [h1]
      exact (same_sep d (h.2 h1)).trans h.1
  · simpa using h.1

theorem Took.agrees {ws : ws_s} {buf : Int} {x : Rx} {c kept' d e : List Byte} {r : Received}
    (h : Took ws buf x c kept' r) (hst : ws.state ≤ 1) (ha : Agrees ws d e) :
    Agrees r.ws (d ++ r.text buf) (e ++ ((feed rxStep x c).2 ++ cutOf (feed rxStep x c).1)) := by
  constructor
  · rw [h.text, List.append_assoc, ← List.append_assoc]
    exact (ha.pending hst).append _
  · intro h1
    obtain ⟨t, ht⟩ := h.closed h1
    rw [ht, ← List.append_assoc, atBreak_sep]

/-- **One call**: what it takes, keeps and returns. -/
theorem call_took (ws : ws_s) (c : Call) (x : Rx) (kept : List Byte) (hready : Ready ws x kept)
    (hrd : c.rd ≠ []) (hfit : c.rd.length + ws.done ≤ c.bsz)
    (ha : (feed rxStep x (kept ++ c.rd)).1 ≠ .dead ∨ (ws_recv ws c.mem c.buf c.bsz c.rd).ret ≠ none) :
    ∃ t kept', kept ++ c.rd = t ++ kept' ∧ Last x (kept ++ c.rd) t ∧
      Took ws c.buf x t kept' (ws_recv ws c.mem c.buf c.bsz c.rd) ∧
      call ws c = ((ws_recv ws c.mem c.buf c.bsz c.rd).ws,
        [⟨t, (ws_recv ws c.mem c.buf c.bsz c.rd).text c.buf, (ws_recv ws c.mem c.buf c.bsz c.rd).ret⟩]) := by
  obtain ⟨t, kept', hsplit, hlast, htook⟩ := ws_recv_took ws c.mem c.buf c.bsz c.rd x kept hready hrd hfit ha
  refine ⟨t, kept', hsplit, hlast, htook, ?_⟩
  have hk : ws.stashed = kept := hready.raw
  have hn : (t ++ kept').length - kept'.length = t.length := by simp
  rw [call, hk, hsplit, htook.ready.done, hn, List.take_left]

theorem session_took (calls : List Call) (ws : ws_s) (x : Rx) (kept d e : List Byte)
    (hready : Ready ws x kept) (hfit : Each call Reads ws calls)
    (ha : (feed rxStep x (kept ++ received calls)).1 ≠ .dead) (hag : Agrees ws d e) :
    let r := feed call ws calls
    kept ++ received calls = (taken r.2).flatten ++ r.1.stashed ∧
      Ready r.1 (feed rxStep x (taken r.2).flatten).1 r.1.stashed ∧
      (∀ t ∈ r.2, ∃ k : Nat, t.ret = some (k : Int)) ∧
      Agrees r.1 (d ++ returned r.2) (e ++ pieces x (taken r.2)) := by
  induction calls generalizing ws x kept d e with
  | nil =>
    have hk : ws.stashed = kept := hready.raw
    simp [received, taken, returned, pieces, hk, hready, hag]
  | cons c cs ih =>
    obtain ⟨⟨hrd, hlen⟩, hfit'⟩ := hfit
    rw [received_cons, ← List.append_assoc] at ha ⊢
    obtain ⟨t, kept', hsplit, -, htook, hcall⟩ := call_took ws c x kept hready hrd hlen
      (Or.inl (alive_of_append _ _ _ ha))
    generalize ws_recv ws c.mem c.buf c.bsz c.rd = r at htook hcall
    rw [hsplit, List.append_assoc] at ha ⊢
    rw [feed_append] at ha
    obtain ⟨hflat, hready', hret, hag'⟩ := ih r.ws (feed rxStep x t).1 kept' _ _ htook.ready
      (by rwa [hcall] at hfit') ha (htook.agrees hready.state_le hag)
    simp only [feed, hcall, List.cons_append, List.nil_append, taken_cons, returned_cons, pieces,
      List.flatten_cons]
    refine ⟨?_, ?_, ?_, ?_⟩
    · rw [hflat, List.append_assoc]
    · rw [feed_append]
      exact hready'
    · intro u hu
      rcases List.mem_cons.mp hu with rfl | hu
      · exact htook.ret
      · exact hret u hu
    · rw [← List.append_assoc, ← List.append_assoc e]
      exact hag'

/-! ## Streams of frames -/

theorem session_frames (p : ws_proto_t) (fs : List Frame) (hk : ∀ f ∈ fs, known f.head = true)
    (calls : List Call) (hfit : Each call Reads (ws_s.init p) calls)
    (hpre : received calls <+: encode fs) :
    let r := feed call (ws_s.init p) calls
    r.1.done ≤ 14 ∧ (∀ t ∈ r.2, ∃ k : Nat, t.ret = some (k : Int)) ∧
      r.1.stashed = (received calls).drop ((received calls).length - r.1.done) ∧
      (taken r.2).flatten = (encode fs).take ((received calls).length - r.1.done) ∧
      Same nl (returned r.2) (pieces (.hdr []) (taken r.2)) := by
  have halive : (feed rxStep (.hdr []) ([] ++ received calls)).1 ≠ .dead := by
    rw [List.nil_append, List.prefix_iff_eq_take.mp hpre, feed_encode fs hk]
    exact stateAt_ne_dead _ _
  obtain ⟨hsplit, hready, hret, hag⟩ := session_took calls _ _ [] [] [] (ready_init p) hfit halive
    ⟨Same.refl [], fun h => absurd h (by simp [ws_s.init])⟩
  rw [List.nil_append] at hsplit
  have hdone : (feed call (ws_s.init p) calls).1.stashed.length =
    (feed call (ws_s.init p) calls).1.done := hready.done.symm
  obtain ⟨t, ht⟩ := hpre
  refine ⟨hready.done_le, hret, ?_, ?_, hag.1⟩
  · rw [hsplit, List.length_append, hdone, Nat.add_sub_cancel, List.drop_left]
  · rw [← ht, hsplit, List.append_assoc, List.length_append, hdone, Nat.add_sub_cancel,
      List.take_left]

theorem pieces_flatten (x : Rx) (cs : List (List Byte))
    (h : ∀ a b, cs.flatten = a ++ b → cutOf (feed rxStep x a).1 = []) :
    pieces x cs = (feed rxStep x cs.flatten).2 := by
  induction cs generalizing x with
  | nil => rfl
  | cons c cs ih =>
    have hc := h c cs.flatten rfl
    have hcs := ih (feed rxStep x c).1 fun a b hab => by
      have := h (c ++ a) b (by rw [List.flatten_cons, hab, List.append_assoc])
      rwa [feed_append] at this
    rw [pieces, hc, hcs, List.append_nil, List.flatten_cons, feed_append]

theorem session_pieces (p : ws_proto_t) (fs : List Frame) (hk : ∀ f ∈ fs, known f.head = true)
    (hc : ∀ f ∈ fs, cuts f.head = false) (calls : List Call)
    (hfit : Each call Reads (ws_s.init p) calls) (hpre : received calls <+: encode fs) :
    let r := feed call (ws_s.init p) calls
    pieces (.hdr []) (taken r.2) = textAt fs ((received calls).length - r.1.done) := by
  obtain ⟨-, -, -, htaken, -⟩ := session_frames p fs hk calls hfit hpre
  intro r
  rw [pieces_flatten, htaken, feed_encode fs hk]
  intro a b hab
  have ha : a = (encode fs).take a.length := by
    have hle : a <+: encode fs := (List.prefix_append a b).trans (by
      rw [← hab, htaken]
      exact List.take_prefix _ _)
    exact List.prefix_iff_eq_take.mp hle
  rw [ha, feed_encode fs hk]
  exact cutOf_stateAt fs hc _

theorem session_text (p : ws_proto_t) (fs : List Frame) (hk : ∀ f ∈ fs, known f.head = true)
    (hc : ∀ f ∈ fs, cuts f.head = false) (calls : List Call)
    (hfit : Each call Reads (ws_s.init p) calls) (hpre : received calls <+: encode fs) :
    let r := feed call (ws_s.init p) calls
    Same nl (returned r.2) (textAt fs ((received calls).length - r.1.done)) := by
  obtain ⟨-, -, -, -, hsame⟩ := session_frames p fs hk calls hfit hpre
  intro r
  rw [← session_pieces p fs hk hc calls hfit hpre]
  exact hsame

/-! ### Data frames -/

/-- The payload bytes in order, a line break after each final frame. -/
def refDecode : List Frame → Nat → List Byte
  | [], _ => []
  | f :: fs, n =>
    if n < f.bytes.length then f.payload.take (n - f.head.length)
    else f.payload ++ (if finBit f.head then [nl] else []) ++ refDecode fs (n - f.bytes.length)

theorem textAt_data (fs : List Frame) (hd : ∀ f ∈ fs, opcode f.head ≤ 2) (n : Nat) :
    textAt fs n = refDecode fs n := by
  induction fs generalizing n with
  | nil => rfl
  | cons f fs ih =>
    have hf := hd f List.mem_cons_self
    have hshows : shows f.head = true := by
      simp only [shows, decide_eq_true_eq]
      omega
    have hends : ends f.head = finBit f.head := by
      have h8 : ¬ opcode f.head = 8 := by omega
      have h9 : ¬ opcode f.head = 9 := by omega
      simp [ends, hf, h8, h9]
    rw [textAt, refDecode, ih (fun g hg => hd g (List.mem_cons_of_mem _ hg)), hshows, endOf, hends]
    simp only [if_true]

/-- However a stream of data frames is cut, its payload comes out in order. -/
theorem ws_recv_segmentation (p : ws_proto_t) (fs : List Frame)
    (hd : ∀ f ∈ fs, opcode f.head ≤ 2) (calls : List Call)
    (hfit : Each call Fits (ws_s.init p) calls) (hpre : received calls <+: encode fs) :
    let r := feed call (ws_s.init p) calls
    r.1.done ≤ 14 ∧ (∀ t ∈ r.2, ∃ k : Nat, t.ret = some (k : Int)) ∧
      r.1.stashed = (received calls).drop ((received calls).length - r.1.done) ∧
      collapse nl (returned r.2) =
        collapse nl (refDecode fs ((received calls).length - r.1.done)) := by
  have hk : ∀ f ∈ fs, known f.head = true := fun f hf => by simp [known, hd f hf]
  have hc : ∀ f ∈ fs, cuts f.head = false := fun f hf => by
    have := hd f hf
    simp only [cuts, decide_eq_false_iff_not]
    omega
  obtain ⟨hdone, hret, hstash, -⟩ := session_frames p fs hk calls (reads_of_fits hfit) hpre
  refine ⟨hdone, hret, hstash, ?_⟩
  have h := session_text p fs hk hc calls (reads_of_fits hfit) hpre
  simp only [textAt_data fs hd] at h
  exact h

/-- Two data frames and the beginning of a third, cut in the first header. -/
theorem ws_recv_segmentation_three :
    let fs : List Frame := [⟨[0x01, 2], [97, 98], rfl, rfl⟩, ⟨[0x80, 2], [99, 100], rfl, rfl⟩,
      ⟨[0x81, 16], List.replicate 16 101, rfl, rfl⟩]
    let calls : List Call := [⟨⟨fun _ => 0, 4000, []⟩, 0, 4000, [0x01]⟩,
      ⟨⟨fun _ => 0, 4000, []⟩, 0, 4000,
        [2, 97, 98, 0x80, 2, 99, 100, 0x81, 16, 101, 101, 101, 101, 101, 101]⟩]
    let r := feed call (ws_s.init .WS_PROTO_RAW) calls
    r.1.done ≤ 14 ∧ collapse nl (returned r.2) =
      collapse nl (refDecode fs ((received calls).length - r.1.done)) := by
  intro fs calls r
  have h := ws_recv_segmentation .WS_PROTO_RAW fs (by decide) calls
    ⟨⟨by decide, by decide, by decide⟩, ⟨by decide, by decide, by decide +kernel⟩, trivial⟩
    (by decide)
  exact ⟨h.1, h.2.2.2⟩

/-! ### Pings and pongs -/

def dataFrames (fs : List Frame) : List Frame := fs.filter fun f => opcode f.head ≤ 2

/-- How many of the first `n` bytes belong to data frames. -/
def dataPos : List Frame → Nat → Nat
  | [], _ => 0
  | f :: fs, n =>
    (if opcode f.head ≤ 2 then min n f.bytes.length else 0) + dataPos fs (n - f.bytes.length)

theorem dataPos_zero (fs : List Frame) : dataPos fs 0 = 0 := by
  induction fs with
  | nil => rfl
  | cons f fs ih => simp [dataPos, ih]

theorem textAt_zero (fs : List Frame) : textAt fs 0 = [] := by
  cases fs with
  | nil => rfl
  | cons f fs =>
    have := two_le_hdrLen f.head
    have := f.length_bytes
    rw [textAt, if_pos (by omega)]
    simp

theorem textAt_pongs (fs : List Frame) (h : ∀ f ∈ fs, opcode f.head ≤ 2 ∨ opcode f.head = 10)
    (n : Nat) : textAt fs n = refDecode (dataFrames fs) (dataPos fs n) := by
  rw [← textAt_data _ fun f hf => by simpa using (List.mem_filter.mp hf).2]
  induction fs generalizing n with
  | nil => rfl
  | cons f fs ih =>
    have ih' := ih fun g hg => h g (List.mem_cons_of_mem _ hg)
    by_cases hd : opcode f.head ≤ 2
    · have hdata : dataFrames (f :: fs) = f :: dataFrames fs := by simp [dataFrames, hd]
      rw [hdata, textAt, textAt, dataPos, if_pos hd]
      by_cases hn : n < f.bytes.length
      · have hz : n - f.bytes.length = 0 := by omega
        rw [hz, dataPos_zero, Nat.min_eq_left hn.le, Nat.add_zero, if_pos hn, if_pos hn]
      · have hn' : ¬ f.bytes.length + dataPos fs (n - f.bytes.length) < f.bytes.length := by omega
        rw [Nat.min_eq_right (by omega), if_neg hn, if_neg hn', Nat.add_sub_cancel_left, ih']
    · have hp : opcode f.head = 10 := by
        have := h f List.mem_cons_self
        omega
      have hdata : dataFrames (f :: fs) = dataFrames fs := by simp [dataFrames, hd]
      have hshows : shows f.head = false := by simp [shows, hp]
      have hends : endOf f.head = [] := by simp [endOf, ends, hp]
      rw [hdata, textAt, dataPos, if_neg hd, Nat.zero_add, hshows, hends, ← ih']
      by_cases hn : n < f.bytes.length
      · have hz : n - f.bytes.length = 0 := by omega
        rw [if_pos hn, hz, textAt_zero]
        rfl
      · rw [if_neg hn]
        rfl

/-- Pongs leave no trace. A ping comes out as a line of its own, broken where a call ended in it. -/
theorem ws_recv_control (p : ws_proto_t) (fs : List Frame)
    (hd : ∀ f ∈ fs, opcode f.head ≤ 2 ∨ opcode f.head = 9 ∨ opcode f.head = 10) (calls : List Call)
    (hfit : Each call Fits (ws_s.init p) calls) (hpre : received calls <+: encode fs) :
    let r := feed call (ws_s.init p) calls
    let n := (received calls).length - r.1.done
    r.1.done ≤ 14 ∧ (∀ t ∈ r.2, ∃ k : Nat, t.ret = some (k : Int)) ∧
      (taken r.2).flatten = (encode fs).take n ∧
      (feed rxStep (.hdr []) ((encode fs).take n)).2 = textAt fs n ∧
      collapse nl (returned r.2) = collapse nl (pieces (.hdr []) (taken r.2)) ∧
      ((∀ f ∈ fs, opcode f.head ≠ 9) →
        collapse nl (returned r.2) = collapse nl (refDecode (dataFrames fs) (dataPos fs n))) := by
  have hk : ∀ f ∈ fs, known f.head = true := fun f hf => by
    have := hd f hf
    simp only [known, decide_eq_true_eq]
    omega
  obtain ⟨hdone, hret, -, htaken, hsame⟩ := session_frames p fs hk calls (reads_of_fits hfit) hpre
  refine ⟨hdone, hret, htaken, ?_, hsame, fun hno => ?_⟩
  · rw [feed_encode fs hk]
  · have hpong : ∀ f ∈ fs, opcode f.head ≤ 2 ∨ opcode f.head = 10 := fun f hf => by
      have := hd f hf
      have := hno f hf
      omega
    have hc : ∀ f ∈ fs, cuts f.head = false := fun f hf => by
      have := hpong f hf
      simp only [cuts, decide_eq_false_iff_not]
      omega
    have h := session_text p fs hk hc calls (reads_of_fits hfit) hpre
    simp only [textAt_pongs fs hpong] at h
    exact h

theorem ws_recv_control_pong :
    let fs : List Frame := [⟨[0x01, 2], [97, 98], rfl, rfl⟩, ⟨[0x8a, 1], [120], rfl, rfl⟩,
      ⟨[0x80, 16], List.replicate 16 101, rfl, rfl⟩]
    let calls : List Call := [⟨⟨fun _ => 0, 4000, []⟩, 0, 4000, encode fs⟩]
    let r := feed call (ws_s.init .WS_PROTO_RAW) calls
    collapse nl (returned r.2) = collapse nl
      (refDecode (dataFrames fs) (dataPos fs ((received calls).length - r.1.done))) := by
  intro fs calls r
  have h := ws_recv_control .WS_PROTO_RAW fs (by decide) calls
    ⟨⟨by decide, by decide, by decide⟩, trivial⟩ (by decide)
  exact h.2.2.2.2.2 (by decide)

/-- A ping that says `x` between the fragments `ab` and `cd`: `abx`, line break, `cd`. -/
theorem ping_breaks_line :
    let ab : Frame := ⟨[0x01, 2], [97, 98], rfl, rfl⟩
    let ping : Frame := ⟨[0x89, 1], [120], rfl, rfl⟩
    let cd : Frame := ⟨[0x80, 2], [99, 100], rfl, rfl⟩
    let next : Frame := ⟨[0x81, 16], List.replicate 16 101, rfl, rfl⟩
    let run (fs : List Frame) :=
      collapse nl (returned (feed call (ws_s.init .WS_PROTO_RAW)
        [⟨⟨fun _ => 0, 4000, []⟩, 0, 4000, encode fs⟩]).2)
    run [ab, ping, cd, next] = [97, 98, 120, 10, 99, 100, 10] ++ List.replicate 16 101 ++ [10] ∧
      run [ab, cd, next] = [97, 98, 99, 100, 10] ++ List.replicate 16 101 ++ [10] := by
  decide +kernel

end Coins.Ws
