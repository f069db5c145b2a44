import Coins.Ws.Segmentation

/-!
# The bytes `ws_recv` touches

All of them lie in the caller's buffer, but for one line break behind a payload that fills it.
-/

open Coins.Memory Coins.Transducer

namespace Coins.Ws

/-! ## The loop -/

/-- The handle between two calls, whatever the stream. -/
structure Good (ws : ws_s) : Prop where
  done_le : ws.done ≤ 14
  state_le : ws.state ≤ 1
  full : ws.togo ≠ 0 → ws.done = 0 ∧ known ws.frml.raw = true

theorem good_init (p : ws_proto_t) : Good (ws_s.init p) :=
  ⟨Nat.zero_le _, Nat.zero_le _, fun h => absurd rfl h⟩

/-- From `s` to `s'` nothing but the received bytes was touched, and unless it called `abort` the
code is still in the loop. -/
structure Looped (buf : Int) (nrd : Nat) (s s' : Loc) : Prop where
  mem : Mem.Within buf (buf + nrd) s.mem s'.mem
  at_ : s'.dead = false → ∃ l, At buf nrd s' l ∧
    (s'.ws.togo ≠ 0 → l = [] ∧ known s'.ws.frml.raw = true)
  pp_le : s'.dead = false → s.pp ≤ s'.pp
  rp_lt : s'.dead = false → s.rp < s.pp → s'.rp < s'.pp

theorem Looped.trans {buf : Int} {nrd : Nat} {s s' s'' : Loc} (h : Looped buf nrd s s')
    (ha : s'.dead = false) (h' : Looped buf nrd s' s'') : Looped buf nrd s s'' :=
  ⟨h.mem.trans h'.mem, h'.at_, fun hd => (h.pp_le ha).trans (h'.pp_le hd),
    fun hd hlt => h'.rp_lt hd (h.rp_lt ha hlt)⟩

theorem Delivered.rp {buf : Int} {nrd k : Nat} {h l : List Byte} {s s' : Loc}
    (hd : Delivered buf nrd h l k s s') (hk : k ≤ l.length) :
    s'.rp = s.rp + if shows h then k else 0 := by
  have := congrArg List.length hd.text
  rw [List.length_append, Mem.view_length, Mem.view_length] at this
  rw [this]
  split
  · rw [List.length_take, Nat.min_eq_left hk]
  · rfl

theorem deliver_looped (buf : Int) (nrd : Nat) (s : Loc) (l : List Byte) (hs : At buf nrd s l) :
    Looped buf nrd s (deliver buf nrd s) := by
  have hh := holds_raw s.ws.frml
  by_cases hk : known s.ws.frml.raw = true
  · have hd := deliver_spec buf nrd s _ l hs hh hk
    have hrp := hd.rp (Nat.min_le_right _ _)
    have hpp := hd.pp
    refine ⟨hd.mem, fun _ => ⟨_, hd.at_, fun hne => ⟨?_, ?_⟩⟩, fun _ => by omega, fun _ hlt => ?_⟩
    · -- what is to go is more than there was
      rw [hd.togo] at hne
      have hz : toSize (s.ws.togo - min (toSize s.ws.togo) l.length) ≠ 0 := by
        rw [← toSize_toSsize]
        rwa [Ne, toSize_eq_zero_of_ssize _ (toSsize_idem _)]
      rw [toSize_sub _ _ (Nat.min_le_left _ _)] at hz
      rw [List.drop_eq_nil_iff]
      omega
    · rw [hd.frml]
      exact hk
    · rw [hrp, hpp]
      split <;> omega
  · have hdead := deliver_dead buf nrd s _ hh (by simpa using hk)
    have hmem : (deliver buf nrd s).mem = s.mem := by
      simp only [known, decide_eq_true_eq] at hk
      simp only [deliver, hh.1]
      rw [if_neg (by omega), if_neg (by omega), if_neg (by omega)]
    have hno : (deliver buf nrd s).dead ≠ false := by simp [hdead]
    refine ⟨?_, fun ha => absurd ha hno, fun ha => absurd ha hno, fun ha => absurd ha hno⟩
    rw [hmem]
    exact Mem.Within.refl _

theorem turn_looped (buf : Int) (nrd : Nat) (s : Loc) (l : List Byte) (hs : At buf nrd s l)
    (h14 : 14 ≤ l.length) :
    Looped buf nrd s (deliver buf nrd (unpack buf s)) ∧
      ((deliver buf nrd (unpack buf s)).dead = false →
        s.pp < (deliver buf nrd (unpack buf s)).pp ∧
        (deliver buf nrd (unpack buf s)).rp < (deliver buf nrd (unpack buf s)).pp) := by
  have hu := unpack_spec buf nrd s l hs h14
  have hd := deliver_looped buf nrd _ _ hu.at_
  have h2 := two_le_hdrLen l
  have hpp := hu.pp
  have hle := hd.pp_le
  exact ⟨⟨hu.mem.trans hd.mem, hd.at_, fun ha => by have := hle ha; omega,
    fun ha _ => hd.rp_lt ha hu.rp_lt⟩, fun ha => ⟨by have := hle ha; omega, hd.rp_lt ha hu.rp_lt⟩⟩

theorem more_looped (buf : Int) (nrd n : Nat) (s0 s : Loc)
    (hn : s.dead = false → nrd ≤ s.pp + n + 14) (h : Looped buf nrd s0 s) :
    Looped buf nrd s0 (more buf nrd n s) ∧
      ((more buf nrd n s).dead = false → nrd ≤ (more buf nrd n s).pp + 14) ∧
      (more buf nrd n s = s ∨
        ((more buf nrd n s).dead = false → (more buf nrd n s).rp < (more buf nrd n s).pp)) := by
  induction n generalizing s with
  | zero => exact ⟨h, hn, Or.inl rfl⟩
  | succ n ih =>
    rw [more]
    by_cases hd : s.dead = true
    · rw [if_pos (Or.inl hd)]
      exact ⟨h, fun ha => absurd ha (by simp [hd]), Or.inl rfl⟩
    · by_cases h14 : nrd ≤ s.pp + 14
      · rw [if_pos (Or.inr h14)]
        exact ⟨h, fun _ => h14, Or.inl rfl⟩
      · rw [if_neg (by simp [hd, h14])]
        have ha : s.dead = false := by simpa using hd
        obtain ⟨l, hat, -⟩ := h.at_ ha
        have hlen := hat.length
        have hn' := hn ha
        obtain ⟨hturn, hadv⟩ := turn_looped buf nrd s l hat (by omega)
        obtain ⟨hl, hstop, hgap⟩ :=
          ih _ (fun ha' => by have := (hadv ha').1; omega) (h.trans ha hturn)
        refine ⟨hl, hstop, Or.inr fun ha' => ?_⟩
        rcases hgap with he | hlt
        · rw [he] at ha' ⊢
          exact (hadv ha').2
        · exact hlt ha'

/-! ## The call -/

/-- A payload under way fills the whole buffer. -/
def Overrun (ws : ws_s) (bsz : Nat) (rd : List Byte) : Prop :=
  ws.togo ≠ 0 ∧ bsz ≤ toSize ws.togo ∧ bsz ≤ rd.length ∧ ws.frml.code ≠ 10

instance (ws : ws_s) (bsz : Nat) (rd : List Byte) : Decidable (Overrun ws bsz rd) := by
  unfold Overrun
  infer_instance

/-- What a call does to its buffer of `bsz` bytes. -/
structure Bounded (ws : ws_s) (m : Mem Byte) (buf : Int) (bsz : Nat) (rd : List Byte)
    (r : Received) : Prop where
  good : r.ret ≠ none → Good r.ws
  mem : Mem.Within buf (buf + bsz + 1) m r.mem
  ret : ∀ k, r.ret = some k → -1 ≤ k ∧ k ≤ bsz + 1
  fits : ¬ Overrun ws bsz rd →
    Mem.Within buf (buf + bsz) m r.mem ∧ ∀ k, r.ret = some k → k ≤ bsz
  overrun : Overrun ws bsz rd → r.mem.Wrote (buf + bsz)

theorem Stashed.good {buf : Int} {nrd : Nat} {l : List Byte} {s : Loc} {r : Received}
    (hs : Stashed buf nrd l s r) (hst : s.ws.state ≤ 1) (h14 : l.length ≤ 14)
    (hfull : s.ws.togo ≠ 0 → l = [] ∧ known s.ws.frml.raw = true) : Good r.ws := by
  refine ⟨?_, ?_, ?_⟩
  · rw [hs.done]
    exact h14
  · rw [hs.state]
    exact hst
  · rw [hs.togo]
    intro hne
    obtain ⟨hnil, hk⟩ := hfull hne
    rw [hs.done, hs.frml hnil, hnil]
    exact ⟨rfl, hk⟩

theorem stash_dead (buf : Int) (nrd : Nat) (s : Loc) (h : s.dead = true) :
    stash buf nrd s = ⟨s.ws, s.mem, s.sent, none⟩ := by
  rw [stash, if_pos (Or.inl h)]

theorem stash_bounded (buf : Int) (nrd bsz : Nat) (s : Loc) (hnrd : nrd ≤ bsz)
    (hat : s.dead = false → ∃ l, At buf nrd s l ∧
      (s.ws.togo ≠ 0 → l = [] ∧ known s.ws.frml.raw = true))
    (h14 : s.dead = false → nrd ≤ s.pp + 14) (hrp : s.dead = false → s.rp < bsz) :
    ((stash buf nrd s).ret ≠ none → Good (stash buf nrd s).ws) ∧
      Mem.Within buf (buf + bsz) s.mem (stash buf nrd s).mem ∧
      ∀ k, (stash buf nrd s).ret = some k → 0 ≤ k ∧ k ≤ bsz := by
  by_cases hd : s.dead = true
  · rw [stash_dead buf nrd s hd]
    exact ⟨fun h => absurd rfl h, Mem.Within.refl _, fun k hk => by simp at hk⟩
  · have ha : s.dead = false := by simpa using hd
    obtain ⟨l, hatl, hfull⟩ := hat ha
    have hlen := hatl.length
    have h14' := h14 ha
    have hrp' := hrp ha
    have hst := hatl.state_le
    have hs := stash_spec buf nrd s l hatl (by omega)
    refine ⟨fun _ => hs.good hst (by omega) hfull, hs.mem bsz hnrd hrp', fun k hk => ?_⟩
    rw [hs.ret, Option.some.injEq] at hk
    omega

theorem start_within (m : Mem Byte) (buf : Int) (bsz : Nat) (kept got : List Byte)
    (h : kept.length + got.length ≤ bsz) :
    Mem.Within buf (buf + bsz) m ((m.store buf kept).store (buf + kept.length) got) :=
  (Mem.Within.store _ _ (by omega)).trans (Mem.Within.store _ _ (by omega))

theorem Bounded.of_fits {ws : ws_s} {m : Mem Byte} {buf : Int} {bsz : Nat} {rd : List Byte}
    {r : Received} (hno : ¬ Overrun ws bsz rd) (hgood : r.ret ≠ none → Good r.ws)
    (hmem : Mem.Within buf (buf + bsz) m r.mem)
    (hret : ∀ k, r.ret = some k → -1 ≤ k ∧ k ≤ bsz) : Bounded ws m buf bsz rd r :=
  ⟨hgood, hmem.mono (le_refl _) (by omega), fun k hk => by have := hret k hk; omega,
    fun _ => ⟨hmem, fun k hk => (hret k hk).2⟩, fun h => absurd h hno⟩

theorem overrun_bounded (ws : ws_s) (m : Mem Byte) (buf : Int) (bsz : Nat) (rd l : List Byte)
    (s : Loc) (hover : Overrun ws bsz rd) (hg : Good ws) (hws : s.ws = ws) (hrp : s.rp = 0)
    (hpp : s.pp = 0) (hat : At buf bsz s l) (hmem : Mem.Within buf (buf + bsz) m s.mem) :
    Bounded ws m buf bsz rd (stash buf bsz (more buf bsz bsz (deliver buf bsz s))) := by
  obtain ⟨htogo, hsize, hlong, hpong⟩ := hover
  have hk := (hg.full htogo).2
  have hlen := hat.length
  rw [← hws] at hk
  have hd := deliver_spec buf bsz s _ l hat (holds_raw s.ws.frml) hk
  have hl := deliver_looped buf bsz s l hat
  have hmin : min (toSize s.ws.togo) l.length = bsz := by
    rw [hws]
    omega
  rw [hmin] at hd
  have hshows : shows s.ws.frml.raw = true := by
    rw [hws]
    simp only [shows, decide_eq_true_eq]
    exact hpong
  have hrp' := hd.rp (by omega)
  have hpp' := hd.pp
  rw [hshows, hrp, if_pos rfl] at hrp'
  rw [more_stop _ _ _ _ (Or.inr (by omega))]
  have hdrop : l.drop bsz = [] := List.drop_eq_nil_of_le (by omega)
  have hst := hd.at_.state_le
  have hs := stash_spec buf bsz _ _ hd.at_ (by rw [hdrop]; simp)
  refine ⟨fun _ => hs.good hst (by rw [hdrop]; simp) fun _ => ⟨hdrop, ?_⟩, ?_, fun k hret => ?_,
    fun hno => absurd ⟨htogo, hsize, hlong, hpong⟩ hno, fun _ => ?_⟩
  · rw [hd.frml]
    exact hk
  · have hend := hs.mem (bsz + 1) (by omega) (by omega)
    have hmid := (hmem.trans hd.mem).mono (le_refl buf) (show buf + bsz ≤ buf + bsz + 1 by omega)
    exact hmid.trans (hend.mono (le_refl _) (by omega))
  · rw [hs.ret, Option.some.injEq] at hret
    omega
  · have := hs.wrote
    rwa [hrp', Nat.zero_add] at this

theorem looped_bounded (ws : ws_s) (m : Mem Byte) (buf : Int) (nrd bsz : Nat) (rd : List Byte)
    (s s' : Loc) (hno : ¬ Overrun ws bsz rd) (hmem : Mem.Within buf (buf + bsz) m s.mem)
    (hnrd : nrd ≤ bsz) (hl : Looped buf nrd s s') (hstop : s'.dead = false → nrd ≤ s'.pp + 14)
    (hrp : s'.dead = false → s'.rp < bsz) : Bounded ws m buf bsz rd (stash buf nrd s') := by
  obtain ⟨hgood, hend, hret⟩ := stash_bounded buf nrd bsz s' hnrd hl.at_ hstop hrp
  refine Bounded.of_fits hno hgood ?_ fun k hk => ?_
  · exact (hmem.trans (hl.mem.mono (le_refl _) (by omega))).trans hend
  · have := hret k hk
    omega

theorem header_bounded (ws : ws_s) (m : Mem Byte) (buf : Int) (nrd bsz : Nat) (rd l : List Byte)
    (s : Loc) (hno : ¬ Overrun ws bsz rd) (hat : At buf nrd s l) (h14 : 14 ≤ l.length)
    (hmem : Mem.Within buf (buf + bsz) m s.mem) (hnrd : nrd ≤ bsz) :
    Bounded ws m buf bsz rd (stash buf nrd (more buf nrd nrd (deliver buf nrd (unpack buf s)))) := by
  obtain ⟨hturn, hadv⟩ := turn_looped buf nrd s l hat h14
  obtain ⟨hl, hstop, hgap⟩ := more_looped buf nrd nrd s _ (fun _ => by omega) hturn
  generalize deliver buf nrd (unpack buf s) = s1 at *
  refine looped_bounded ws m buf nrd bsz rd s _ hno hmem hnrd hl hstop fun ha => ?_
  obtain ⟨l', hat', -⟩ := hl.at_ ha
  have hpp := hat'.pp_le
  rcases hgap with he | hlt
  · rw [he] at ha hpp ⊢
    have := (hadv ha).2
    omega
  · have := hlt ha
    omega

theorem payload_bounded (ws : ws_s) (m : Mem Byte) (buf : Int) (nrd bsz : Nat) (rd l : List Byte)
    (s : Loc) (hg : Good ws) (htogo : ws.togo ≠ 0) (hws : s.ws = ws) (hrp : s.rp = 0)
    (hpp : s.pp = 0) (hat : At buf nrd s l) (hmem : Mem.Within buf (buf + bsz) m s.mem)
    (hnrd : nrd = min bsz rd.length) (hbsz : 0 < bsz) :
    Bounded ws m buf bsz rd (stash buf nrd (more buf nrd nrd (deliver buf nrd s))) := by
  have hlen := hat.length
  by_cases hover : Overrun ws bsz rd
  · have hfull : nrd = bsz := by
      have := hover.2.2.1
      omega
    rw [hfull] at hat ⊢
    exact overrun_bounded ws m buf bsz rd l s hover hg hws hrp hpp hat hmem
  · have hturn := deliver_looped buf nrd s l hat
    obtain ⟨hl, hstop, hgap⟩ := more_looped buf nrd nrd s _ (fun _ => by omega) hturn
    refine looped_bounded ws m buf nrd bsz rd s _ hover hmem (by omega) hl hstop fun ha => ?_
    rcases hgap with he | hlt
    · -- one payload and nothing behind it
      have hk := (hg.full htogo).2
      rw [← hws] at hk
      have hd := deliver_spec buf nrd s _ l hat (holds_raw s.ws.frml) hk
      have hrp' := hd.rp (Nat.min_le_right _ _)
      rw [he, hrp', hrp, hws]
      by_cases hcode : ws.frml.code = 10
      · have hshows : shows ws.frml.raw = false := by
          simp only [shows, decide_eq_false_iff_not, not_not]
          exact hcode
        rw [hshows]
        simpa using hbsz
      · by_contra hbig
        have hk : bsz ≤ min (toSize ws.togo) l.length := by
          split at hbig <;> omega
        exact hover ⟨htogo, by omega, by omega, hcode⟩
    · obtain ⟨l', hat', -⟩ := hl.at_ ha
      have := hat'.pp_le
      have := hlt ha
      omega

theorem ws_recv_bounded (ws : ws_s) (m : Mem Byte) (buf : Int) (bsz : Nat) (rd : List Byte)
    (hg : Good ws) (hbsz : 14 ≤ bsz) : Bounded ws m buf bsz rd (ws_recv ws m buf bsz rd) := by
  have hraw : (ws.frml.raw.take ws.done).length = ws.done := by
    rw [List.length_take, ws.frml.size]
    exact Nat.min_eq_left hg.done_le
  have hdone := hg.done_le
  have hstart := start_within m buf bsz (ws.frml.raw.take ws.done) (rd.take (bsz - ws.done)) (by
    rw [hraw, List.length_take]
    omega)
  have hat := at_start ws m buf (rd.take (bsz - ws.done)) _ rfl hraw.symm hg.state_le
  have hnrd : (rd.take (bsz - ws.done)).length + ws.done ≤ bsz := by
    rw [List.length_take]
    omega
  rw [hraw] at hstart
  simp only [ws_recv]
  have hgot : (rd.take (bsz - ws.done)).length = min (bsz - ws.done) rd.length := List.length_take
  generalize rd.take (bsz - ws.done) = got at *
  by_cases hnil : got = []
  · -- nothing came
    rw [if_pos hnil]
    have hno : ¬ Overrun ws bsz rd := fun h => by
      have h0 := (hg.full h.1).1
      have h2 := h.2.2.1
      rw [hnil, List.length_nil] at hgot
      omega
    exact Bounded.of_fits hno (fun _ => hg) hstart fun k hk => by
      rw [Option.some.injEq] at hk
      omega
  · rw [if_neg hnil]
    generalize hs : Loc.mk ws _ 0 0 [] false = s at hat ⊢
    have hws : s.ws = ws := by rw [← hs]
    have hrp : s.rp = 0 := by rw [← hs]
    have hpp : s.pp = 0 := by rw [← hs]
    have hmem : s.mem = (m.store buf (ws.frml.raw.take ws.done)).store (buf + ws.done) got := by
      rw [← hs]
    rw [← hmem] at hstart
    have hlen := hat.length
    rw [hpp, Nat.sub_zero] at hlen
    by_cases htogo : ws.togo = 0
    · have hno : ¬ Overrun ws bsz rd := fun h => h.1 htogo
      by_cases hshort : got.length + ws.done < 14
      · -- not even a header
        rw [if_pos ⟨hshort, htogo⟩]
        have hl : Looped buf (got.length + ws.done) s s :=
          ⟨Mem.Within.refl _, fun _ => ⟨_, hat, fun hne => absurd (by rw [hws, htogo]) hne⟩,
            fun _ => le_refl _, fun _ h => h⟩
        exact looped_bounded ws m buf _ bsz rd s s hno hstart hnrd hl (fun _ => by omega)
          (fun _ => by omega)
      · rw [if_neg (by simp [hshort]), if_neg (by simpa using htogo)]
        exact header_bounded ws m buf _ bsz rd _ s hno hat (by omega) hstart hnrd
    · rw [if_neg (by simp [htogo]), if_pos htogo]
      have hdone0 := (hg.full htogo).1
      exact payload_bounded ws m buf _ bsz rd _ s hg htogo hws hrp hpp hat hstart (by omega)
        (by omega)

/-! ## Any number of calls -/

theorem session_good (calls : List Call) (ws : ws_s) (hg : Good ws)
    (hbsz : ∀ c ∈ calls, 14 ≤ c.bsz) (hret : ∀ t ∈ (feed call ws calls).2, t.ret ≠ none) :
    Good (feed call ws calls).1 := by
  induction calls generalizing ws with
  | nil => exact hg
  | cons c cs ih =>
    have hb := ws_recv_bounded ws c.mem c.buf c.bsz c.rd hg (hbsz c List.mem_cons_self)
    have hfirst := hret _ (List.mem_append_left _ List.mem_cons_self)
    exact ih _ (hb.good hfirst) (fun d hd => hbsz d (List.mem_cons_of_mem _ hd))
      fun t ht => hret t (List.mem_append_right _ ht)

theorem ws_recv_contained (ws : ws_s) (m : Mem Byte) (buf : Int) (bsz : Nat) (rd : List Byte)
    (hg : Good ws) (hbsz : 14 ≤ bsz) (hlog : m.log = []) :
    Contained buf bsz (ws_recv ws m buf bsz rd).mem ((ws_recv ws m buf bsz rd).ret.getD 0) ↔
      ¬ Overrun ws bsz rd := by
  have hb := ws_recv_bounded ws m buf bsz rd hg hbsz
  constructor
  · intro h hover
    exact h.1 (buf + bsz) (le_refl _) (hb.overrun hover)
  · intro hno
    obtain ⟨hmem, hret⟩ := hb.fits hno
    refine ⟨fun i hi hw => ?_, ?_⟩
    · rcases hmem.wrote i hw with h | h
      · exact Mem.not_wrote_of_log_nil m hlog i h
      · omega
    · cases hr : (ws_recv ws m buf bsz rd).ret with
      | none => simp
      | some k => exact hret k hr

end Coins.Ws
