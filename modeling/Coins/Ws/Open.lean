import Coins.Lib.History
import Coins.Ws.Send

/-!
# Opening and closing

All handles share one send buffer. `ws_open` counts them, `ws_close` releases the buffer with the last
one, and `ws_send` takes a larger one when a frame does not fit.
-/

open Coins.History

namespace Coins.Ws

/-! ## The code -/

/-- What `ws_open` meets: what the url says, with its port if that can be read, and whether its steps
succeed. -/
structure Opening where
  p : ws_proto_t
  host : List Byte
  port : Option Nat
  malloc : Bool
  conn : Bool
  sioi : Bool
  init : Bool

/-- What `ws_close` does to the send buffer. -/
def ws_close (g : gbuf_s) : gbuf_s :=
  if g.gbuf.isSome then
    let g := { g with gbrc := g.gbrc - 1 }
    if g.gbrc = 0 then { g with gbuf := none, gbsz := 0 } else g
  else g

/-- From `_open` on. -/
def ws_open_conn (g : gbuf_s) (o : Opening) : gbuf_s × Option ws_s :=
  if ¬ o.conn then (g, none)
  else
    let ws := ws_s.init o.p
    match o.p with
    | .WS_PROTO_REST => (g, some { ws with host := o.host }) -- don't call nothing yet
    | .WS_PROTO_SIO1 | .WS_PROTO_SIO3 =>
      if o.sioi ∧ o.init then (g, some ws) else (ws_close g, none)
    | .WS_PROTO_RAW | .WS_PROTO_WAMP => if o.init then (g, some ws) else (ws_close g, none)

def ws_open (g : gbuf_s) (o : Opening) : gbuf_s × Option ws_s :=
  match o.port with
  | none => (g, none)
  | some _ =>
    if g.gbsz < 4096 then
      if o.malloc then
        ws_open_conn { g with gbuf := some 4096, gbsz := 4096, gbrc := g.gbrc + 1 } o
      else ({ g with gbuf := none, gbsz := 4096 }, none)
    else ws_open_conn { g with gbrc := g.gbrc + 1 } o

/-! ## Runs -/

/-- The send buffer, and the handles that are open. -/
structure Shared where
  g : gbuf_s
  live : List ws_s

def Shared.init : Shared := ⟨⟨none, 0, 0⟩, []⟩

/-- What a client does, to the handle number `i` of those that are open. -/
inductive Op
  | opens (o : Opening)
  | send (i : Nat) (malloc : Nat → Bool) (buf : List Byte)
  | close (i : Nat)

def Shared.step (s : Shared) : Op → Shared
  | .opens o =>
    let r := ws_open s.g o
    ⟨r.1, s.live ++ r.2.toList⟩
  | .send i malloc buf =>
    if i < s.live.length then { s with g := (ws_send s.g malloc buf).1 } else s
  | .close i => if i < s.live.length then ⟨ws_close s.g, s.live.eraseIdx i⟩ else s

def Shared.run (ops : List Op) : Shared := ops.foldl Shared.step .init

/-! ## What the accounting is for -/

structure Accounted (s : Shared) : Prop where
  count : s.g.gbrc = s.live.length
  size : 0 < s.g.gbsz → s.g.gbuf = some s.g.gbsz ∧ 4096 ≤ s.g.gbsz
  released : s.live = [] → s.g.gbuf = none

/-- What a step must not meet: a failure of `malloc` or `_open` when a handle is opened; a close, or a
frame of fewer than 3840 bytes that gets memory, after the buffer was lost to a failed `malloc`. -/
def Spares (s : Shared) : Op → Prop
  | .opens o => o.port.isSome = true → o.conn = true ∧ (s.g.gbsz = 0 → o.malloc = true)
  | .send i malloc buf =>
    let n := (ws_send_header buf.length).2 + buf.length
    i < s.live.length → s.g.gbsz = 0 → malloc ((n ||| 0xff) + 1) = true → 3840 ≤ n
  | .close i => i < s.live.length → s.g.gbsz ≠ 0

/-! ## Any run -/

def Sized (g : gbuf_s) : Prop := ∀ z, g.gbuf = some z → g.gbsz = z ∧ 0 < z

/-- The count is never too low, so it is not 0 when a handle is closed. -/
structure Kept (s : Shared) : Prop where
  sized : Sized s.g
  count : s.live.length ≤ s.g.gbrc

theorem ws_close_kept (g : gbuf_s) (live : List ws_s) (hsized : Sized g)
    (hcount : live.length + 1 ≤ g.gbrc) : Kept ⟨ws_close g, live⟩ := by
  unfold ws_close
  split
  · simp only
    split
    · rename_i hrc
      refine ⟨(fun _ h => by cases h), ?_⟩
      simp only at hrc ⊢
      omega
    · refine ⟨hsized, ?_⟩
      simp only
      omega
  · refine ⟨hsized, ?_⟩
    simp only
    omega

theorem ws_open_conn_kept (g : gbuf_s) (live : List ws_s) (o : Opening) (hsized : Sized g)
    (hcount : live.length + 1 ≤ g.gbrc) :
    Kept ⟨(ws_open_conn g o).1, live ++ (ws_open_conn g o).2.toList⟩ := by
  have hnew : ∀ ws : ws_s, Kept ⟨g, live ++ (some ws).toList⟩ := by
    intro ws
    refine ⟨hsized, ?_⟩
    simpa using hcount
  have hfre : Kept ⟨ws_close g, live ++ (none : Option ws_s).toList⟩ := by
    simpa using ws_close_kept g live hsized hcount
  unfold ws_open_conn
  split
  · refine ⟨hsized, ?_⟩
    simp only [Option.toList_none, List.append_nil]
    omega
  · simp only
    split
    · exact hnew _
    all_goals
      split
      · exact hnew _
      · exact hfre

theorem ws_send_gbuf (g : gbuf_s) (malloc : Nat → Bool) (buf : List Byte) :
    let n := (ws_send_header buf.length).2 + buf.length
    (ws_send g malloc buf).1 =
      if g.gbsz < n then
        if malloc ((n ||| 0xff) + 1) = true then
          { g with gbuf := some ((n ||| 0xff) + 1), gbsz := (n ||| 0xff) + 1 }
        else { g with gbuf := none, gbsz := 0 }
      else g := by
  unfold ws_send gbuf_s.room
  simp only
  generalize (ws_send_header buf.length).2 + buf.length = n
  split
  · rename_i hroom
    split at hroom
    · rename_i hlt
      rw [if_pos hlt]
      split at hroom
      · cases hroom
      · rename_i hmalloc
        rw [if_neg hmalloc]
    · cases hroom
  · rename_i g' hroom
    split at hroom
    · rename_i hlt
      rw [if_pos hlt]
      split at hroom
      · rename_i hmalloc
        rw [if_pos hmalloc]
        exact (Option.some.inj hroom).symm
      · cases hroom
    · rename_i hlt
      rw [if_neg hlt]
      exact (Option.some.inj hroom).symm

theorem step_kept (s : Shared) (op : Op) (h : Kept s) : Kept (s.step op) := by
  cases op with
  | opens o =>
    unfold Shared.step ws_open
    simp only
    split
    · simpa using h
    · split
      · split
        · apply ws_open_conn_kept
          · rintro z hz
            obtain rfl := Option.some.inj hz
            exact ⟨rfl, by omega⟩
          · exact Nat.succ_le_succ h.count
        · refine ⟨(fun _ h => by cases h), ?_⟩
          simpa using h.count
      · exact ws_open_conn_kept _ _ o h.sized (Nat.succ_le_succ h.count)
  | send i malloc buf =>
    unfold Shared.step
    simp only
    split
    · rw [ws_send_gbuf]
      refine ⟨?_, ?_⟩
      · simp only
        split
        · split
          · rintro z hz
            obtain rfl := Option.some.inj hz
            exact ⟨rfl, Nat.succ_pos _⟩
          · exact fun _ h => by cases h
        · exact h.sized
      · simp only
        split
        · split <;> exact h.count
        · exact h.count
    · exact h
  | close i =>
    unfold Shared.step
    simp only
    split
    · apply ws_close_kept _ _ h.sized
      have := h.count
      rw [List.length_eraseIdx_of_lt (by assumption)]
      omega
    · exact h

theorem run_kept (ops : List Op) : Kept (Shared.run ops) := by
  have hinit : Kept Shared.init := ⟨(fun _ h => by cases h), le_refl _⟩
  exact List.foldlRecOn ops _ hinit fun s h op _ => step_kept s op h

/-! ## The steps that keep the accounts -/

theorem or_255 (n : Nat) : n ||| 0xff = 256 * (n / 256) + 255 := by
  have hn : n = 2 ^ 8 * (n / 256) ||| n % 256 := by
    rw [← Nat.two_pow_add_eq_or_of_lt (by omega)]
    omega
  have hlow : n % 256 ||| 255 = 255 := by
    have hlt : n % 256 ||| 255 < 2 ^ 8 := Nat.or_lt_two_pow (by omega) (by omega)
    have hle : 255 ≤ n % 256 ||| 255 := Nat.right_le_or
    omega
  calc n ||| 0xff = 2 ^ 8 * (n / 256) ||| n % 256 ||| 255 := by rw [← hn]
    _ = 2 ^ 8 * (n / 256) ||| 255 := by rw [Nat.or_assoc, hlow]
    _ = 256 * (n / 256) + 255 := (Nat.two_pow_add_eq_or_of_lt (by omega) _).symm

theorem Accounted.cases {s : Shared} (h : Accounted s) (hk : Kept s) :
    (s.g.gbuf = none ∧ s.g.gbsz = 0) ∨ (s.g.gbuf = some s.g.gbsz ∧ 4096 ≤ s.g.gbsz) := by
  by_cases hz : s.g.gbsz = 0
  · refine Or.inl ⟨?_, hz⟩
    cases hb : s.g.gbuf with
    | none => rfl
    | some z =>
      have := hk.sized z hb
      omega
  · exact Or.inr (h.size (Nat.pos_of_ne_zero hz))

theorem ws_close_accounted (g : gbuf_s) (live : List ws_s) (hbuf : g.gbuf = some g.gbsz)
    (hz : 4096 ≤ g.gbsz) (hrc : g.gbrc = live.length + 1) : Accounted ⟨ws_close g, live⟩ := by
  unfold ws_close
  rw [if_pos (by rw [hbuf]; rfl)]
  simp only
  split
  · rename_i h0
    refine ⟨?_, (fun h => by cases h), fun _ => rfl⟩
    simp only at h0 ⊢
    omega
  · rename_i h0
    refine ⟨?_, fun _ => ⟨hbuf, hz⟩, ?_⟩
    · simp only
      omega
    · rintro rfl
      rw [List.length_nil] at hrc
      omega

theorem ws_open_conn_accounted (g : gbuf_s) (live : List ws_s) (hbuf : g.gbuf = some g.gbsz)
    (hz : 4096 ≤ g.gbsz) (hrc : g.gbrc = live.length + 1) (o : Opening) :
    Accounted ⟨(ws_open_conn g o).1, live ++ (ws_open_conn g o).2.toList⟩ ↔ o.conn = true := by
  have hnew : ∀ ws : ws_s, Accounted ⟨g, live ++ (some ws).toList⟩ := by
    intro ws
    refine ⟨by simpa using hrc, fun _ => ⟨hbuf, hz⟩, ?_⟩
    simp
  have hfre : Accounted ⟨ws_close g, live ++ (none : Option ws_s).toList⟩ := by
    simpa using ws_close_accounted g live hbuf hz hrc
  unfold ws_open_conn
  split
  · rename_i hconn
    refine iff_of_false ?_ hconn
    rintro ⟨hcount, _, _⟩
    simp only [Option.toList_none, List.append_nil] at hcount
    omega
  · rename_i hconn
    refine iff_of_true ?_ (not_not.mp hconn)
    simp only
    split
    · exact hnew _
    all_goals
      split
      · exact hnew _
      · exact hfre

theorem opens_accounted (s : Shared) (hk : Kept s) (h : Accounted s) (o : Opening) :
    Accounted (s.step (.opens o)) ↔ Spares s (.opens o) := by
  unfold Shared.step ws_open Spares
  simp only
  cases o.port with
  | none =>
    simp only [Option.toList_none, List.append_nil]
    exact iff_of_true h fun hp => by cases hp
  | some port =>
    simp only [Option.isSome_some, true_implies]
    rcases h.cases hk with ⟨_, hz⟩ | ⟨hbuf, hz⟩
    · rw [if_pos (by omega)]
      cases hm : o.malloc with
      | true =>
        rw [if_pos rfl, ws_open_conn_accounted _ s.live rfl (le_refl _) (by rw [h.count])]
        simp
      | false =>
        rw [if_neg Bool.false_ne_true]
        refine iff_of_false ?_ ?_
        · rintro ⟨_, hsize, _⟩
          have := (hsize (Nat.succ_pos 4095)).1
          cases this
        · rintro ⟨_, hmalloc⟩
          cases hmalloc hz
    · rw [if_neg (by omega),
        ws_open_conn_accounted { s.g with gbrc := s.g.gbrc + 1 } s.live hbuf hz (by rw [h.count])]
      constructor
      · exact fun hc => ⟨hc, fun h0 => by omega⟩
      · exact fun hc => hc.1

theorem send_accounted (s : Shared) (hk : Kept s) (h : Accounted s) (i : Nat) (malloc : Nat → Bool)
    (buf : List Byte) : Accounted (s.step (.send i malloc buf)) ↔ Spares s (.send i malloc buf) := by
  unfold Shared.step Spares
  simp only
  split
  · rename_i hi
    have hne : s.live ≠ [] := by
      rintro hnil
      rw [hnil] at hi
      cases hi
    have hn : 0 < (ws_send_header buf.length).2 := by
      unfold ws_send_header
      split
      · exact Nat.succ_pos 13
      · split
        · exact Nat.succ_pos 7
        · exact Nat.succ_pos 5
    rw [ws_send_gbuf]
    generalize hlen : (ws_send_header buf.length).2 + buf.length = n
    simp only [hi, true_implies]
    split
    · split
      · rename_i hlt hmalloc
        simp only [hmalloc, true_implies]
        constructor
        · rintro ⟨_, hsize, _⟩ h0
          have := (hsize (Nat.succ_pos _)).2
          simp only [or_255] at this
          omega
        · rintro hbig
          refine ⟨h.count, fun _ => ⟨rfl, ?_⟩, fun hnil => absurd hnil hne⟩
          simp only [or_255]
          rcases h.cases hk with ⟨_, hz⟩ | ⟨_, hz⟩
          · have := hbig hz
            omega
          · omega
      · rename_i hlt hmalloc
        refine iff_of_true ⟨h.count, (fun h => by cases h), fun _ => rfl⟩ ?_
        exact fun _ hm => absurd hm hmalloc
    · rename_i hlt
      refine iff_of_true h ?_
      rintro h0 _
      omega
  · rename_i hi
    exact iff_of_true h fun hlt => absurd hlt hi

theorem close_accounted (s : Shared) (hk : Kept s) (h : Accounted s) (i : Nat) :
    Accounted (s.step (.close i)) ↔ Spares s (.close i) := by
  unfold Shared.step Spares
  simp only
  split
  · rename_i hi
    have hlen : (s.live.eraseIdx i).length + 1 = s.live.length := by
      rw [List.length_eraseIdx_of_lt hi]
      omega
    simp only [hi, true_implies]
    rcases h.cases hk with ⟨hbuf, hz⟩ | ⟨hbuf, hz⟩
    · refine iff_of_false ?_ fun hne => hne hz
      rintro ⟨hcount, _, _⟩
      have := h.count
      unfold ws_close at hcount
      simp only [hbuf, Option.isSome_none, Bool.false_eq_true, if_false] at hcount
      omega
    · refine iff_of_true ?_ (by omega)
      exact ws_close_accounted s.g _ hbuf hz (by rw [h.count, hlen])
  · rename_i hi
    exact iff_of_true h fun hlt => absurd hlt hi

theorem step_accounted (s : Shared) (hk : Kept s) (h : Accounted s) (op : Op) :
    Accounted (s.step op) ↔ Spares s op := by
  cases op with
  | opens o => exact opens_accounted s hk h o
  | send i malloc buf => exact send_accounted s hk h i malloc buf
  | close i => exact close_accounted s hk h i

/-- The accounts are right after every operation of a run just when no step meets a failure that is
not undone. -/
theorem buffer_accounted (ops : List Op) :
    (∀ pre, pre <+: ops → Accounted (Shared.run pre)) ↔
      Always (fun pre op => Spares (Shared.run pre) op) ops := by
  have hrun : ∀ pre op, Shared.run (pre ++ [op]) = (Shared.run pre).step op := fun pre op =>
    List.foldl_concat ..
  induction ops using List.reverseRecOn with
  | nil =>
    refine iff_of_true ?_ (always_nil _)
    intro pre hpre
    rw [List.prefix_nil.mp hpre]
    exact ⟨rfl, (fun h => by cases h), fun _ => rfl⟩
  | append_singleton ops op ih =>
    refine Iff.trans ?_ ((and_congr_left' ih).trans (always_concat _ _ _).symm)
    constructor
    · intro hall
      have hops := hall ops (List.prefix_append ops [op])
      have hlast := hall (ops ++ [op]) (List.prefix_refl _)
      rw [hrun, step_accounted _ (run_kept ops) hops] at hlast
      exact ⟨fun pre hpre => hall pre (hpre.trans (List.prefix_append ops [op])), hlast⟩
    · rintro ⟨hall, hop⟩ pre hpre
      rcases List.prefix_concat_iff.mp hpre with rfl | hpre
      · rw [hrun]
        exact (step_accounted _ (run_kept ops) (hall ops (List.prefix_refl _)) op).mpr hop
      · exact hall pre hpre

/-- A connection that fails is counted all the same. -/
theorem failed_connection_counted : ¬ Accounted (Shared.run
    [.opens ⟨.WS_PROTO_RAW, [], some 80, true, false, true, true⟩]) := by
  rintro ⟨hcount, _, _⟩
  revert hcount
  decide

end Coins.Ws
