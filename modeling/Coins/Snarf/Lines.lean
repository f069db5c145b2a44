import Coins.Snarf.Slot
import Coins.Ws.Bounds
import Mathlib.Data.List.Forall2

/-!
# Every line is logged once

However the lines of a feed are spread over the calls of `ws_cb`, the log has all of those that are
complete, and the session buffer has the unfinished one.
-/

open Coins.Memory Coins.Lines Coins.Numeral Coins.Transducer Coins.Ws

namespace Coins.Snarf

open coin_st_t

/-- What `ws_recv` appends to the session buffer. -/
def appended (s : Slot) (e : Input) : List Byte :=
  match s.ws with
  | none => []
  | some ws =>
    let m := grow 4000 s.mem s.n
    (ws_recv ws m s.n (m.size - s.n) e.rd).text s.n

def logged : List Out → List (List Byte) :=
  List.filterMap fun
    | .logged l => some l
    | .sent _ => none

theorem logged_append (a b : List Out) : logged (a ++ b) = logged a ++ logged b :=
  List.filterMap_append

theorem logged_map (l : List (List Byte)) : logged (l.map Out.logged) = l := by
  induction l with
  | nil => rfl
  | cons a as ih => exact congrArg (a :: ·) ih

theorem logged_sent (l : List (List Byte)) : logged (l.map Out.sent) = [] := by
  induction l with
  | nil => rfl
  | cons a as ih => exact ih

/-- A call in a logging state that receives something, with room for a stamp left behind it. -/
structure Logging (s : Slot) (e : Input) : Prop where
  st : s.st = COIN_ST_CONND ∨ s.st = COIN_ST_AUTHD ∨ s.st = COIN_ST_JOIND
  got : ∀ ws, s.ws = some ws → ∃ k : Nat,
    (ws_recv ws (grow 4000 s.mem s.n) s.n ((grow 4000 s.mem s.n).size - s.n) e.rd).ret = some (k : Int) ∧
      s.n + k + INI_GBOF ≤ (grow 4000 s.mem s.n).size
  ten : e.tsp.Ten

/-- The session buffer holds the unfinished line `l`. -/
structure Holds (s : Slot) (l : List Byte) : Prop where
  ws : ∃ ws, s.ws = some ws ∧ Good ws
  inflate : s.inflate = false
  sized : Sized s.mem s.n
  fill : s.n = INI_GBOF + l.length
  view : s.mem.view INI_GBOF l.length = l

theorem shift_spec (t : Clock) (m : Mem Byte) (l : List Byte) (xn : Nat) (ht : t.Ten)
    (hxn : xn = INI_GBOF + l.length) (hview : m.view INI_GBOF l.length = l) :
    let r := log_and_shift massage t m xn
    r.1.view INI_GBOF (rest nl l).length = rest nl l ∧ r.2.1 = INI_GBOF + (rest nl l).length ∧
      r.2.2 = ((lines nl l).map (record t)).map Out.logged ∧ r.1.size = m.size := by
  have hlen : xn - INI_GBOF = l.length := by omega
  obtain ⟨hrecs, hend, hcell⟩ := logwss_spec t m INI_GBOF l.length ht
  have hsize : (logwss massage t m INI_GBOF l.length).1.size = m.size :=
    (logwss_within weak t m INI_GBOF l.length (logwss_weak ..)).1.size
  rw [hview] at hrecs hend
  unfold log_and_shift
  simp only [hlen]
  generalize logwss massage t m INI_GBOF l.length = r at hrecs hend hcell hsize
  obtain ⟨m1, npr, recs⟩ := r
  simp only at hrecs hend hcell hsize ⊢
  -- the unfinished line, where it is and where it goes
  have hrest : m1.view ((INI_GBOF : Nat) + (npr : Nat) : Int) (rest nl l).length = rest nl l := by
    rw [Mem.view_congr m m1 _ _ fun i hi _ => hcell i hi]
    have h := congrArg (List.drop npr) hview
    rw [Mem.view_drop, drop_rest l npr hend, show l.length - npr = (rest nl l).length by omega] at h
    exact h
  have hmove := Mem.view_move m1 INI_GBOF (INI_GBOF + npr) (xn - npr)
  have hfit : (rest nl l).length ≤ xn - npr := by omega
  refine ⟨?_, by omega, by rw [hrecs], hsize⟩
  have h := congrArg (List.take (rest nl l).length) hmove
  rw [Mem.view_take, Mem.view_take, Nat.min_eq_left hfit, hrest] at h
  exact h

theorem ws_cb_logging (s : Slot) (e : Input) (ws : ws_s) (k : Nat) (hws : s.ws = some ws)
    (hin : s.inflate = false) (hst : s.st = COIN_ST_CONND ∨ s.st = COIN_ST_AUTHD ∨ s.st = COIN_ST_JOIND)
    (hret : (ws_recv ws (grow 4000 s.mem s.n) s.n ((grow 4000 s.mem s.n).size - s.n) e.rd).ret =
      some (k : Int)) :
    let r := ws_recv ws (grow 4000 s.mem s.n) s.n ((grow 4000 s.mem s.n).size - s.n) e.rd
    let q := log_and_shift massage e.tsp r.mem (s.n + k)
    ws_cb massage s e = ({ s with ws := some r.ws, mem := q.1, n := q.2.1 },
      r.sent.map Out.sent ++ q.2.2) := by
  have hk : ¬ ((k : Int) < 0) := by omega
  unfold ws_cb io_cb
  simp only [hws, hret, hk, if_false, Int.toNat_natCast, hin]
  rcases hst with hst | hst | hst <;> simp [hst, log_him]

theorem ws_cb_line (s : Slot) (e : Input) (l : List Byte) (hs : Holds s l) (hl : Logging s e) :
    let a := l ++ appended s e
    Holds (ws_cb massage s e).1 (rest nl a) ∧
      logged (ws_cb massage s e).2 = (lines nl a).map (record e.tsp) := by
  intro a
  obtain ⟨ws, hws, hgood⟩ := hs.ws
  obtain ⟨k, hret, hroom⟩ := hl.got ws hws
  obtain ⟨hfree, hbig⟩ := grow_size 4000 s.mem s.n hs.sized (by omega) (by omega)
  have happ : appended s e = (ws_recv ws (grow 4000 s.mem s.n) s.n
      ((grow 4000 s.mem s.n).size - s.n) e.rd).text s.n := by
    unfold appended
    rw [hws]
  have hb := ws_recv_bounded ws (grow 4000 s.mem s.n) s.n ((grow 4000 s.mem s.n).size - s.n) e.rd
    hgood (by omega)
  have hcb := ws_cb_logging s e ws k hws hs.inflate hl.st hret
  generalize hr : ws_recv ws (grow 4000 s.mem s.n) s.n ((grow 4000 s.mem s.n).size - s.n) e.rd = r
    at hret hb hcb happ
  have hgrown := grow_cell 4000 s.mem s.n
  generalize grow 4000 s.mem s.n = m at hret hroom hfree hbig hb hcb happ hgrown
  unfold Received.text at happ
  rw [hret] at happ
  simp only [Int.toNat_natCast] at happ
  have hfill := hs.fill
  have hlen : a.length = l.length + k := by
    unfold a
    rw [happ, List.length_append, Mem.view_length]
  -- the unfinished line is still there, with the new bytes behind it
  have hview : r.mem.view INI_GBOF a.length = a := by
    rw [hlen, Mem.view_append, hb.mem.view _ _ (Or.inl (by rw [hfill]; push_cast; omega)),
      Mem.view_congr s.mem m _ _ fun i _ _ => by rw [hgrown]]
    rw [hs.view]
    unfold a
    rw [happ, hfill]
    push_cast
    rfl
  obtain ⟨hrest, hn, hout, hsize⟩ := shift_spec e.tsp r.mem a (s.n + k) hl.ten (by omega) hview
  rw [hcb]
  refine ⟨⟨⟨r.ws, rfl, hb.good (by rw [hret]; simp)⟩, hs.inflate, ?_, hn, hrest⟩, ?_⟩
  · have hle : (rest nl a).length ≤ a.length := rest_length_le a
    refine Or.inr ⟨?_, ?_⟩
    · simp only
      rw [hsize, hb.mem.size]
      exact hbig
    · simp only
      rw [hsize, hb.mem.size, hn]
      omega
  · rw [logged_append, logged_sent, hout, logged_map, List.nil_append]

/-- All that `ws_recv` appends in a run. -/
def heard (s : Slot) : List Input → List Byte
  | [] => []
  | e :: es => appended s e ++ heard (ws_cb massage s e).1 es

theorem ws_cb_run (s : Slot) (es : List Input) (l : List Byte) (hs : Holds s l) (hl : nl ∉ l)
    (hes : Each (ws_cb massage) Logging s es) :
    let a := l ++ heard s es
    Holds (feed (ws_cb massage) s es).1 (rest nl a) ∧
      List.Forall₂ (fun line out => ∃ e ∈ es, out = record e.tsp line) (lines nl a)
        (logged (feed (ws_cb massage) s es).2) := by
  induction es generalizing s l with
  | nil =>
    intro a
    have ha : a = l := List.append_nil l
    rw [ha, lines_of_not_mem l hl, rest_of_not_mem l hl]
    exact ⟨hs, List.Forall₂.nil⟩
  | cons e es ih =>
    intro a
    obtain ⟨hhead, hout⟩ := ws_cb_line s e l hs hes.1
    obtain ⟨htail, houts⟩ := ih (ws_cb massage s e).1 (rest nl (l ++ appended s e)) hhead
      (not_mem_rest _) hes.2
    have ha : a = l ++ appended s e ++ heard (ws_cb massage s e).1 es :=
      (List.append_assoc _ _ _).symm
    rw [ha, lines_append, rest_append, feed_cons]
    refine ⟨htail, ?_⟩
    rw [logged_append, hout]
    refine List.rel_append ?_ (houts.imp fun line out h => ?_)
    · rw [List.forall₂_map_right_iff, List.forall₂_same]
      exact fun line _ => ⟨e, List.mem_cons_self, rfl⟩
    · obtain ⟨f, hf, h⟩ := h
      exact ⟨f, List.mem_cons_of_mem _ hf, h⟩

structure Empty (s : Slot) : Prop where
  ws : ∃ ws, s.ws = some ws ∧ Good ws
  inflate : s.inflate = false
  n : s.n = INI_GBOF
  size : s.mem.size = 0 ∨ 4096 ≤ s.mem.size

theorem ws_cb_lines (s : Slot) (es : List Input) (hs : Empty s)
    (hes : Each (ws_cb massage) Logging s es) :
    let s' := (feed (ws_cb massage) s es).1
    let left := rest nl (heard s es)
    List.Forall₂ (fun line out => ∃ e ∈ es, out = record e.tsp line) (lines nl (heard s es))
        (logged (feed (ws_cb massage) s es).2) ∧
      s'.n = INI_GBOF + left.length ∧ s'.mem.view INI_GBOF left.length = left := by
  have hsized : Sized s.mem s.n := by
    have hn := hs.n
    have hsize := hs.size
    unfold Sized INI_GBOF at *
    omega
  have hholds : Holds s [] := ⟨hs.ws, hs.inflate, hsized, hs.n, rfl⟩
  obtain ⟨h, hout⟩ := ws_cb_run s es [] hholds (by simp) hes
  exact ⟨hout, h.fill, h.view⟩

def connected : Slot where
  ws := some (ws_s.init .WS_PROTO_RAW)
  inflate := false
  st := COIN_ST_CONND
  mem := ⟨fun _ => 0, 0, []⟩
  n := INI_GBOF
  ended := false

def noon : Clock := ⟨1451649600, 0, by decide, by decide⟩

theorem noon_ten : noon.Ten := by
  unfold Clock.Ten
  decide

def receives (rd : List Byte) : Input := ⟨rd, noon, noon, 1, none⟩

/-- A line in two frames, and another one behind it. -/
theorem ws_cb_lines_hello :
    List.Forall₂ (fun line out => ∃ e ∈ [receives ([0x01, 12] ++ ascii "Hello, world"),
        receives ([0x81, 13] ++ ascii " of feeds\nabc")], out = record e.tsp line)
      [ascii "Hello, world of feeds", ascii "abc"]
      (logged (feed (ws_cb massage) connected
        [receives ([0x01, 12] ++ ascii "Hello, world"),
          receives ([0x81, 13] ++ ascii " of feeds\nabc")]).2) := by
  have h := ws_cb_lines connected [receives ([0x01, 12] ++ ascii "Hello, world"),
    receives ([0x81, 13] ++ ascii " of feeds\nabc")] ⟨⟨_, rfl, good_init _⟩, rfl, rfl, Or.inl rfl⟩
    ⟨⟨Or.inl rfl, ?_, noon_ten⟩, ⟨Or.inl rfl, ?_, noon_ten⟩, trivial⟩
  · have hlines : lines nl (heard connected [receives ([0x01, 12] ++ ascii "Hello, world"),
        receives ([0x81, 13] ++ ascii " of feeds\nabc")]) =
        [ascii "Hello, world of feeds", ascii "abc"] := by
      decide +kernel
    rw [← hlines]
    exact h.1
  · intro ws hws
    obtain rfl := Option.some.inj hws
    exact ⟨12, by decide +kernel, by decide +kernel⟩
  · intro ws hws
    obtain rfl := Option.some.inj hws
    exact ⟨14, by decide +kernel, by decide +kernel⟩

end Coins.Snarf
