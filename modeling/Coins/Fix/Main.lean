import Coins.Fix.Session
import Coins.Lib.History

/-!
# The main loop of the FIX clients

`main` connects, runs the event loop until somebody leaves it, sleeps, and connects again when the
state says so. Several callbacks may run in one iteration of the event loop, in any order.
-/

open Coins.History Coins.Transducer

namespace Coins.Fix

inductive Callback
  | beef (r : Option Read)
  | sigint

/-- Says good-bye, whatever the state. -/
def sigint_cb (s : Sess) : Sess × List Out := ({ s with st := .UNK }, [.sent ⟨chr '5', []⟩, .unloop])

def callback (c : Client) (s : Sess) : Callback → Sess × List Out
  | .beef r => beef_cb c s r
  | .sigint => sigint_cb s

def Out.isUnloop : Out → Bool
  | .unloop => true
  | _ => false

/-! ## The loop -/

inductive Phase
  | connect | loop | over
deriving DecidableEq

/-- `signalled` says whether a signal was handled since `main` connected. -/
structure Main where
  sess : Sess
  phase : Phase
  signalled : Bool

def Main.init : Main := ⟨⟨.UNK, 0⟩, .connect, false⟩

/-- What comes next: the outcome of `open_tls`, or the callbacks of an iteration. -/
inductive Step
  | opened (ok : Bool)
  | iteration (cbs : List Callback)

inductive Deed
  | hello
  | out (o : Out)
  | close
  | sleep (susp : Nat)

def isSigint : Callback → Bool
  | .sigint => true
  | .beef _ => false

def main (c : Client) (m : Main) : Step → Main × List Deed
  | .opened ok =>
    if m.phase ≠ .connect then (m, [])
    else if ok then ({ m with phase := .loop, signalled := false }, [.hello])
    else ({ m with phase := .over }, [])
  | .iteration cbs =>
    if m.phase ≠ .loop then (m, [])
    else
      let r := feed (callback c) m.sess cbs
      let m := { m with sess := r.1, signalled := m.signalled || cbs.any isSigint }
      let out := r.2.map Deed.out
      if r.2.any Out.isUnloop then
        ({ m with phase := if m.sess.st ≠ .UNK then .connect else .over },
          out ++ [.close, .sleep m.sess.susp])
      else (m, out)

/-! ## What an iteration leaves -/

/-- The callbacks that leave the event loop. -/
def ends : Callback → Bool
  | .beef none | .sigint => true
  | .beef (some _) => false

/-- A logon or a logout was read, and no callback that leaves the loop came after it. -/
def Renewed (cbs : List Callback) : Prop :=
  ∃ r, .beef (some r) ∈ since (fun x => ends x = true) cbs ∧ (control r).isSome = true

theorem react_stays (c : Client) (s : Sess) (m : Coins.Memory.Mem Byte) (p : Parsed) :
    (react c s m p).2.any Out.isUnloop = false := by
  unfold react
  split
  · split <;> rfl
  · split
    · have hmap : (c.requests.map Out.sent).any Out.isUnloop = false := by
        rw [List.any_map, List.any_eq_false]
        exact fun _ _ => Bool.false_ne_true
      rw [List.any_append, hmap]
      split <;> rfl
    · split
      · simp only
        split <;> rfl
      · split
        · rfl
        · split <;> rfl

theorem callback_ends (c : Client) (s : Sess) (x : Callback) :
    (callback c s x).2.any Out.isUnloop = ends x := by
  cases x with
  | sigint => rfl
  | beef r =>
    cases r with
    | none => rfl
    | some r => exact react_stays c s _ _

theorem callbacks_end (c : Client) (s : Sess) (cbs : List Callback) :
    (feed (callback c) s cbs).2.any Out.isUnloop = cbs.any ends := by
  induction cbs generalizing s with
  | nil => rfl
  | cons x cbs ih => rw [feed_cons, List.any_append, callback_ends, ih, List.any_cons]

theorem renewed_concat (cbs : List Callback) (x : Callback) : Renewed (cbs ++ [x]) ↔
    ends x = false ∧ (Renewed cbs ∨ ∃ r, x = .beef (some r) ∧ (control r).isSome = true) := by
  unfold Renewed
  rw [since_concat]
  cases hx : ends x with
  | true => simp
  | false =>
    simp only [Bool.false_eq_true, if_false, List.mem_append, List.mem_singleton, true_and]
    constructor
    · rintro ⟨r, hr | hr, hctl⟩
      · exact Or.inl ⟨r, hr, hctl⟩
      · exact Or.inr ⟨r, hr.symm, hctl⟩
    · rintro (⟨r, hr, hctl⟩ | ⟨r, hr, hctl⟩)
      · exact ⟨r, Or.inl hr, hctl⟩
      · exact ⟨r, Or.inr hr.symm, hctl⟩

theorem callbacks_st (c : Client) (hc : c.after ≠ .UNK) (s : Sess) (cbs : List Callback) :
    (feed (callback c) s cbs).1.st ≠ .UNK ↔
      Renewed cbs ∨ cbs.any ends = false ∧ s.st ≠ .UNK := by
  induction cbs using List.reverseRecOn with
  | nil => simp [Renewed]
  | append_singleton cbs x ih =>
    rw [feed_concat, renewed_concat, List.any_append, List.any_cons, List.any_nil, Bool.or_false]
    generalize (feed (callback c) s cbs).1 = u at ih ⊢
    cases x with
    | sigint => simp [callback, sigint_cb, ends]
    | beef r =>
      cases r with
      | none => simp [callback, beef_cb, ends]
      | some r =>
        have hst := congrArg Prod.fst (beef_cb_control c u r)
        simp only at hst
        simp only [callback, ends, Bool.or_false, true_and, hst, Callback.beef.injEq, Option.some.injEq,
          exists_eq_left']
        cases hr : control r with
        | none => simpa using ih
        | some e =>
          simp only [Option.map_some, Option.getD_some, Option.isSome_some, or_true, true_or, iff_true]
          cases e with
          | logon => exact hc
          | logout weekend => exact fun h => by cases h

theorem client_after (p : Program) : p.client.after ≠ .UNK := by
  cases p with
  | okfix instr =>
    unfold Program.client okfix.client
    simp only
    split <;> simp
  | derifix instr =>
    unfold Program.client derifix.client
    simp only
    split <;> simp
  | btcc logfile => simp [Program.client, btcc.client]

/-! ## Runs -/

theorem unsignalled (c : Client) (steps : List Step) :
    let m := (feed (main c) .init steps).1
    m.phase = .loop → m.signalled = false := by
  induction steps using List.reverseRecOn with
  | nil => exact fun h => by cases h
  | append_singleton steps x ih =>
    rw [feed_concat]
    generalize (feed (main c) .init steps).1 = m at ih ⊢
    cases x with
    | opened ok =>
      unfold main
      simp only
      split
      · exact ih
      · split
        · exact fun _ => rfl
        · exact fun h => by cases h
    | iteration cbs =>
      unfold main
      simp only [callbacks_end]
      split
      · exact ih
      · rename_i hloop
        split
        · split <;> exact fun h => by cases h
        · rename_i hends
          intro _
          have hsig : cbs.any isSigint = false := by
            rw [List.any_eq_false]
            rintro x hx hsig
            refine hends (List.any_eq_true.mpr ⟨x, hx, ?_⟩)
            cases x with
            | sigint => rfl
            | beef r => cases hsig
          rw [ih (by simpa using hloop), hsig]
          rfl

/-- When the event loop is left, the client closes the connection, sleeps, and connects again if and
only if no signal was handled: that is so just when the last logon or logout of the iteration came
behind all signals and resets, and there was no signal, or there was a signal, and it did not. -/
theorem reconnects_when (p : Program) (steps : List Step) (cbs : List Callback)
    (hloop : (feed (main p.client) .init steps).1.phase = .loop) (hends : cbs.any ends = true) :
    let r := main p.client (feed (main p.client) .init steps).1 (.iteration cbs)
    ((r.1.phase = .connect ↔ r.1.signalled = false) ∧
      ∃ out, r.2 = out ++ [.close, .sleep r.1.sess.susp]) ↔
    (Renewed cbs ↔ .sigint ∉ cbs) := by
  have hsig := unsignalled p.client steps hloop
  generalize (feed (main p.client) .init steps).1 = m at hloop hsig ⊢
  have hst := callbacks_st p.client (client_after p) m.sess cbs
  have hany : cbs.any isSigint = false ↔ .sigint ∉ cbs := by
    rw [List.any_eq_false]
    constructor
    · exact fun h hin => h _ hin rfl
    · rintro h x hx
      cases x with
      | sigint => exact absurd hx h
      | beef r => exact Bool.false_ne_true
  unfold main
  simp only [hloop, hsig, callbacks_end, hends, ne_eq, not_true_eq_false, if_false, if_true,
    Bool.false_or, hany]
  simp only [hends, Bool.true_eq_false, false_and, or_false] at hst
  have hphase : (if (feed (callback p.client) m.sess cbs).1.st ≠ .UNK then Phase.connect else .over) =
      .connect ↔ Renewed cbs := by
    rw [← hst]
    split
    · rename_i h
      exact iff_of_true rfl h
    · rename_i h
      exact iff_of_false (by simp) h
  rw [hphase]
  exact and_iff_left ⟨_, rfl⟩

/-- An interrupt ends the client. -/
theorem reconnects_when_interrupted :
    let r := main (Program.okfix []).client
      (feed (main (Program.okfix []).client) .init [.opened true]).1 (.iteration [.sigint])
    ((r.1.phase = .connect ↔ r.1.signalled = false) ∧
      ∃ out, r.2 = out ++ [.close, .sleep r.1.sess.susp]) ↔
    (Renewed [.sigint] ↔ .sigint ∉ [Callback.sigint]) :=
  reconnects_when (.okfix []) [.opened true] [.sigint] rfl rfl

/-- A reset does as well, though nobody interrupted it. -/
theorem reset_ends :
    let r := main (Program.okfix []).client
      (feed (main (Program.okfix []).client) .init [.opened true]).1 (.iteration [.beef none])
    ¬ (r.1.phase = .connect ↔ r.1.signalled = false) := by
  decide

end Coins.Fix
