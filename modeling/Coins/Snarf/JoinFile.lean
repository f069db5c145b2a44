import Coins.Lib.Lines
import Coins.Lib.Numeral
import Coins.Lib.Questions
import Coins.Ws.Handle

/-!
# The join file of `ff`

`join_coin` of `ff.c` sends the lines of a file that is mapped into memory. The search for the end of a
line has the size of the whole file, wherever the line begins.
-/

open Coins.Lines Coins.Numeral Coins.Questions Coins.Ws

namespace Coins.Snarf.Ff

/-- The bytes of the mapping by their distance from its start. -/
abbrev Prog := Query Int fun _ => Byte

def byte_at (p : Int) : Prog Byte := Query.get p

def hashmark : Byte := 35

/-- What the system calls say, with `strerror` of what went wrong, and `st.st_size`. -/
structure Sys where
  open_ : Except (List Byte) Unit
  fstat : Except (List Byte) Int
  mmap : Except (List Byte) Unit

/-- What `join_coin` returns, what it gives to `ws_send`, and what it says on `stderr`. -/
structure Joined where
  ret : Int
  sent : List (List Byte)
  err : List Byte
deriving DecidableEq

def serror (msg : List Byte) (errno : Option (List Byte)) : List Byte :=
  match errno with
  | some why => msg ++ ascii ": " ++ why ++ [nl]
  | none => msg ++ [nl]

/-- The lines from `jp` on, in a mapping of `fz` bytes that ends at `ep`. -/
def replay (ep : Int) (fz : Nat) : Nat → Int → Prog (List (List Byte))
  | 0, _ => pure []
  | fuel + 1, jp => do
    if jp < ep then
      match ← Query.first byte_at nl jp fz with
      | none => pure []
      | some eol =>
        let c ← byte_at jp
        if c = hashmark ∨ c = nl then replay ep fz fuel (eol + 1)
        else
          let l ← Query.stretch byte_at jp (eol - jp + 1).toNat
          let ls ← replay ep fz fuel (eol + 1)
          pure (l :: ls)
    else pure []

def join_coin (joinfile : List Byte) (sys : Sys) : Prog Joined :=
  match sys.open_ with
  | .error why => pure ⟨-1, [], serror (ascii "cannot open join file `" ++ joinfile ++ ascii "'") why⟩
  | .ok () =>
    match sys.fstat with
    | .error why => pure ⟨-1, [], serror (ascii "cannot stat join file `" ++ joinfile ++ ascii "'") why⟩
    | .ok fz =>
      if fz ≤ 0 then
        pure ⟨-1, [], serror (ascii "join file `" ++ joinfile ++ ascii "' has illegal size") none⟩
      else
        match sys.mmap with
        | .error why => pure ⟨-1, [], serror (ascii "cannot mmap join file `" ++ joinfile ++ ascii "'") why⟩
        | .ok () => do
          -- every turn of the loop goes past one byte at least
          let ls ← replay fz fz.toNat fz.toNat 0
          pure ⟨0, ls, []⟩

theorem join_coin_failed (joinfile : List Byte) (sys : Sys) (env : Int → Byte)
    (h : ((join_coin joinfile sys).eval env).ret ≠ 0) : ((join_coin joinfile sys).eval env).sent = [] := by
  revert h
  unfold join_coin
  cases sys.open_ with
  | error why => exact fun _ => rfl
  | ok _ =>
    cases sys.fstat with
    | error why => exact fun _ => rfl
    | ok fz =>
      simp only
      split
      · exact fun _ => rfl
      · cases sys.mmap with
        | error why => exact fun _ => rfl
        | ok _ =>
          simp only [Query.eval_bind, Query.eval_pure]
          intro h
          exact absurd rfl h

/-! ## A file that is mapped -/

section
variable (f : List Byte)

def known (p : Int) : Option Byte := if 0 ≤ p then f[p.toNat]? else none

/-- A file with the content `f`. -/
def mapped : Sys := ⟨.ok (), .ok f.length, .ok ()⟩

/-- A line that is sent. -/
def Said (l : List Byte) : Prop := l ≠ [] ∧ l.head? ≠ some hashmark

instance (l : List Byte) : Decidable (Said l) := by
  unfold Said
  infer_instance

/-- The lines of a text that are sent, with their newlines. -/
def messages (l : List Byte) : List (List Byte) := ((lines nl l).filter Said).map (· ++ [nl])

/-- What is sent for one line. -/
def said (a : List Byte) : List (List Byte) := if Said a then [a ++ [nl]] else []

theorem messages_line (a t : List Byte) (ha : nl ∉ a) : messages (a ++ nl :: t) = said a ++ messages t := by
  unfold messages said
  rw [lines_line a t ha]
  by_cases h : Said a
  · rw [List.filter_cons_of_pos (by simpa using h), if_pos h]
    rfl
  · rw [List.filter_cons_of_neg (by simpa using h), if_neg h]
    rfl

theorem said_empty : said [] = [] := if_neg fun h => h.1 rfl

variable {f}

theorem shows_file (k : Nat) {l : List Byte} (h : f.drop k = l) : Query.Shows (known f) byte_at k l := by
  intro j x hx
  rw [← h, List.getElem?_drop] at hx
  refine (Query.run_get (known f) _).trans ?_
  unfold known
  rw [if_pos (by omega), ← Int.natCast_add, Int.toNat_natCast, hx]

theorem known_behind : known f f.length = none := by
  unfold known
  rw [if_pos (Int.natCast_nonneg _), Int.toNat_natCast, List.getElem?_eq_none (le_refl _)]

/-! ## The loop -/

theorem run_replay_line (fuel k : Nat) (a t : List Byte) (hdrop : f.drop k = a ++ nl :: t) (ha : nl ∉ a) :
    Query.run (known f) (replay f.length f.length (fuel + 1) k) =
      (Query.run (known f) (replay f.length f.length fuel (k + a.length + 1 : Nat))).map (said a ++ ·) := by
  have hlen := congrArg List.length hdrop
  rw [List.length_drop, List.length_append, List.length_cons] at hlen
  have hshows := shows_file k hdrop
  have hfirst := Query.run_first a t f.length hshows ha (by omega)
  have hline := Query.run_stretch (a.length + 1) hshows (by simp)
  have htake : (a ++ nl :: t).take (a.length + 1) = a ++ [nl] := by
    rw [List.append_cons, List.take_left' (by simp)]
  have hn : ((k : Int) + a.length - k + 1).toNat = a.length + 1 := by omega
  have hnext : (k : Int) + a.length + 1 = ((k + a.length + 1 : Nat) : Int) := by omega
  rw [htake] at hline
  conv => lhs; unfold replay
  rw [if_pos (by omega), Query.run_then _ hfirst]
  simp only
  rw [hn, hnext]
  generalize hq : replay (f.length : Int) f.length fuel (k + a.length + 1 : Nat) = q
  have hskip : said a = [] → Query.run (known f) q = (Query.run (known f) q).map (said a ++ ·) := by
    intro h
    rw [h]
    simp
  cases a with
  | nil =>
    rw [Query.run_then _ hshows.head, if_pos (Or.inr rfl)]
    exact hskip said_empty
  | cons c a =>
    have hc : c ≠ nl := fun h => ha (h ▸ List.mem_cons_self ..)
    rw [Query.run_then _ hshows.head]
    by_cases hash : c = hashmark
    · rw [if_pos (Or.inl hash)]
      exact hskip (if_neg fun h => h.2 (congrArg some hash))
    · have hsaid : said (c :: a) = [c :: a ++ [nl]] :=
        if_pos ⟨List.cons_ne_nil c a, fun h => hash (Option.some.inj h)⟩
      rw [if_neg (not_or.mpr ⟨hash, hc⟩), Query.run_then _ hline, Query.run_bind, hsaid]
      cases Query.run (known f) q <;> rfl

theorem run_replay_rest (fuel k : Nat) (hk : k < f.length) (hrest : nl ∉ f.drop k) :
    Query.run (known f) (replay f.length f.length (fuel + 1) k) = if k = 0 then some [] else none := by
  have hshows := shows_file (f := f) k rfl
  unfold replay
  rw [if_pos (by omega)]
  by_cases h0 : k = 0
  · subst h0
    have hnone := Query.run_first_none _ hshows hrest
    rw [List.drop_zero] at hnone
    rw [Query.run_then _ hnone, if_pos rfl]
    rfl
  · have hlen : (f.drop k).length = f.length - k := List.length_drop
    have hon := Query.run_first_on _ f.length hshows hrest (by omega)
    obtain ⟨n, hn⟩ : ∃ n, f.length - (f.drop k).length = n + 1 := ⟨k - 1, by omega⟩
    have hend : (k : Int) + (f.drop k).length = f.length := by omega
    rw [hn, hend] at hon
    have hout : Query.run (known f) (Query.first byte_at nl (f.length : Int) (n + 1)) = none := by
      unfold Query.first
      rw [Query.run_bind]
      have hbyte : Query.run (known f) (byte_at f.length) = none :=
        (Query.run_get (known f) _).trans known_behind
      rw [hbyte]
      rfl
    rw [Query.run_bind, hon, hout, if_neg h0]
    rfl

theorem run_replay (fuel k : Nat) (hfuel : f.length ≤ k + fuel) (hk : k ≤ f.length) :
    Query.run (known f) (replay f.length f.length fuel k) =
      if rest nl (f.drop k) = [] ∨ (k = 0 ∧ nl ∉ f) then some (messages (f.drop k)) else none := by
  induction fuel generalizing k with
  | zero =>
    rw [List.drop_eq_nil_of_le (by omega), if_pos (Or.inl rest_nil)]
    rfl
  | succ fuel ih =>
    rcases line_cases nl (f.drop k) with hrest | ⟨a, t, hdrop, ha, -⟩
    · have hlines : messages (f.drop k) = [] := by
        unfold messages
        rw [lines_of_not_mem _ hrest]
        rfl
      rw [hlines, rest_of_not_mem _ hrest]
      rcases Nat.lt_or_eq_of_le hk with hlt | rfl
      · have hne : ¬ f.drop k = [] := by
          rw [List.drop_eq_nil_iff]
          omega
        rw [run_replay_rest fuel k hlt hrest]
        by_cases h0 : k = 0
        · subst h0
          rw [if_pos rfl, if_pos (Or.inr ⟨rfl, hrest⟩)]
        · rw [if_neg h0, if_neg (not_or.mpr ⟨hne, fun h => h0 h.1⟩)]
      · rw [List.drop_length, if_pos (Or.inl rfl)]
        unfold replay
        rw [if_neg (lt_irrefl _)]
        rfl
    · have hlen := congrArg List.length hdrop
      rw [List.length_drop, List.length_append, List.length_cons] at hlen
      have ht : f.drop (k + a.length + 1) = t := by
        rw [Nat.add_assoc, ← List.drop_drop, hdrop, List.append_cons, List.drop_left' (by simp)]
      have hmem : nl ∈ f := List.mem_of_mem_drop (i := k) (by rw [hdrop]; simp)
      rw [run_replay_line fuel k a t hdrop ha, ih _ (by omega) (by omega), ht, hdrop, rest_line a t ha,
        messages_line a t ha]
      by_cases hrest : rest nl t = []
      · rw [if_pos (Or.inl hrest), if_pos (Or.inl hrest)]
        rfl
      · rw [if_neg (not_or.mpr ⟨hrest, fun h => absurd h.1 (by omega)⟩),
          if_neg (not_or.mpr ⟨hrest, fun h => h.2 hmem⟩)]
        rfl

/-! ## The file -/

/-- All messages are sent in their order and 0 is returned, whatever there is around the file, and no byte is
read that is not one of its bytes. -/
def Replayed (joinfile f : List Byte) : Prop :=
  ∀ old, let env := Query.patched (known f) old
    (join_coin joinfile (mapped f)).eval env = ⟨0, messages f, []⟩ ∧
      ∀ p ∈ (join_coin joinfile (mapped f)).asked env, 0 ≤ p ∧ p < f.length

theorem known_isSome (p : Int) : (known f p).isSome = true ↔ 0 ≤ p ∧ p < f.length := by
  unfold known
  split
  · rw [isSome_getElem?]
    omega
  · simp only [Option.isSome_none, Bool.false_eq_true, false_iff]
    omega

theorem rest_eq_nil (h : f ≠ []) : rest nl f = [] ↔ f.getLast? = some nl := by
  constructor
  · intro hrest
    have hflat : (lines nl f).flatMap (· ++ [nl]) ++ rest nl f = f := lines_rest f
    rw [hrest, List.append_nil] at hflat
    have hne : lines nl f ≠ [] := fun hnil => h (by rw [← hflat, hnil]; rfl)
    obtain ⟨ls, l, hls⟩ := List.eq_nil_or_concat (lines nl f) |>.resolve_left hne
    rw [← hflat, hls]
    simp
  · intro hlast
    obtain ⟨t, rfl⟩ := List.getLast?_eq_some_iff.mp hlast
    exact rest_concat t

theorem run_join_coin (joinfile : List Byte) (hf : f ≠ []) :
    Query.run (known f) (join_coin joinfile (mapped f)) =
      if f.getLast? = some nl ∨ nl ∉ f then some ⟨0, messages f, []⟩ else none := by
  have hpos := List.length_pos_iff.mpr hf
  have hreplay := run_replay (f := f) f.length 0 (by omega) (by omega)
  simp only [List.drop_zero, Int.natCast_zero, rest_eq_nil hf, true_and] at hreplay
  unfold join_coin mapped
  simp only
  rw [if_neg (by omega), Query.run_bind, Int.toNat_natCast, hreplay]
  split
  · rfl
  · rfl

/-- **The lines are replayed**, if and only if the file ends in a newline or has none. -/
theorem join_coin_replays (joinfile f : List Byte) (hf : f ≠ []) :
    Replayed joinfile f ↔ f.getLast? = some nl ∨ nl ∉ f := by
  have hdecided := Query.run_decided (known f) (join_coin joinfile (mapped f)) ⟨0, messages f, []⟩
  simp only [known_isSome] at hdecided
  unfold Replayed
  rw [hdecided, run_join_coin joinfile hf]
  split
  · rename_i h
    exact iff_of_true rfl h
  · rename_i h
    exact iff_of_false (Option.some_ne_none _).symm h

/-- Two lines and a comment. -/
theorem join_coin_replays_lines :
    Replayed (ascii "ff.cnf") (ascii "a\n#b\nc\n") :=
  (join_coin_replays (ascii "ff.cnf") (ascii "a\n#b\nc\n") (by decide)).mpr (by decide)

/-- The second line has no end, the search goes past the file. -/
theorem join_coin_reads_past : ¬ Replayed (ascii "ff.cnf") (ascii "a\nb") := by
  intro h
  obtain ⟨-, hasked⟩ := h fun _ => nl
  have := hasked 3 (by decide)
  exact absurd this (by decide)

end

end Coins.Snarf.Ff
