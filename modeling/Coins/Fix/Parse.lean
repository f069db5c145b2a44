import Coins.Fix.Frame
import Coins.Lib.Memory
import Coins.Xmemmem

/-!
# Parsing messages

`fix_parse` of `fix.c` looks at the front of a buffer: the version, the length, which it skips, and
the message type. The rest is passed on with NUL in place of SOH.
-/

open Coins.Memory Coins.Numeral Coins.Xmemmem

namespace Coins.Fix

/-- `fix_msg_t`, with an address for the message. -/
structure Parsed where
  typ : Byte
  len : Nat
  msg : Int

/-- `buf[j++] != '3' || ...`: true if the tag is there. -/
def has_tag (m : Mem Byte) (buf : Int) : List Byte → Nat → Mem Byte × Bool
  | [], _ => (m, true)
  | t :: ts, j =>
    let m := m.read (buf + j) 1
    if m.cell (buf + j) = t then has_tag m buf ts (j + 1) else (m, false)

def buggered : Parsed := ⟨0, 0, 0⟩

/-! ## For any separator

`fix.h` leaves it to a program to define `SOH`.
-/

section
variable (soh : Byte)

/-- The header of a message, up to where its length begins. -/
def fhdr9_of : List Byte := ascii "8=FIX.4.4" ++ [soh] ++ ascii "9="

/-- `buf[j++] != SOH && ...`, at most `n` times: true if there was an SOH. -/
def past (m : Mem Byte) (buf : Int) : Nat → Nat → Mem Byte × Nat × Bool
  | 0, j => (m, j, false)
  | n + 1, j =>
    let m := m.read (buf + j) 1
    if m.cell (buf + j) = soh then (m, j + 1, true) else past m buf n (j + 1)

def nul_of (b : Byte) : Byte := if b ≠ soh then b else 0

theorem map_nul_of (l : List Byte) (h : soh ∉ l) : l.map (nul_of soh) = l := by
  have hid : ∀ b ∈ l, nul_of soh b = b := by
    intro b hb
    have hne : b ≠ soh := fun he => h (he ▸ hb)
    unfold nul_of
    rw [if_pos hne]
  rw [List.map_congr_left hid, List.map_id']

/-- `fix_parse` where `SOH` is `soh`. -/
def parse (m : Mem Byte) (buf : Int) (bsz : Nat) : Mem Byte × Parsed :=
  if bsz < (fhdr9_of soh).length then (m, buggered)
  else
    let m := m.read buf (fhdr9_of soh).length
    if m.view buf (fhdr9_of soh).length ≠ fhdr9_of soh then (m, buggered)
    else
      -- `sizeof(fhdr)` is one more than `fhdr` is long, and skips a digit
      let (m, j, found) := past soh m buf 5 ((fhdr9_of soh).length + 1)
      if !found then (m, buggered)
      else
        let (m, tagged) := has_tag m buf (ascii "35=") j
        if !tagged then (m, buggered)
        else
          let j := j + 3
          let m := m.read (buf + j) 1
          let typ := m.cell (buf + j)
          let j := j + 1
          let m := m.read (buf + j) 1
          let j := if m.cell (buf + j) ≠ soh then j + 1 else j
          -- the length has 56 bits
          let len := (((bsz : Int) - j) % 2 ^ 56).toNat
          ((m.read buf bsz).store buf ((m.view buf bsz).map (nul_of soh)), ⟨typ, len, buf + j⟩)

/-- The front of a message, up to the separator behind its type. -/
def front_of (size typ : List Byte) : List Byte :=
  fhdr9_of soh ++ size ++ [soh] ++ ascii "35=" ++ typ ++ [soh]

end

/-! ## In `fix.c` -/

def fhdr9 : List Byte := fhdr9_of SOH

def nul : Byte → Byte := nul_of SOH

def fix_parse : Mem Byte → Int → Nat → Mem Byte × Parsed := parse SOH

theorem fix_parse_eq (m : Mem Byte) (buf : Int) (bsz : Nat) : fix_parse m buf bsz = parse SOH m buf bsz := rfl

/-- The reason that a logout gives at the weekend. -/
def rsn : List Byte := [0] ++ ascii "58=Logon attempt not within session time" ++ [0]

def fix_weekend_p (m : Mem Byte) (p : Parsed) : Bool := (xmemmem (m.view p.msg p.len) rsn).isSome

/-! ## What the front of a message gives -/

/-- The front of a message, up to the SOH behind its type. -/
def front (size typ : List Byte) : List Byte := front_of SOH size typ

theorem front_eq (size typ : List Byte) :
    front size typ = fhdr9 ++ size ++ [SOH] ++ ascii "35=" ++ typ ++ [SOH] := rfl

/-- Where `fix_parse` lets the message begin: behind one or two characters of the type. -/
def view_start (size typ : List Byte) : Nat := fhdr9.length + size.length + 4 + min 2 typ.length

section
variable (soh : Byte)

theorem past_found (m : Mem Byte) (buf : Int) (ds : List Byte) (n j : Nat) (hds : soh ∉ ds)
    (hn : ds.length < n) (hview : m.view (buf + j) (ds.length + 1) = ds ++ [soh]) :
    ∃ m', past soh m buf n j = (m', j + ds.length + 1, true) ∧ m'.cell = m.cell ∧
      Mem.Within (buf + j) (buf + j + ds.length + 1) m m' := by
  induction ds generalizing m n j with
  | nil =>
    obtain ⟨n, rfl⟩ : ∃ k, n = k + 1 := ⟨n - 1, by simp only [List.length_nil] at hn; omega⟩
    have hcell : m.cell (buf + j) = soh := by simpa [Mem.view] using hview
    refine ⟨m.read (buf + j) 1, ?_, rfl, Mem.Within.read _ _ (Or.inr (by simp))⟩
    rw [past]
    simp [hcell]
  | cons d ds ih =>
    obtain ⟨n, rfl⟩ : ∃ k, n = k + 1 := ⟨n - 1, by simp only [List.length_cons] at hn; omega⟩
    obtain ⟨hcell, htail⟩ : m.cell (buf + j) = d ∧
        m.view (buf + j + 1) (ds.length + 1) = ds ++ [soh] := by
      simpa [Mem.view] using hview
    have hd : d ≠ soh := fun h => hds (by simp [h])
    have hj : buf + ((j + 1 : Nat) : Int) = buf + j + 1 := by omega
    obtain ⟨m', hpast, hm', hin⟩ := ih (m.read (buf + j) 1) n (j + 1) (fun h => hds (by simp [h]))
      (by simpa using hn) (by rw [Mem.view_read, hj, htail])
    rw [List.length_cons]
    refine ⟨m', ?_, hm', (Mem.Within.read _ _ (Or.inr (by omega))).trans (hin.mono (by omega) (by omega))⟩
    rw [past]
    simp only [Mem.cell_read, hcell, if_neg hd, hpast]
    congr 2
    omega

theorem past_lost (m : Mem Byte) (buf : Int) (ds : List Byte) (j : Nat) (hds : soh ∉ ds)
    (hview : m.view (buf + j) ds.length = ds) :
    ∃ m', past soh m buf ds.length j = (m', j + ds.length, false) ∧
      Mem.Within (buf + j) (buf + j + ds.length) m m' := by
  induction ds generalizing m j with
  | nil => exact ⟨m, rfl, Mem.Within.refl m⟩
  | cons d ds ih =>
    obtain ⟨hcell, htail⟩ : m.cell (buf + j) = d ∧ m.view (buf + j + 1) ds.length = ds := by
      simpa [Mem.view] using hview
    have hd : d ≠ soh := fun h => hds (by simp [h])
    have hj : buf + ((j + 1 : Nat) : Int) = buf + j + 1 := by omega
    obtain ⟨m', hpast, hin⟩ := ih (m.read (buf + j) 1) (j + 1) (fun h => hds (by simp [h]))
      (by rw [Mem.view_read, hj, htail])
    rw [List.length_cons, past]
    simp only [Mem.cell_read, hcell, if_neg hd]
    refine ⟨m', ?_, (Mem.Within.read _ _ (Or.inr (by omega))).trans (hin.mono (by omega) (by omega))⟩
    rw [hpast]
    congr 2
    omega

theorem has_tag_here (m : Mem Byte) (buf : Int) (ts : List Byte) (j : Nat)
    (hview : m.view (buf + j) ts.length = ts) :
    ∃ m', has_tag m buf ts j = (m', true) ∧ m'.cell = m.cell ∧
      Mem.Within (buf + j) (buf + j + ts.length) m m' := by
  induction ts generalizing m j with
  | nil => exact ⟨m, rfl, rfl, Mem.Within.refl m⟩
  | cons t ts ih =>
    obtain ⟨hcell, htail⟩ : m.cell (buf + j) = t ∧ m.view (buf + j + 1) ts.length = ts := by
      simpa [Mem.view] using hview
    have hj : buf + ((j + 1 : Nat) : Int) = buf + j + 1 := by omega
    obtain ⟨m', htag, hm', hin⟩ := ih (m.read (buf + j) 1) (j + 1) (by rw [Mem.view_read, hj, htail])
    rw [List.length_cons]
    refine ⟨m', ?_, hm', (Mem.Within.read _ _ (Or.inr (by omega))).trans (hin.mono (by omega) (by omega))⟩
    rw [has_tag]
    simp only [Mem.cell_read, hcell, if_pos, htag]

theorem parse_none (m : Mem Byte) (buf : Int) (l : List Byte) (hview : m.view buf l.length = l)
    (h : ¬ (fhdr9_of soh) <+: l) : (parse soh m buf l.length).2 = buggered := by
  unfold parse
  split
  · rfl
  · rename_i hlen
    rw [if_pos]
    simp only [Mem.view_read]
    intro heq
    apply h
    have htake : l.take (fhdr9_of soh).length = m.view buf (fhdr9_of soh).length := by
      conv_lhs => rw [← hview]
      rw [Mem.view_take]
      congr 1
      omega
    rw [List.prefix_iff_eq_take, htake, heq]

/-- What `parse` comes across at the front of a message whose length has the digits `d :: ds`. -/
structure Fronted (m : Mem Byte) (buf : Int) (ds typ : List Byte) (t : Byte) : Prop where
  head : m.view buf (fhdr9_of soh).length = fhdr9_of soh
  digits : m.view (buf + (13 : Nat)) (ds.length + 1) = ds ++ [soh]
  tag : m.view (buf + (14 + ds.length : Nat)) 3 = ascii "35="
  kind : m.cell (buf + (17 + ds.length : Nat)) = t ∧ m.cell (buf + (18 + ds.length : Nat)) = typ.headD soh

theorem fronted (m : Mem Byte) (buf : Int) (d : Byte) (ds typ rest : List Byte) (t : Byte)
    (hview : m.view buf (front_of soh (d :: ds) (t :: typ) ++ rest).length =
      front_of soh (d :: ds) (t :: typ) ++ rest) : Fronted soh m buf ds typ t := by
  have h12 : (fhdr9_of soh).length = 12 := rfl
  have hmid : ∀ u x v, front_of soh (d :: ds) (t :: typ) ++ rest = u ++ x ++ v →
      m.view (buf + u.length) x.length = x := by
    intro u x v h
    exact Mem.view_mid m buf _ u x v (hview.trans h)
  refine ⟨?_, ?_, ?_, ?_⟩
  · have h := hmid [] (fhdr9_of soh) (d :: ds ++ [soh] ++ ascii "35=" ++ t :: typ ++ [soh] ++ rest)
      (by simp [front_of])
    simpa using h
  · have h := hmid (fhdr9_of soh ++ [d]) (ds ++ [soh]) (ascii "35=" ++ t :: typ ++ [soh] ++ rest)
      (by simp [front_of])
    rw [List.length_append] at h
    simpa [h12] using h
  · have h := hmid (fhdr9_of soh ++ (d :: ds) ++ [soh]) (ascii "35=") (t :: typ ++ [soh] ++ rest)
      (by simp [front_of])
    have hlen : (fhdr9_of soh ++ (d :: ds) ++ [soh]).length = 14 + ds.length := by
      simp [h12]
      omega
    rw [hlen] at h
    exact h
  · have hlen : (fhdr9_of soh ++ (d :: ds) ++ [soh] ++ ascii "35=").length = 17 + ds.length := by
      simp [h12, ascii]
      omega
    have h := hmid (fhdr9_of soh ++ (d :: ds) ++ [soh] ++ ascii "35=") [t, typ.headD soh]
      ((typ ++ [soh] ++ rest).drop 1) (by cases typ <;> simp [front_of])
    rw [hlen] at h
    have hj : buf + ((18 + ds.length : Nat) : Int) = buf + (17 + ds.length : Nat) + 1 := by omega
    rw [hj]
    simpa [Mem.view] using h

theorem parse_fronted (m : Mem Byte) (buf : Int) (ds typ : List Byte) (t : Byte) (bsz : Nat)
    (h : Fronted soh m buf ds typ t) (hsoh : soh ∉ ds) (h5 : ds.length < 5) (hbsz : 12 ≤ bsz) :
    let k := if typ.headD soh ≠ soh then 19 + ds.length else 18 + ds.length
    ∃ m' : Mem Byte, m'.cell = m.cell ∧ Mem.Within buf (buf + max bsz (19 + ds.length)) m m' ∧
      parse soh m buf bsz = (m'.store buf ((m.view buf bsz).map (nul_of soh)),
        ⟨t, (((bsz : Int) - k) % 2 ^ 56).toNat, buf + k⟩) := by
  intro k
  have h12 : (fhdr9_of soh).length = 12 := rfl
  obtain ⟨m1, hpast, hm1, hin1⟩ := past_found soh (m.read buf 12) buf ds 5 13 hsoh h5
    (by rw [Mem.view_read, h.digits])
  obtain ⟨m2, htag, hm2, hin2⟩ := has_tag_here m1 buf (ascii "35=") (14 + ds.length) (by
    rw [← h.tag]
    exact Mem.view_congr _ _ _ _ fun i _ _ => by rw [hm1]; rfl)
  have hcell : m2.cell = m.cell := hm2.trans (hm1.trans rfl)
  have hview : m2.view buf bsz = m.view buf bsz := Mem.view_congr _ _ _ _ fun i _ _ => by rw [hcell]
  have hj14 : 13 + ds.length + 1 = 14 + ds.length := by omega
  have hj17 : 14 + ds.length + 3 = 17 + ds.length := by omega
  have hj18 : 17 + ds.length + 1 = 18 + ds.length := by omega
  have hj19 : 18 + ds.length + 1 = 19 + ds.length := by omega
  refine ⟨((m2.read (buf + (17 + ds.length : Nat)) 1).read (buf + (18 + ds.length : Nat)) 1).read buf bsz,
    hcell, ?_, ?_⟩
  · have h3 : (ascii "35=").length = 3 := rfl
    rw [h3] at hin2
    have hread : ∀ (w : Mem Byte) (a : Int) (n : Nat), buf ≤ a → a + n ≤ buf + max bsz (19 + ds.length) →
        Mem.Within buf (buf + max bsz (19 + ds.length)) w (w.read a n) :=
      fun w a n hlo hhi => Mem.Within.read a n (Or.inr ⟨hlo, by omega⟩)
    have hscan := ((hread m buf 12 (le_refl _) (by omega)).trans (hin1.mono (by omega) (by omega))).trans
      (hin2.mono (by omega) (by omega))
    exact ((hscan.trans (hread m2 _ 1 (by omega) (by omega))).trans (hread _ _ 1 (by omega) (by omega))).trans
      (hread _ buf bsz (le_refl _) (by omega))
  unfold parse
  rw [if_neg (by omega)]
  simp only [Mem.view_read, h.head, ne_eq, not_true_eq_false, if_false]
  rw [h12, show 12 + 1 = 13 from rfl, hpast]
  simp only [hj14, htag, hj17, hj18, hj19, Bool.not_true, Bool.false_eq_true, if_false, Mem.cell_read,
    hcell, h.kind.1, h.kind.2, hview]
  rfl

theorem view_start_eq (d : Byte) (ds typ : List Byte) (t : Byte) (htsoh : soh ∉ typ) :
    view_start (d :: ds) (t :: typ) = if typ.headD soh ≠ soh then 19 + ds.length else 18 + ds.length := by
  have hstart : fhdr9.length = 12 := rfl
  unfold view_start
  cases typ with
  | nil =>
    simp [hstart]
    omega
  | cons c cs =>
    have hc : c ≠ soh := fun h => htsoh (by simp [h])
    simp [hstart, hc]
    omega

theorem parse_front (m : Mem Byte) (buf : Int) (size typ rest : List Byte) (t : Byte)
    (hsize : size ≠ []) (hsoh : soh ∉ size) (htsoh : soh ∉ typ) (h5 : size.length ≤ 5)
    (hlen : (front_of soh size (t :: typ) ++ rest).length < 2 ^ 56)
    (hview : m.view buf (front_of soh size (t :: typ) ++ rest).length = front_of soh size (t :: typ) ++ rest) :
    let l := front_of soh size (t :: typ) ++ rest
    let k := view_start size (t :: typ)
    ∃ m', parse soh m buf l.length = (m', ⟨t, l.length - k, buf + k⟩) ∧
      m'.view (buf + k) (l.length - k) = (l.drop k).map (nul_of soh) := by
  intro l k
  obtain ⟨d, ds, rfl⟩ := List.exists_cons_of_ne_nil hsize
  have hl : l.length = 12 + (ds.length + 1) + 5 + (typ.length + 1) + rest.length := by
    have h12 : (fhdr9_of soh).length = 12 ∧ (ascii "35=").length = 3 := ⟨rfl, rfl⟩
    unfold l front_of
    simp only [List.length_append, List.length_cons, List.length_nil]
    omega
  obtain ⟨m', hcell, -, hparse⟩ := parse_fronted soh m buf ds typ t l.length
    (fronted soh m buf d ds typ rest t hview) (fun h => hsoh (List.mem_cons_of_mem _ h)) h5 (by omega)
  rw [← view_start_eq soh d ds typ t htsoh] at hparse
  change m.view buf l.length = l at hview
  have hkl : k ≤ l.length := by
    unfold k
    rw [view_start_eq soh d ds typ t htsoh, hl]
    split <;> omega
  have hnum : (((l.length : Int) - k) % 2 ^ 56).toNat = l.length - k := by
    have hlt : l.length < 2 ^ 56 := hlen
    omega
  rw [hnum, hview] at hparse
  refine ⟨_, hparse, ?_⟩
  have hstore := Mem.view_store m' buf (l.map (nul_of soh))
  rw [List.length_map] at hstore
  rw [← Mem.view_drop, hstore, List.map_drop]

theorem parse_long (m : Mem Byte) (buf : Int) (size typ rest : List Byte) (hsoh : soh ∉ size)
    (h5 : 5 < size.length)
    (hview : m.view buf (front_of soh size typ ++ rest).length = front_of soh size typ ++ rest) :
    (parse soh m buf (front_of soh size typ ++ rest).length).2 = buggered := by
  obtain ⟨d, ds, e, rfl, hds⟩ : ∃ d ds e, size = d :: (ds ++ e) ∧ ds.length = 5 := by
    cases size with
    | nil => simp at h5
    | cons d t =>
      refine ⟨d, t.take 5, t.drop 5, by simp, ?_⟩
      simp only [List.length_cons] at h5
      rw [List.length_take]
      omega
  have h12 : (fhdr9_of soh).length = 12 := rfl
  have hhead : m.view buf (fhdr9_of soh).length = (fhdr9_of soh) := by
    have h := Mem.view_mid m buf _ [] (fhdr9_of soh)
      (d :: (ds ++ e) ++ [soh] ++ ascii "35=" ++ typ ++ [soh] ++ rest)
      (hview.trans (by simp [front_of]))
    simpa using h
  have hdigits : m.view (buf + (13 : Nat)) ds.length = ds := by
    have h := Mem.view_mid m buf _ ((fhdr9_of soh) ++ [d]) ds
      (e ++ [soh] ++ ascii "35=" ++ typ ++ [soh] ++ rest) (hview.trans (by simp [front_of]))
    rw [List.length_append] at h
    simpa [h12] using h
  obtain ⟨m', hlost, -⟩ := past_lost soh (m.read buf 12) buf ds 13
    (fun h => hsoh (List.mem_cons_of_mem _ (List.mem_append_left _ h)))
    (by rw [Mem.view_read, hdigits])
  rw [hds] at hlost
  unfold parse
  split
  · rfl
  · simp only [Mem.view_read, hhead, ne_eq, not_true_eq_false, if_false]
    rw [h12, show 12 + 1 = 13 from rfl]
    simp [hlost]

end

/-! ## What is left alone -/

section
variable (soh : Byte)

theorem past_reads (m : Mem Byte) (buf : Int) (n j : Nat) :
    (past soh m buf n j).1.cell = m.cell ∧ (past soh m buf n j).1.size = m.size := by
  induction n generalizing m j with
  | zero => exact ⟨rfl, rfl⟩
  | succ n ih =>
    unfold past
    simp only
    split
    · exact ⟨rfl, rfl⟩
    · exact ih _ _

theorem has_tag_reads (m : Mem Byte) (buf : Int) (ts : List Byte) (j : Nat) :
    (has_tag m buf ts j).1.cell = m.cell ∧ (has_tag m buf ts j).1.size = m.size := by
  induction ts generalizing m j with
  | nil => exact ⟨rfl, rfl⟩
  | cons t ts ih =>
    unfold has_tag
    simp only
    split
    · exact ih _ _
    · exact ⟨rfl, rfl⟩

theorem parse_frame (m : Mem Byte) (buf : Int) (bsz : Nat) :
    (parse soh m buf bsz).1.size = m.size ∧
    ∀ i, i < buf ∨ buf + bsz ≤ i → (parse soh m buf bsz).1.cell i = m.cell i := by
  unfold parse
  split
  · exact ⟨rfl, fun _ _ => rfl⟩
  · simp only
    split
    · exact ⟨rfl, fun _ _ => rfl⟩
    · obtain ⟨hcell, hsize⟩ := past_reads soh (m.read buf (fhdr9_of soh).length) buf 5
        ((fhdr9_of soh).length + 1)
      split
      · exact ⟨hsize, fun i _ => congrFun hcell i⟩
      · obtain ⟨htcell, htsize⟩ := has_tag_reads
          (past soh (m.read buf (fhdr9_of soh).length) buf 5 ((fhdr9_of soh).length + 1)).1 buf
          (ascii "35=")
          (past soh (m.read buf (fhdr9_of soh).length) buf 5 ((fhdr9_of soh).length + 1)).2.1
        split
        · exact ⟨htsize.trans hsize, fun i _ => congrFun (htcell.trans hcell) i⟩
        · refine ⟨htsize.trans hsize, fun i hi => ?_⟩
          have hz : ∀ (m' : Mem Byte), ((m'.view buf bsz).map (nul_of soh)).length = bsz := fun m' => by simp
          rcases hi with hi | hi
          · rw [Mem.cell_store_of_lt _ _ _ _ hi]
            exact congrFun (htcell.trans hcell) i
          · rw [Mem.cell_store_of_ge _ _ _ _ (by rw [hz]; exact hi)]
            exact congrFun (htcell.trans hcell) i

theorem front_drop (size typ rest : List Byte) (t : Byte) :
    (front_of soh size (t :: typ) ++ rest).drop (view_start size (t :: typ)) =
      typ.drop 1 ++ soh :: rest := by
  have hsplit : front_of soh size (t :: typ) ++ rest =
      (fhdr9_of soh ++ size ++ [soh] ++ ascii "35=" ++ t :: typ.take 1) ++ (typ.drop 1 ++ soh :: rest) := by
    unfold front_of
    conv_lhs => rw [← List.take_append_drop 1 typ]
    simp
  have hstart : view_start size (t :: typ) =
      (fhdr9_of soh ++ size ++ [soh] ++ ascii "35=" ++ t :: typ.take 1).length := by
    have h12 : (fhdr9_of soh).length = 12 ∧ fhdr9.length = 12 ∧ (ascii "35=").length = 3 := ⟨rfl, rfl, rfl⟩
    unfold view_start
    simp only [List.length_append, List.length_cons, List.length_nil, List.length_take]
    omega
  rw [hsplit, hstart, List.drop_left]

end

/-! ## `fix_parse` -/

theorem fix_parse_none (m : Mem Byte) (buf : Int) (l : List Byte) (hview : m.view buf l.length = l)
    (h : ¬ fhdr9 <+: l) : (fix_parse m buf l.length).2 = buggered := by
  rw [fix_parse_eq]
  exact parse_none SOH m buf l hview h

theorem fix_parse_front (m : Mem Byte) (buf : Int) (size typ rest : List Byte) (t : Byte)
    (hsize : size ≠ []) (hsoh : SOH ∉ size) (htsoh : SOH ∉ typ) (h5 : size.length ≤ 5)
    (hlen : (front size (t :: typ) ++ rest).length < 2 ^ 56)
    (hview : m.view buf (front size (t :: typ) ++ rest).length = front size (t :: typ) ++ rest) :
    let l := front size (t :: typ) ++ rest
    let k := view_start size (t :: typ)
    ∃ m', fix_parse m buf l.length = (m', ⟨t, l.length - k, buf + k⟩) ∧
      m'.view (buf + k) (l.length - k) = (l.drop k).map nul := by
  intro l k
  rw [fix_parse_eq]
  exact parse_front SOH m buf size typ rest t hsize hsoh htsoh h5 hlen hview

theorem fix_parse_long (m : Mem Byte) (buf : Int) (size typ rest : List Byte) (hsoh : SOH ∉ size)
    (h5 : 5 < size.length)
    (hview : m.view buf (front size typ ++ rest).length = front size typ ++ rest) :
    (fix_parse m buf (front size typ ++ rest).length).2 = buggered := by
  rw [fix_parse_eq]
  exact parse_long SOH m buf size typ rest hsoh h5 hview

end Coins.Fix
