import Coins.Snarf.Failure
import Coins.Snarf.Pending

/-!
# Compressed feeds

What a call receives is taken for one image, from its first byte on, and replaced by what it inflates to. The
line break of the last message that `ws_recv` puts in front ends the line that is pending.
-/

open Coins.Memory Coins.Lines Coins.Numeral Coins.Transducer Coins.Ws

namespace Coins.Snarf

open coin_st_t

/-- A line break, or none. -/
def brk (b : Bool) : List Byte := if b then [nl] else []

/-- A text line that may end in a line break, and its image, which `tinf_uncompress` inflates when it is all
there, whatever is behind it, and not before. -/
structure Message (tinf : List Byte → Option (List Byte)) where
  line : List Byte
  ended : Bool
  image : List Byte
  line_ne : line ≠ []
  line_nl : nl ∉ line
  whole : ∀ rest, tinf (image ++ rest) = some (line ++ brk ended)
  part : ∀ p, p <+: image → p ≠ image → tinf p = none

/-- What `tinf_uncompress` is given: what came, less a line break in front. -/
def handed (s : Slot) (e : Input) : List Byte :=
  (appended s e).drop (if (appended s e).head? = some nl then 1 else 0)

/-- A call in a state in which lines are logged, which receives something. -/
structure Fed (tinf : List Byte → Option (List Byte)) (s : Slot) (e : Input) : Prop where
  logs : Logs s e
  got : ∃ ws, s.ws = some ws ∧ ∃ k : Nat, (recvd s e ws).ret = some (k : Int)
  ten : e.tsp.Ten
  inflated : e.inflated = tinf (handed s e)

/-- The call delivers a whole message and nothing else, or no more than the line break of the last one. There
is a line break in front, or nothing is pending. -/
def Delivers (tinf : List Byte → Option (List Byte)) (s : Slot) (c : Input × Option (Message tinf)) : Prop :=
  Fed tinf s c.1 ∧
    match c.2 with
    | some m => ∃ lead, appended s c.1 = brk lead ++ m.image ++ [nl] ∧
      (lead = true ∨ pending s = [] ∧ m.image.head? ≠ some nl)
    | none => appended s c.1 = [nl] ∧ pending s = []

/-- The texts are logged or, the last one, pending: each once and in order, apart from blank lines. -/
def AllLogged (s : Slot) (es : List Input) (texts : List (List Byte)) : Prop :=
  ∃ ls, List.Forall₂ (fun line out => ∃ e ∈ es, out = record e.tsp line) ls
      (logged (feed (ws_cb massage) s es).2) ∧
    (ls ++ [pending (feed (ws_cb massage) s es).1]).filter (· ≠ []) = texts

/-! ## One call -/

/-- The session buffer holds the unfinished line `l`, and what comes is inflated. -/
structure Kept (s : Slot) (l : List Byte) : Prop where
  ws : ∃ ws, s.ws = some ws ∧ Good ws
  inflate : s.inflate = true
  sized : Sized s.mem s.n
  fill : s.n = INI_GBOF + l.length
  view : s.mem.view INI_GBOF l.length = l

theorem Kept.pending {s : Slot} {l : List Byte} (h : Kept s l) : pending s = l := by
  unfold Snarf.pending
  rw [h.fill, Nat.add_sub_cancel_left]
  exact h.view

theorem ws_cb_logs (mas : Massage) (s : Slot) (e : Input) (ws : ws_s) (k : Nat) (hws : s.ws = some ws)
    (hlogs : Logs s e) (hret : (recvd s e ws).ret = some (k : Int)) :
    let r := recvd s e ws
    let q := log_him mas s.inflate { s with ws := some r.ws, mem := r.mem, st := upgrade (entered s) e.r }
      r.mem (s.n + k) k e
    ws_cb mas s e = (q.1, r.sent.map Out.sent ++ q.2) :=
  io_cb_logs mas s.inflate (fun _ => []) s e ws k hws hlogs hret

theorem skips (m : Mem Byte) (a : Int) (d : List Byte) (lead : Bool)
    (hview : m.view a (brk lead ++ d).length = brk lead ++ d) (hd : lead = false → d ≠ [] ∧ d.head? ≠ some nl) :
    (if m.cell a = nl then 1 else 0) = (brk lead).length := by
  cases lead with
  | true =>
    have hcell : m.cell a = nl := (List.cons.inj hview).1
    rw [if_pos hcell]
    rfl
  | false =>
    obtain ⟨hne, hhead⟩ := hd rfl
    cases d with
    | nil => exact absurd rfl hne
    | cons c d =>
      have hcell : m.cell a = c := (List.cons.inj hview).1
      rw [if_neg]
      · rfl
      · rw [hcell]
        exact fun h => hhead (congrArg some h)

theorem inflate_view (m : Mem Byte) (l d t : List Byte) (lead : Bool)
    (hview : m.view INI_GBOF (l ++ (brk lead ++ d)).length = l ++ (brk lead ++ d))
    (hd : lead = false → d ≠ [] ∧ d.head? ≠ some nl) :
    ∃ m' : Mem Byte, inflate_in_place m (INI_GBOF + l.length + (brk lead ++ d).length) (brk lead ++ d).length (some t) =
        some (m', INI_GBOF + (l ++ brk lead ++ t).length) ∧
      m'.view INI_GBOF (l ++ brk lead ++ t).length = l ++ brk lead ++ t ∧
      INI_GBOF + (l ++ brk lead ++ t).length ≤ m'.size ∧ m.size ≤ m'.size := by
  have hbehind : m.view (INI_GBOF + l.length : Nat) (brk lead ++ d).length = brk lead ++ d := by
    have h := congrArg (List.drop l.length) hview
    rw [Mem.view_drop, List.drop_left, List.length_append, Nat.add_sub_cancel_left] at h
    push_cast
    exact h
  have hfront : m.view INI_GBOF (l ++ brk lead).length = l ++ brk lead := by
    have h := congrArg (List.take (l ++ brk lead).length) hview
    rw [Mem.view_take, ← List.append_assoc, List.take_left, Nat.min_eq_left (by simp)] at h
    exact h
  have hskip := skips m _ d lead hbehind hd
  have hxn : INI_GBOF + l.length + (brk lead).length = INI_GBOF + (l ++ brk lead).length := by
    rw [List.length_append, Nat.add_assoc]
  have hend : INI_GBOF + (l ++ brk lead).length + t.length = INI_GBOF + (l ++ brk lead ++ t).length := by
    have h : (l ++ brk lead ++ t).length = (l ++ brk lead).length + t.length := List.length_append
    omega
  unfold inflate_in_place
  simp only [Nat.add_sub_cancel_right, hskip, hxn, hend, Option.map_some, Mem.size_read]
  generalize hm : (if INI_GBOF + (l ++ brk lead ++ t).length ≥ m.size then
    (m.read (INI_GBOF + l.length : Nat) 1).resize (INI_GBOF + (l ++ brk lead ++ t).length + m.size)
    else m.read (INI_GBOF + l.length : Nat) 1) = m'
  have hcell : m'.cell = m.cell := by
    rw [← hm]
    split <;> rfl
  have hsize : INI_GBOF + (l ++ brk lead ++ t).length ≤ m'.size ∧ m.size ≤ m'.size := by
    rw [← hm]
    split
    · rw [Mem.size_resize]
      omega
    · rw [Mem.size_read]
      omega
  refine ⟨_, rfl, ?_, hsize⟩
  have h := Mem.view_store_append m' INI_GBOF (l ++ brk lead).length t
  rw [Mem.view_congr m m' _ _ fun i _ _ => by rw [hcell], hfront, ← List.length_append] at h
  push_cast
  exact h

theorem fed_nothing {tinf : List Byte → Option (List Byte)} (hnone : tinf [] = none) (m : Message tinf) :
    m.image ≠ [] := by
  intro h
  have hall := m.whole []
  rw [h] at hall
  change tinf [] = _ at hall
  rw [hnone] at hall
  cases hall

theorem message_kept {tinf : List Byte → Option (List Byte)} (s : Slot) (e : Input) (l : List Byte) (lead : Bool)
    (m : Message tinf) (hnone : tinf [] = none) (hs : Kept s l) (hfed : Fed tinf s e)
    (happ : appended s e = brk lead ++ m.image ++ [nl]) (hlead : lead = true ∨ m.image.head? ≠ some nl) :
    let t := l ++ brk lead ++ (m.line ++ brk m.ended)
    Kept (ws_cb massage s e).1 (rest nl t) ∧ logged (ws_cb massage s e).2 = (lines nl t).map (record e.tsp) := by
  intro t
  obtain ⟨ws, hws, k, hret⟩ := hfed.got
  obtain ⟨ws', hws', hgood⟩ := hs.ws
  obtain rfl : ws = ws' := Option.some.inj (hws ▸ hws')
  obtain ⟨hk, hview, hgood', hsize⟩ := recvd_view s e ws l k hs.fill hs.sized hs.view hws hgood hret
  have hne := fed_nothing hnone m
  have hd : lead = false → m.image ++ [nl] ≠ [] ∧ (m.image ++ [nl]).head? ≠ some nl := by
    intro hfalse
    refine ⟨by simp, ?_⟩
    rw [List.head?_append_of_ne_nil _ hne]
    exact hlead.resolve_left (by rw [hfalse]; simp)
  have hinf : e.inflated = some (m.line ++ brk m.ended) := by
    rw [hfed.inflated, ← m.whole [nl]]
    congr 1
    unfold handed
    rw [happ, List.append_assoc]
    cases lead with
    | true => rfl
    | false =>
      change (m.image ++ [nl]).drop (if (m.image ++ [nl]).head? = some nl then 1 else 0) = m.image ++ [nl]
      rw [if_neg (hd rfl).2]
      rfl
  rw [happ, List.append_assoc] at hview hk
  obtain ⟨m', hplace, hview', hfit, hgrown⟩ := inflate_view (recvd s e ws).mem l (m.image ++ [nl])
    (m.line ++ brk m.ended) lead hview hd
  rw [← hk, ← hs.fill] at hplace
  obtain ⟨hrest, hn, hout, hsame⟩ := shift_spec e.tsp m' t _ hfed.ten rfl hview'
  have hcb := ws_cb_logs massage s e ws k hws hfed.logs hret
  simp only [log_him, hs.inflate, if_true, hinf, hplace] at hcb
  rw [hcb]
  refine ⟨⟨⟨(recvd s e ws).ws, rfl, hgood'⟩, rfl, ?_, hn, hrest⟩, ?_⟩
  · have hle : INI_GBOF + (rest nl t).length ≤ INI_GBOF + t.length := Nat.add_le_add_left (rest_length_le t) _
    exact Or.inr ⟨(hsize.trans hgrown).trans hsame.ge, ((hn.le.trans hle).trans hfit).trans hsame.ge⟩
  · rw [logged_append, logged_sent, List.nil_append, hout, logged_map]

theorem nothing_kept {tinf : List Byte → Option (List Byte)} (s : Slot) (e : Input) (hnone : tinf [] = none)
    (hs : Kept s []) (hfed : Fed tinf s e) (happ : appended s e = [nl]) :
    Kept (ws_cb massage s e).1 [] ∧ logged (ws_cb massage s e).2 = [] := by
  obtain ⟨ws, hws, k, hret⟩ := hfed.got
  obtain ⟨ws', hws', hgood⟩ := hs.ws
  obtain rfl : ws = ws' := Option.some.inj (hws ▸ hws')
  obtain ⟨-, -, hgood', hsize⟩ := recvd_view s e ws [] k hs.fill hs.sized hs.view hws hgood hret
  have hinf : e.inflated = none := by
    rw [hfed.inflated, ← hnone]
    congr 1
    unfold handed
    rw [happ]
    rfl
  have hcb := ws_cb_logs massage s e ws k hws hfed.logs hret
  simp only [log_him, hs.inflate, if_true, hinf, inflate_in_place, Option.map_none] at hcb
  rw [hcb]
  refine ⟨⟨⟨(recvd s e ws).ws, rfl, hgood'⟩, rfl, ?_, rfl, rfl⟩, ?_⟩
  · refine Or.inr ⟨hsize, ?_⟩
    change INI_GBOF ≤ (recvd s e ws).mem.size
    unfold INI_GBOF
    omega
  · rw [List.append_nil, logged_sent]

/-! ## Runs -/

/-- The lines that are not blank. -/
def shown (ls : List (List Byte)) : List (List Byte) := ls.filter (· ≠ [])

theorem shown_append (a b : List (List Byte)) : shown (a ++ b) = shown a ++ shown b := List.filter_append ..

theorem shown_line (line : List Byte) (h : line ≠ []) : shown [line] = [line] := by
  unfold shown
  rw [List.filter_cons_of_pos (by simpa using h)]
  rfl

theorem shown_text (l line : List Byte) (lead ended : Bool) (hne : line ≠ []) (hline : nl ∉ line) (hl : nl ∉ l)
    (hlead : lead = true ∨ l = []) :
    let t := l ++ brk lead ++ (line ++ brk ended)
    shown (lines nl t ++ [rest nl t]) = shown [l] ++ [line] := by
  have htext : shown (lines nl (line ++ brk ended) ++ [rest nl (line ++ brk ended)]) = [line] := by
    cases ended with
    | true =>
      change shown (lines nl (line ++ nl :: []) ++ [rest nl (line ++ nl :: [])]) = [line]
      rw [lines_line line [] hline, rest_line line [] hline, shown_append, lines_nil, rest_nil, shown_line line hne]
      rfl
    | false =>
      change shown (lines nl (line ++ []) ++ [rest nl (line ++ [])]) = [line]
      rw [List.append_nil, lines_of_not_mem line hline, rest_of_not_mem line hline, List.nil_append,
        shown_line line hne]
  intro t
  unfold t
  cases lead with
  | true =>
    change shown (lines nl (l ++ [nl] ++ (line ++ brk ended)) ++ [rest nl (l ++ [nl] ++ (line ++ brk ended))]) = _
    rw [List.append_assoc, List.singleton_append, lines_line l _ hl, rest_line l _ hl]
    change shown ([l] ++ (lines nl (line ++ brk ended) ++ [rest nl (line ++ brk ended)])) = _
    rw [shown_append, htext]
  | false =>
    obtain rfl : l = [] := hlead.resolve_left (by simp)
    exact htext

/-- The lines of the messages. -/
def texts {tinf : List Byte → Option (List Byte)} (calls : List (Input × Option (Message tinf))) : List (List Byte) :=
  calls.filterMap fun c => c.2.map Message.line

theorem rest_ended (a line : List Byte) : rest nl (a ++ (line ++ brk true)) = [] := by
  rw [← List.append_assoc]
  exact rest_concat (a ++ line)

theorem messages_kept {tinf : List Byte → Option (List Byte)} (hnone : tinf [] = none)
    (calls : List (Input × Option (Message tinf))) (s : Slot) (l : List Byte) (hs : Kept s l) (hl : nl ∉ l)
    (hcalls : Each (fun s c => ws_cb massage s c.1) (Delivers tinf) s calls) :
    let es := calls.map Prod.fst
    ∃ ls l', Kept (feed (ws_cb massage) s es).1 l' ∧
      List.Forall₂ (fun line out => ∃ e ∈ es, out = record e.tsp line) ls (logged (feed (ws_cb massage) s es).2) ∧
      shown (ls ++ [l']) = shown [l] ++ texts calls ∧
      (l = [] → (∀ c ∈ calls, ∀ m ∈ c.2, m.ended = true) → l' = []) := by
  induction calls generalizing s l with
  | nil =>
    refine ⟨[], l, hs, List.Forall₂.nil, ?_, fun h _ => h⟩
    exact (List.append_nil _).symm
  | cons c calls ih =>
    obtain ⟨e, m⟩ := c
    obtain ⟨⟨hfed, hdelivers⟩, hrest⟩ := hcalls
    have hpend := hs.pending
    cases m with
    | none =>
      obtain ⟨happ, hnothing⟩ := hdelivers
      obtain rfl : l = [] := hpend.symm.trans hnothing
      obtain ⟨hkept, hout⟩ := nothing_kept s e hnone hs hfed happ
      obtain ⟨ls, l', hkept', hlogged, hshown, hended⟩ := ih _ [] hkept hl hrest
      refine ⟨ls, l', hkept', ?_, hshown, fun h hall => hended h fun c hc => hall c (List.mem_cons_of_mem _ hc)⟩
      rw [List.map_cons, feed_cons]
      dsimp only
      rw [logged_append, hout, List.nil_append]
      exact hlogged.imp fun line out ⟨e, he, h⟩ => ⟨e, List.mem_cons_of_mem _ he, h⟩
    | some m =>
      obtain ⟨lead, happ, hlead⟩ := hdelivers
      have hlead' : lead = true ∨ l = [] := hlead.imp id fun h => hpend.symm.trans h.1
      obtain ⟨hkept, hout⟩ := message_kept s e l lead m hnone hs hfed happ (hlead.imp id And.right)
      have htext := shown_text l m.line lead m.ended m.line_ne m.line_nl hl hlead'
      generalize ht : l ++ brk lead ++ (m.line ++ brk m.ended) = t at hkept hout htext
      dsimp only at htext
      obtain ⟨ls, l', hkept', hlogged, hshown, hended⟩ := ih _ (rest nl t) hkept (not_mem_rest t) hrest
      refine ⟨lines nl t ++ ls, l', hkept', ?_, ?_, fun _ hall => hended ?_ fun c hc =>
        hall c (List.mem_cons_of_mem _ hc)⟩
      · rw [List.map_cons, feed_cons]
        dsimp only
        rw [logged_append, hout]
        refine List.rel_append ?_ (hlogged.imp fun line out ⟨e, he, h⟩ => ⟨e, List.mem_cons_of_mem _ he, h⟩)
        rw [List.forall₂_map_right_iff, List.forall₂_same]
        exact fun line _ => ⟨e, List.mem_cons_self, rfl⟩
      · rw [List.append_assoc, shown_append, hshown, ← List.append_assoc, ← shown_append, htext, List.append_assoc]
        rfl
      · rw [← ht, hall (e, some m) List.mem_cons_self m rfl]
        exact rest_ended _ m.line

/-- A connection whose session buffer has nothing in it, and whose messages are compressed. -/
structure Begins (s : Slot) : Prop where
  ws : ∃ ws, s.ws = some ws ∧ Good ws
  inflate : s.inflate = true
  n : s.n = INI_GBOF
  size : s.mem.size = 0 ∨ 4096 ≤ s.mem.size

/-- **Compressed messages are logged** in a run where every call delivers a whole one: those that end in a line
break at once, the others with the next message. -/
theorem compressed_logged (tinf : List Byte → Option (List Byte)) (hnone : tinf [] = none) (s : Slot)
    (calls : List (Input × Option (Message tinf))) (hs : Begins s)
    (hcalls : Each (fun s c => ws_cb massage s c.1) (Delivers tinf) s calls) :
    AllLogged s (calls.map Prod.fst) (texts calls) ∧
      ((∀ c ∈ calls, ∀ m ∈ c.2, m.ended = true) →
        pending (feed (ws_cb massage) s (calls.map Prod.fst)).1 = []) := by
  have hkept : Kept s [] := ⟨hs.ws, hs.inflate, by rw [hs.n]; exact sized_ini s.mem hs.size, hs.n, rfl⟩
  obtain ⟨ls, l', hkept', hlogged, hshown, hended⟩ := messages_kept hnone calls s [] hkept (by simp) hcalls
  refine ⟨⟨ls, hlogged, ?_⟩, fun hall => ?_⟩
  · rw [hkept'.pending]
    exact hshown
  · rw [hkept'.pending]
    exact hended rfl hall

/-! ## Stored blocks -/

/-- What `tinf_uncompress` makes of a final block that is stored as it is. -/
def stored : List Byte → Option (List Byte)
  | h :: n0 :: n1 :: c0 :: c1 :: data =>
    let len := n0.toNat + 256 * n1.toNat
    if h.toNat % 8 = 1 ∧ c0 = 255 - n0 ∧ c1 = 255 - n1 ∧ len ≤ data.length then some (data.take len) else none
  | _ => none

theorem stored_whole (n : Byte) (text rest : List Byte) (hn : n.toNat = text.length) :
    stored (1 :: n :: 0 :: (255 - n) :: 255 :: text ++ rest) = some text := by
  change (if (1 : Byte).toNat % 8 = 1 ∧ 255 - n = 255 - n ∧ (255 : Byte) = 255 - 0 ∧
    n.toNat + 256 * (0 : Byte).toNat ≤ (text ++ rest).length then
      some ((text ++ rest).take (n.toNat + 256 * (0 : Byte).toNat)) else none) = some text
  have hlen : n.toNat + 256 * (0 : Byte).toNat = text.length := by
    rw [hn]
    rfl
  rw [hlen, if_pos ⟨by decide, rfl, by decide, by simp⟩, List.take_left]

theorem stored_part (n : Byte) (text p : List Byte) (hn : n.toNat = text.length)
    (hp : p <+: 1 :: n :: 0 :: (255 - n) :: 255 :: text) (hne : p ≠ 1 :: n :: 0 :: (255 - n) :: 255 :: text) :
    stored p = none := by
  obtain ⟨q, hq⟩ := hp
  have hq0 : q ≠ [] := by
    rintro rfl
    rw [List.append_nil] at hq
    exact hne hq
  match p, hq with
  | [], _ => rfl
  | [_], _ => rfl
  | [_, _], _ => rfl
  | [_, _, _], _ => rfl
  | [_, _, _, _], _ => rfl
  | h :: n0 :: n1 :: c0 :: c1 :: data, hq =>
    simp only [List.cons_append, List.cons.injEq] at hq
    obtain ⟨-, rfl, rfl, -, -, rfl⟩ := hq
    have hpos := List.length_pos_of_ne_nil hq0
    rw [List.length_append] at hn
    refine if_neg fun hno => ?_
    have hfit := hno.2.2.2
    omega

/-- A text line as a stored block. -/
def storedMessage (n : Byte) (line : List Byte) (ended : Bool) (hn : n.toNat = (line ++ brk ended).length)
    (hne : line ≠ []) (hnl : nl ∉ line) : Message stored where
  line := line
  ended := ended
  image := 1 :: n :: 0 :: (255 - n) :: 255 :: (line ++ brk ended)
  line_ne := hne
  line_nl := hnl
  whole := fun rest => stored_whole n _ rest hn
  part := fun p => stored_part n _ p hn

def bid : Message stored := storedMessage 13 (ascii "BTCUSD 990.1") true (by decide) (by decide) (by decide)
def ask : Message stored := storedMessage 12 (ascii "BTCUSD 990.2") false (by decide) (by decide) (by decide)

/-- A connection whose feed is compressed. -/
def compressed : Slot := { connected with inflate := true }

/-- A message comes in a frame. -/
def whole (m : Message stored) : Input :=
  ⟨[0x82, UInt8.ofNat m.image.length] ++ m.image, noon, noon, 1, some (m.line ++ brk m.ended)⟩

theorem compressed_logged_two :
    AllLogged compressed [whole bid, whole ask] [bid.line, ask.line] := by
  refine (compressed_logged stored rfl compressed [(whole bid, some bid), (whole ask, some ask)]
    ⟨⟨_, rfl, good_init _⟩, rfl, rfl, Or.inl rfl⟩ ⟨⟨?_, ?_⟩, ⟨?_, ?_⟩, trivial⟩).1
  · exact ⟨logs_told _ _ (Or.inl rfl), ⟨_, rfl, 19, by decide +kernel⟩, noon_ten, by decide +kernel⟩
  · exact ⟨false, by decide +kernel, Or.inr ⟨rfl, by decide +kernel⟩⟩
  · exact ⟨logs_told _ _ (Or.inl (by decide +kernel)), ⟨_, rfl, 19, by decide +kernel⟩, noon_ten, by decide +kernel⟩
  · exact ⟨true, by decide +kernel, Or.inl rfl⟩

/-- A message comes in two reads. -/
def halves : List Input :=
  [⟨[0x82, 18] ++ bid.image.take 13, noon, noon, 1, none⟩, ⟨bid.image.drop 13, noon, noon, 1, none⟩]

/-- Neither half inflates. -/
theorem halved_message_lost :
    Each (ws_cb massage) (Fed stored) compressed halves ∧ heard compressed halves = bid.image ++ [nl] ∧
      ¬ AllLogged compressed halves [bid.line] := by
  refine ⟨⟨⟨logs_told _ _ (Or.inl rfl), ⟨_, rfl, 13, by decide +kernel⟩, noon_ten, by decide +kernel⟩,
    ⟨logs_told _ _ (Or.inl (by decide +kernel)), ⟨_, rfl, 6, by decide +kernel⟩, noon_ten, by decide +kernel⟩, trivial⟩,
    by decide +kernel, ?_⟩
  rintro ⟨ls, hlogged, hshown⟩
  have hout : logged (feed (ws_cb massage) compressed halves).2 = [] := by decide +kernel
  have hpend : pending (feed (ws_cb massage) compressed halves).1 = [] := by decide +kernel
  rw [hout] at hlogged
  cases hlogged
  rw [hpend] at hshown
  exact absurd hshown (by decide +kernel)

end Coins.Snarf
