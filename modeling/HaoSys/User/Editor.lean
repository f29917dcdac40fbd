import HaoSys.User.Readline

/-!
# What `readline` edits

The editor that `readline` implements: a line split at the cursor, at most 127
characters, and the last eight lines it has returned, without empty ones and
without consecutive repeats. `readline_refines` follows the two over any
number of calls and any turns of the loop.
-/

namespace HaoSys.User

open HaoSys.Driver

/-! ## The abstract editor -/

structure Editor where
  before : List UInt8
  after : List UInt8
  /-- Where the input starts on the screen. -/
  row : Int
  col : Int
  /-- How many lines back in the history the line was taken from. -/
  browse : Nat
  edge : Edge

/-- The last eight of a list. -/
def lastLines (lines : List (List UInt8)) : List (List UInt8) := lines.drop (lines.length - histMax)

/-- The lines returned so far, without empty ones and consecutive repeats. -/
def distinctLines (returned : List (List UInt8)) : List (List UInt8) :=
  returned.foldl
    (fun lines l => if l = [] ∨ lines.getLast? = some l then lines else lines ++ [l]) []

/-- The history after these lines were returned. -/
def historyOf (returned : List (List UInt8)) : List (List UInt8) :=
  lastLines (distinctLines returned)

/-- The `i`-th most recent line. -/
def recent (history : List (List UInt8)) (i : Nat) : List UInt8 :=
  history.getD (history.length - i) []

inductive Outcome where
  | editing (e : Editor)
  | returned (line : List UInt8)

namespace Editor

def line (e : Editor) : List UInt8 := e.before ++ e.after

/-- The cursor behind the first `n` characters. -/
def place (e : Editor) (n : Nat) : Editor :=
  { e with before := e.line.take n, after := e.line.drop n }

/-- The screen goes up until `n` characters fit. -/
def room (e : Editor) (n : Nat) : Editor :=
  { e with row := min e.row (vgaHeight - 1 - (e.col + n).tdiv lineWidth) }

/-- The `i`-th most recent line of the history. -/
def fetch (e : Editor) (history : List (List UInt8)) (i : Nat) : Editor :=
  { e with before := recent history i, after := [], browse := i }.room (lineSize - 1)

/-- The offset of a place on the screen from the start of the input, in the line. -/
def offset (e : Editor) (x y : Int) : Nat :=
  min (max ((y - e.row) * lineWidth + (x - e.col)) 0).toNat e.line.length

/-- A click on the rows of the line. -/
def click (e : Editor) (x y : Int) : Editor :=
  if e.row ≤ y ∧ y ≤ e.row + (e.col + e.line.length).tdiv lineWidth then e.place (e.offset x y)
  else e

def mouse (e : Editor) (m : Option (Int × Int × UInt32)) : Editor :=
  match m with
  | none => e
  | some (mx, my, mb) =>
    let (edge, clicked) := e.edge.next mx my mb
    match clicked with
    | none => { e with edge }
    | some (x, y) => { e with edge }.click x y

def insert (e : Editor) (c : UInt8) : Editor :=
  if e.line.length < lineSize - 1 then
    { e with before := e.before ++ [c] }.room (e.line.length + 1)
  else e

def backspace (e : Editor) : Editor :=
  if e.before = [] then e else { e with before := e.before.dropLast }.room (e.line.length - 1)

/-- One line further back. -/
def up (e : Editor) (history : List (List UInt8)) : Editor :=
  if e.browse < history.length then e.fetch history (e.browse + 1) else e

/-- One line further on; in front of the most recent one is the empty line. -/
def down (e : Editor) (history : List (List UInt8)) : Editor :=
  if e.browse = 0 then e
  else if e.browse = 1 then { e with before := [], after := [], browse := 0 }.room 0
  else e.fetch history (e.browse - 1)

def key (e : Editor) (history : List (List UInt8)) (c : Int) : Outcome :=
  if c = 0x01 then .editing (e.up history)
  else if c = 0x02 then .editing (e.down history)
  else if c = 0x03 then .editing (e.place (e.before.length - 1))
  else if c = 0x04 then .editing (e.place (e.before.length + 1))
  else if c = 0x0A ∨ c = 0x0D then .returned e.line
  else if c = 0x08 then .editing e.backspace
  else if c ≥ 0x20 ∧ c ≤ 0x7E then .editing (e.insert (UInt8.ofNat c.toNat))
  else .editing e

/-- A turn of the loop. -/
def poll (e : Editor) (history : List (List UInt8)) (p : Poll) : Outcome :=
  if p.key = -1 then .editing (e.mouse p.mouse) else (e.mouse p.mouse).key history p.key

def start (row col : Int) : Editor := ⟨[], [], row, col, 0, ⟨false, 0, 0⟩⟩

end Editor

/-! ## Sessions -/

/-- `readline` is called, with any bytes in `buf` and the cursor anywhere, or its loop turns. -/
inductive Event where
  | call (buf : Buf) (row col : Int)
  | poll (p : Poll)

/-- The shell between and inside calls, and the lines returned so far. -/
structure Session where
  shell : Shell
  line : Option Readline
  returned : List (List UInt8)

namespace Session

/-- The shell before its first call. -/
def init : Session := ⟨⟨fun _ _ => 0, 0, 0⟩, none, []⟩

def step (s : Session) (ev : Event) : Option Session :=
  match s.line, ev with
  | none, .call buf row col => do
    let r ← Readline.start buf row col
    pure { s with line := some r }
  | some r, .poll p => do
    let e ← r.poll s.shell p
    match e.status with
    | .editing r => pure { s with shell := e.shell, line := some r }
    | .returned buf len =>
      pure ⟨e.shell, none, s.returned ++ [(List.range len).map buf]⟩
  | _, _ => some s

def run (s : Session) (evs : List Event) : Option Session := evs.foldlM step s

end Session

/-- The same with the abstract editor; the history is a function of the returned lines. -/
structure Spec where
  editor : Option Editor
  returned : List (List UInt8)

namespace Spec

def init : Spec := ⟨none, []⟩

def step (s : Spec) (ev : Event) : Spec :=
  match s.editor, ev with
  | none, .call _ row col => { s with editor := some (Editor.start row col) }
  | some e, .poll p =>
    match e.poll (historyOf s.returned) p with
    | .editing e => { s with editor := some e }
    | .returned line => ⟨none, s.returned ++ [line]⟩
  | _, _ => s

def run (s : Spec) (evs : List Event) : Spec := evs.foldl step s

end Spec

/-! ## Buffers that hold a line -/

/-- The first bytes of the buffer are the line. -/
def Buf.Shows (b : Buf) (l : List UInt8) : Prop := ∀ j, j < l.length → l[j]? = some (b j)

/-- A line that a string of the editor can be. -/
structure LineOk (l : List UInt8) : Prop where
  length : l.length ≤ 127
  noNul : (0 : UInt8) ∉ l

theorem Buf.Shows.map_range {b : Buf} {l : List UInt8} (h : b.Shows l) :
    (List.range l.length).map b = l := by
  apply List.ext_getElem?
  intro j
  by_cases hj : j < l.length
  · rw [h j hj, List.getElem?_map, List.getElem?_range hj]
    rfl
  · rw [List.getElem?_eq_none (by simpa using hj), List.getElem?_eq_none (by omega)]

/-- The string of a buffer with a line and a NUL behind it. -/
theorem Buf.Shows.string {b : Buf} {l : List UInt8} (h : b.Shows l) (hl : LineOk l)
    (hnul : b l.length = 0) : b.string = l := by
  have hsplit : lineSize = l.length + ((127 - l.length) + 1) := by
    have := hl.length
    change 128 = _
    omega
  unfold Buf.string
  rw [hsplit, List.range_add, List.map_append, h.map_range, List.takeWhile_append_of_pos]
  · rw [List.range_succ_eq_map, List.map_cons, List.map_cons, Nat.add_zero,
      List.takeWhile_cons_of_neg (by simp [hnul]), List.append_nil]
  · intro c hc
    simpa using fun he : c = 0 => hl.noNul (he ▸ hc)

theorem Buf.Shows.congr {b b' : Buf} {l : List UInt8} (h : b.Shows l)
    (hb : ∀ j, j < l.length → b' j = b j) : b'.Shows l := by
  intro j hj
  rw [hb j hj]
  exact h j hj

theorem Buf.store_of_lt {b : Buf} {i : Nat} {c : UInt8} (h : i < 128) :
    b.store i c = some (Function.update b i c) := if_pos h

theorem shiftRight_spec {start n : Nat} (h : start + n < 128) (b : Buf) :
    ∃ b', shiftRight b start n = some b' ∧
      ∀ j, b' j = if start < j ∧ j ≤ start + n then b (j - 1) else b j := by
  induction n generalizing b with
  | zero =>
    refine ⟨b, rfl, fun j => ?_⟩
    rw [if_neg (by omega)]
  | succ n ih =>
    obtain ⟨b', hb', hj⟩ := ih (by omega) (Function.update b (start + n + 1) (b (start + n)))
    refine ⟨b', ?_, fun j => ?_⟩
    · rw [shiftRight, Buf.store_of_lt (by omega)]
      exact hb'
    · rw [hj]
      by_cases hlast : j = start + n + 1
      · rw [if_neg (by omega), if_pos (by omega), hlast, Function.update_self]
        rfl
      · by_cases hin : start < j ∧ j ≤ start + n
        · rw [if_pos hin, if_pos (by omega), Function.update_of_ne (by omega)]
        · rw [if_neg hin, if_neg (by omega), Function.update_of_ne hlast]

theorem shiftLeft_spec {start i n : Nat} (h1 : 1 ≤ start) (h : start + i + n ≤ 128) (b : Buf) :
    ∃ b', shiftLeft b start i n = some b' ∧
      ∀ j, b' j = if start + i - 1 ≤ j ∧ j < start + i + n - 1 then b (j + 1) else b j := by
  induction n generalizing b i with
  | zero =>
    refine ⟨b, rfl, fun j => ?_⟩
    rw [if_neg (by omega)]
  | succ n ih =>
    obtain ⟨b', hb', hj⟩ := ih (i := i + 1) (by omega)
      (Function.update b (start + i - 1) (b (start + i)))
    refine ⟨b', ?_, fun j => ?_⟩
    · rw [shiftLeft, Buf.store_of_lt (by omega)]
      exact hb'
    · rw [hj]
      by_cases hfirst : j = start + i - 1
      · rw [if_neg (by omega), if_pos (by omega), hfirst, Function.update_self,
          show start + i - 1 + 1 = start + i by omega]
      · by_cases hin : start + (i + 1) - 1 ≤ j ∧ j < start + (i + 1) + n - 1
        · rw [if_pos hin, if_pos (by omega), Function.update_of_ne (by omega)]
        · rw [if_neg hin, if_neg (by omega), Function.update_of_ne hfirst]

/-- The NUL behind a line that has been copied. -/
theorem store_nul {l : List UInt8} {dst : Buf} (hl : LineOk l) (hdst : dst.Shows l) :
    ∃ d, dst.store l.length 0 = some d ∧ d.Shows l ∧ d l.length = 0 := by
  have hlen := hl.length
  refine ⟨_, Buf.store_of_lt (by omega), ?_, Function.update_self ..⟩
  exact hdst.congr fun j hj => Function.update_of_ne (by omega) ..

/-- Copying a string, from index `k` on. -/
theorem copyLine_spec {src : Buf} {l : List UInt8} (hl : LineOk l) (hsrc : src.Shows l)
    (hnul : src l.length = 0) {k n : Nat} (hk : k ≤ l.length) (hn : k + n = 127) (dst : Buf)
    (hdst : ∀ j, j < k → l[j]? = some (dst j)) :
    ∃ d, copyLine src dst k n = some (l.length, d) ∧ d.Shows l ∧ d l.length = 0 := by
  have hlen := hl.length
  induction n generalizing k dst with
  | zero =>
    obtain rfl : k = l.length := by omega
    obtain ⟨d, hd, hshow⟩ := store_nul hl hdst
    refine ⟨d, ?_, hshow⟩
    rw [copyLine, hd]
    rfl
  | succ n ih =>
    unfold copyLine
    by_cases hz : src k = 0
    · have hkl : k = l.length := by
        by_contra hne
        have hmem := List.mem_of_getElem? (hsrc k (by omega))
        exact hl.noNul (hz ▸ hmem)
      subst hkl
      obtain ⟨d, hd, hshow⟩ := store_nul hl hdst
      refine ⟨d, ?_, hshow⟩
      rw [if_pos hz, hd]
      rfl
    · have hlt : k < l.length := by
        by_contra hge
        exact hz ((show k = l.length by omega) ▸ hnul)
      rw [if_neg hz, Buf.store_of_lt (by omega)]
      refine ih hlt (by omega) _ fun j hj => ?_
      by_cases hjk : j = k
      · rw [hjk, Function.update_self]
        exact hsrc k hlt
      · rw [Function.update_of_ne hjk]
        exact hdst j (by omega)

/-- The buffer holds the line as a string. -/
structure Buf.Holds (b : Buf) (l : List UInt8) : Prop where
  ok : LineOk l
  shows : b.Shows l
  nul : b l.length = 0

theorem Buf.Holds.string {b : Buf} {l : List UInt8} (h : b.Holds l) : b.string = l :=
  h.shows.string h.ok h.nul

theorem Buf.Holds.copyLine {src : Buf} {l : List UInt8} (h : src.Holds l) (dst : Buf) :
    ∃ d, copyLine src dst 0 (lineSize - 1) = some (l.length, d) ∧ d.Holds l := by
  obtain ⟨d, hd, hshow, hnul⟩ := copyLine_spec h.ok h.shows h.nul (Nat.zero_le _)
    (Nat.zero_add 127) dst fun j hj => absurd hj (by omega)
  exact ⟨d, hd, h.ok, hshow, hnul⟩

/-! ## The history -/

/-- The history after one more line. -/
def pushLine (history : List (List UInt8)) (l : List UInt8) : List (List UInt8) :=
  if l = [] ∨ history.getLast? = some l then history else lastLines (history ++ [l])

theorem lastLines_append (d : List (List UInt8)) (l : List UInt8) :
    lastLines (lastLines d ++ [l]) = lastLines (d ++ [l]) := by
  have h8 : histMax = 8 := rfl
  unfold lastLines
  rw [← List.drop_append_of_le_length (by omega : d.length - histMax ≤ d.length), List.drop_drop]
  congr 1
  simp only [List.length_drop, List.length_append, List.length_singleton]
  omega

theorem getLast?_lastLines (d : List (List UInt8)) : (lastLines d).getLast? = d.getLast? := by
  have h8 : histMax = 8 := rfl
  unfold lastLines
  rw [List.getLast?_drop]
  split
  · next hle =>
    have hnil : d = [] := List.length_eq_zero_iff.1 (by omega)
    rw [hnil]
    rfl
  · rfl

theorem historyOf_append (returned : List (List UInt8)) (l : List UInt8) :
    historyOf (returned ++ [l]) = pushLine (historyOf returned) l := by
  unfold historyOf pushLine distinctLines
  rw [List.foldl_append, List.foldl_cons, List.foldl_nil, getLast?_lastLines]
  split
  · rfl
  · rw [lastLines_append]

/-- The table holds these lines, the most recent one last. -/
structure Shell.Recalls (sh : Shell) (history : List (List UInt8)) : Prop where
  count : sh.histCount = history.length
  max : history.length ≤ 8
  lines : ∀ i l, history[i]? = some l → (sh.history i).Holds l

/-- The line at an index. -/
theorem Shell.Recalls.holds {sh : Shell} {history : List (List UInt8)} (h : sh.Recalls history)
    {i : Nat} (hi : i < history.length) : (sh.history i).Holds (history.getD i []) := by
  refine h.lines i _ ?_
  rw [List.getD_eq_getElem?_getD, List.getElem?_eq_getElem hi]
  rfl

/-- Moving lines down, by induction on their number: a line is read before it is replaced. -/
theorem shiftHistory_spec {n h : Nat} (hn : h + n ≤ 7) {table : Nat → Buf}
    {lines : Nat → List UInt8} (hold : ∀ j, h ≤ j → j ≤ h + n → (table j).Holds (lines j)) :
    ∃ table', shiftHistory table h n = some table' ∧
      (∀ j, h ≤ j → j < h + n → (table' j).Holds (lines (j + 1))) ∧
      ∀ j, j < h → table' j = table j := by
  induction n generalizing h table with
  | zero => exact ⟨table, rfl, fun j h1 h2 => absurd h2 (by omega), fun j _ => rfl⟩
  | succ n ih =>
    obtain ⟨d, hd, hdl⟩ := (hold (h + 1) (by omega) (by omega)).copyLine (table h)
    have hnext : ∀ j, h + 1 ≤ j → j ≤ h + 1 + n →
        (Function.update table h d j).Holds (lines j) := by
      intro j h1 h2
      rw [Function.update_of_ne (by omega)]
      exact hold j (by omega) (by omega)
    obtain ⟨table', hrun, hmoved, hkept⟩ := ih (by omega) hnext
    have hrow : h < histMax := by
      change h < 8
      omega
    refine ⟨table', ?_, fun j h1 h2 => ?_, fun j hj => ?_⟩
    · rw [shiftHistory, hd]
      simp only [storeLine, if_pos hrow]
      exact hrun
    · by_cases hj : j = h
      · rw [hj, hkept h (by omega), Function.update_self]
        exact hdl
      · exact hmoved j (by omega) (by omega)
    · rw [hkept j (by omega), Function.update_of_ne (by omega)]

/-- One more line in a table that is not full. -/
theorem Shell.Recalls.push {sh : Shell} {history : List (List UInt8)} (h : sh.Recalls history)
    (hfull : history.length < 8) {d : Buf} {l : List UInt8} (hd : d.Holds l) :
    { sh with
      history := Function.update sh.history sh.histCount d
      histCount := sh.histCount + 1 : Shell }.Recalls (history ++ [l]) := by
  have hcount := h.count
  refine ⟨?_, ?_, fun i l' hi => ?_⟩
  · simp [hcount]
  · rw [List.length_append, List.length_singleton]
    omega
  · simp only
    by_cases hi' : i < history.length
    · rw [List.getElem?_append_left hi'] at hi
      rw [Function.update_of_ne (by omega)]
      exact h.lines i l' hi
    · have hlt := (List.getElem?_eq_some_iff.1 hi).1
      rw [List.length_append, List.length_singleton] at hlt
      obtain rfl : i = history.length := by omega
      rw [List.getElem?_append_right (Nat.le_refl _), Nat.sub_self] at hi
      obtain rfl := Option.some.inj hi
      rw [hcount, Function.update_self]
      exact hd

/-- A line behind the others of a full table, once these were moved down. -/
theorem Shell.Recalls.replace {sh : Shell} {history : List (List UInt8)} (h : sh.Recalls history)
    (hlen : history.length = 8) {table : Nat → Buf}
    (hmoved : ∀ j, j < 7 → (table j).Holds (history.getD (j + 1) [])) {d : Buf} {l : List UInt8}
    (hd : d.Holds l) :
    { sh with history := Function.update table 7 d : Shell }.Recalls (history.drop 1 ++ [l]) := by
  refine ⟨?_, ?_, fun i l' hi => ?_⟩
  · simp [h.count, hlen]
  · simp [hlen]
  · simp only
    have hlt := (List.getElem?_eq_some_iff.1 hi).1
    rw [List.length_append, List.length_singleton, List.length_drop, hlen] at hlt
    by_cases hi' : i < 7
    · rw [List.getElem?_append_left (by rw [List.length_drop]; omega), List.getElem?_drop,
        Nat.add_comm] at hi
      have hm := hmoved i hi'
      rw [List.getD_eq_getElem?_getD, hi] at hm
      rw [Function.update_of_ne (by omega)]
      exact hm
    · obtain rfl : i = 7 := by omega
      rw [List.getElem?_append_right (by rw [List.length_drop]; omega), List.length_drop,
        hlen] at hi
      obtain rfl := Option.some.inj hi
      rw [Function.update_self]
      exact hd

/-- `hist_add` keeps the last eight lines. -/
theorem Shell.Recalls.histAdd {sh : Shell} {history : List (List UInt8)} (h : sh.Recalls history)
    {line : Buf} {l : List UInt8} (hl : line.Holds l) :
    ∃ sh', histAdd sh line = some sh' ∧ sh'.histPos = sh.histPos ∧
      sh'.Recalls (pushLine history l) := by
  have h8 : histMax = 8 := rfl
  have hcount := h.count
  have hmax := h.max
  -- the test against the last line
  have hlast : sh.histCount > 0 ∧ (sh.history (sh.histCount - 1)).string = l ↔
      history.getLast? = some l := by
    rw [List.getLast?_eq_getElem?, hcount]
    constructor
    · rintro ⟨hpos, hs⟩
      have hrow := h.lines (history.length - 1) _ (List.getElem?_eq_getElem (by omega))
      rw [hrow.string] at hs
      rw [List.getElem?_eq_getElem (by omega), hs]
    · intro he
      have hlt := (List.getElem?_eq_some_iff.1 he).1
      exact ⟨by omega, (h.lines _ _ he).string⟩
  unfold User.histAdd pushLine
  rw [hl.string]
  by_cases hnil : l = []
  · rw [if_pos hnil, if_pos (.inl hnil)]
    exact ⟨sh, rfl, rfl, h⟩
  rw [if_neg hnil]
  by_cases hsame : history.getLast? = some l
  · rw [if_pos (hlast.2 hsame), if_pos (.inr hsame)]
    exact ⟨sh, rfl, rfl, h⟩
  rw [if_neg (fun hc => hsame (hlast.1 hc)), if_neg (not_or.2 ⟨hnil, hsame⟩)]
  by_cases hfull : sh.histCount < histMax
  · obtain ⟨d, hd, hdl⟩ := hl.copyLine (sh.history sh.histCount)
    have hall : lastLines (history ++ [l]) = history ++ [l] := by
      unfold lastLines
      rw [List.length_append, List.length_singleton, show history.length + 1 - histMax = 0 by omega]
      rfl
    rw [if_pos hfull, hd, hall]
    simp only [Option.bind_eq_bind, Option.bind_some, storeLine, if_pos hfull]
    exact ⟨_, rfl, rfl, h.push (by omega) hdl⟩
  · have hlen : history.length = 8 := by omega
    have hheld : ∀ j, 0 ≤ j → j ≤ 0 + 7 → (sh.history j).Holds (history.getD j []) :=
      fun j _ hj => h.holds (by omega)
    obtain ⟨table, hrun, hmoved, -⟩ := shiftHistory_spec (by omega) hheld
    obtain ⟨d, hd, hdl⟩ := hl.copyLine (table 7)
    have hdrop : lastLines (history ++ [l]) = history.drop 1 ++ [l] := by
      unfold lastLines
      rw [List.length_append, List.length_singleton, hlen, show 8 + 1 - histMax = 1 from rfl,
        List.drop_append_of_le_length (by omega)]
    have hrow : (7 : Nat) < histMax := by decide
    rw [if_neg hfull, hdrop]
    simp only [show histMax - 1 = 7 from rfl, hrun, hd, Option.bind_eq_bind, Option.bind_some,
      storeLine, if_pos hrow]
    exact ⟨_, rfl, rfl, h.replace hlen (fun j hj => hmoved j (Nat.zero_le _) (by omega)) hdl⟩

/-! ## One turn -/

/-- The variables of `readline` stand for the editor. -/
structure Readline.Edits (r : Readline) (e : Editor) : Prop where
  pos : r.pos = e.before.length
  len : r.len = e.line.length
  ok : LineOk e.line
  text : r.buf.Shows e.line
  row : r.startRow = e.row
  col : r.startCol = e.col
  edge : r.edge = e.edge

/-- With the history, and the place in it. -/
structure Tracks (sh : Shell) (r : Readline) (history : List (List UInt8)) (e : Editor) : Prop where
  edits : r.Edits e
  recalls : sh.Recalls history
  browse : sh.histPos = e.browse
  browseLe : e.browse ≤ history.length

/-- What a turn gives, on both levels. -/
def Effect.Refines (eff : Effect) (history : List (List UInt8)) (o : Outcome) : Prop :=
  match eff.status, o with
  | .editing r, .editing e => Tracks eff.shell r history e
  | .returned buf len, .returned l =>
    len = l.length ∧ buf.Holds l ∧ eff.shell.Recalls (pushLine history l) ∧ eff.shell.histPos = 0
  | _, _ => False

theorem ensureEditSpace_row (row col : Int) (n : Nat) :
    (ensureEditSpace row col n).1 = min row (vgaHeight - 1 - (col + n).tdiv lineWidth) := by
  fun_induction ensureEditSpace row col n with
  | case1 row h row' ops he ih =>
    simp only [he] at ih ⊢
    rw [ih]
    omega
  | case2 row h =>
    simp only
    omega

section Turn

variable {sh : Shell} {r : Readline} {history : List (List UInt8)} {e : Editor}

theorem Readline.Edits.redraw (h : r.Edits e) (n : Nat) : (r.redraw n).1.Edits (e.room n) := by
  refine ⟨h.pos, h.len, h.ok, h.text, ?_, h.col, h.edge⟩
  change (ensureEditSpace r.startRow r.startCol n).1 = _
  rw [ensureEditSpace_row, h.row, h.col]
  rfl

theorem Editor.line_place (e : Editor) (n : Nat) : (e.place n).line = e.line :=
  List.take_append_drop n e.line

/-- Moving the cursor. -/
theorem Readline.Edits.place (h : r.Edits e) {n : Nat} (hn : n ≤ e.line.length) :
    { r with pos := n }.Edits (e.place n) := by
  have hline := e.line_place n
  refine ⟨?_, by rw [hline]; exact h.len, by rw [hline]; exact h.ok, by rw [hline]; exact h.text,
    h.row, h.col, h.edge⟩
  change n = (e.line.take n).length
  rw [List.length_take, Nat.min_eq_left hn]

theorem Tracks.place (h : Tracks sh r history e) {n : Nat} (hn : n ≤ e.line.length) :
    Tracks sh { r with pos := n } history (e.place n) :=
  ⟨h.edits.place hn, h.recalls, h.browse, h.browseLe⟩

theorem Editor.place_self (e : Editor) : e.place e.before.length = e := by
  unfold Editor.place Editor.line
  rw [List.take_left, List.drop_left]

theorem Editor.before_le (e : Editor) : e.before.length ≤ e.line.length := by
  unfold Editor.line
  rw [List.length_append]
  omega

/-- Beyond the end is the end. -/
theorem Editor.place_of_le (e : Editor) {n : Nat} (h : e.line.length ≤ n) :
    e.place n = e.place e.line.length := by
  unfold Editor.place
  rw [List.take_of_length_le h, List.drop_eq_nil_of_le h, List.take_length, List.drop_length]

theorem Readline.Edits.click (h : r.Edits e) (x y : Int) : (r.click x y).1.Edits (e.click x y) := by
  have hlen := h.len
  unfold Readline.click Editor.click
  rw [h.row, h.col, hlen]
  by_cases hin : e.row ≤ y ∧ y ≤ e.row + (e.col + e.line.length).tdiv lineWidth
  · rw [if_pos hin, if_pos (by omega)]
    have hoff : ∀ off : Int, (if (if off < 0 then 0 else off) > (e.line.length : Int)
        then (e.line.length : Int) else if off < 0 then 0 else off).toNat =
        min (max off 0).toNat e.line.length := by
      intro off
      split <;> split <;> omega
    have hplace := h.place (n := e.offset x y) (Nat.min_le_right _ _)
    rw [h.row, h.col, hlen] at hplace
    simp only [hoff]
    exact hplace
  · rw [if_neg hin, if_neg (by omega)]
    exact h

theorem Tracks.pollMouse (h : Tracks sh r history e) (m : Option (Int × Int × UInt32)) :
    Tracks sh (r.pollMouse m).1 history (e.mouse m) := by
  have he := h.edits
  have hedge := he.edge
  unfold Readline.pollMouse Editor.mouse
  cases m with
  | none => exact h
  | some m =>
    obtain ⟨mx, my, mb⟩ := m
    simp only [hedge]
    have hset : { r with edge := (e.edge.next mx my mb).1 }.Edits
        { e with edge := (e.edge.next mx my mb).1 } :=
      ⟨he.pos, he.len, he.ok, he.text, he.row, he.col, rfl⟩
    cases (e.edge.next mx my mb).2 with
    | none => exact ⟨hset, h.recalls, h.browse, h.browseLe⟩
    | some c =>
      refine ⟨hset.click c.1 c.2, h.recalls, h.browse.trans ?_, ?_⟩
      · change _ = (Editor.click _ _ _).browse
        unfold Editor.click
        split <;> rfl
      · change (Editor.click _ _ _).browse ≤ _
        unfold Editor.click
        split <;> exact h.browseLe

/-- A line from the history. -/
theorem Tracks.histApply (h : Tracks sh r history e) {i : Nat} (h1 : 1 ≤ i)
    (hi : i ≤ history.length) :
    ∃ buf k, r.histApply { sh with histPos := i } i =
        some ({ r with buf, pos := k, len := k }.redraw (lineSize - 1)) ∧
      Tracks { sh with histPos := i } ({ r with buf, pos := k, len := k }.redraw (lineSize - 1)).1
        history (e.fetch history i) := by
  have hcount := h.recalls.count
  have hrow := h.recalls.holds (i := history.length - i) (by omega)
  obtain ⟨d, hd, hdl⟩ := hrow.copyLine r.buf
  have he := h.edits
  have hnew : { r with
      buf := d
      pos := (history.getD (history.length - i) []).length
      len := (history.getD (history.length - i) []).length : Readline }.Edits
      { e with before := recent history i, after := [], browse := i } := by
    have hline : ({ e with before := recent history i, after := [], browse := i } : Editor).line =
        history.getD (history.length - i) [] := List.append_nil _
    refine ⟨rfl, ?_, ?_, ?_, he.row, he.col, he.edge⟩
    · rw [hline]
    · rw [hline]
      exact hdl.ok
    · rw [hline]
      exact hdl.shows
  refine ⟨d, _, ?_, hnew.redraw _, ⟨hcount, h.recalls.max, h.recalls.lines⟩, rfl, hi⟩
  unfold Readline.histApply
  simp only [hcount, hd, Option.bind_eq_bind, Option.bind_some]
  rfl

/-- The empty line. -/
theorem Tracks.clearLine (h : Tracks sh r history e) :
    Tracks { sh with histPos := 0 }
      ({ r with buf := Function.update r.buf 0 0, pos := 0, len := 0 }.redraw 0).1 history
      ({ e with before := [], after := [], browse := 0 }.room 0) := by
  have he := h.edits
  refine ⟨?_, ⟨h.recalls.count, h.recalls.max, h.recalls.lines⟩, rfl, Nat.zero_le _⟩
  apply Readline.Edits.redraw
  exact ⟨rfl, rfl, ⟨Nat.zero_le _, List.not_mem_nil⟩, fun j hj => absurd hj (Nat.not_lt_zero j),
    he.row, he.col, he.edge⟩

/-- Backspace: the byte before the cursor goes. -/
theorem Tracks.backspace (h : Tracks sh r history e) (hpos : 0 < r.pos) :
    ∃ buf, shiftLeft r.buf r.pos 0 (r.len - r.pos) = some buf ∧
      Tracks sh ({ r with buf, pos := r.pos - 1, len := r.len - 1 }.redraw (r.len - 1)).1 history
        e.backspace := by
  have he := h.edits
  have hp := he.pos
  have hl := he.len
  have hok := he.ok.length
  have hle := e.before_le
  have hne : e.before ≠ [] := by
    intro hnil
    rw [hnil] at hp
    exact absurd hp (by simp only [List.length_nil]; omega)
  obtain ⟨b, hb, hbj⟩ := @shiftLeft_spec r.pos 0 (r.len - r.pos) hpos (by omega) r.buf
  have hdrop : e.before.dropLast.length = e.before.length - 1 := List.length_dropLast
  have hsplit : e.before = e.before.dropLast ++ [e.before.getLast hne] :=
    (List.dropLast_append_getLast hne).symm
  have hlen :
      ({ e with before := e.before.dropLast } : Editor).line.length = e.line.length - 1 := by
    simp only [Editor.line, List.length_append, hdrop]
    simp only [Editor.line, List.length_append] at hle
    omega
  refine ⟨b, hb, ?_, h.recalls, ?_, ?_⟩
  · unfold Editor.backspace
    rw [if_neg hne, ← hl]
    apply Readline.Edits.redraw
    refine ⟨?_, ?_, ⟨?_, ?_⟩, ?_, he.row, he.col, he.edge⟩
    · simp only [hdrop]
      omega
    · rw [hlen]
      simp only
      omega
    · rw [hlen]
      omega
    · intro hmem
      refine he.ok.noNul ?_
      rcases List.mem_append.1 hmem with hm | hm
      · exact List.mem_append_left _ (List.dropLast_subset _ hm)
      · exact List.mem_append_right _ hm
    · intro j hj
      rw [hlen] at hj
      simp only
      rw [hbj]
      by_cases hbefore : j < e.before.length - 1
      · rw [if_neg (by omega), ← he.text j (by omega)]
        simp only [Editor.line]
        rw [List.getElem?_append_left (by omega), List.getElem?_append_left (by omega),
          List.getElem?_dropLast, if_pos hbefore]
      · rw [if_pos (by omega), ← he.text (j + 1) (by omega)]
        simp only [Editor.line]
        rw [List.getElem?_append_right (by omega), List.getElem?_append_right (by omega), hdrop]
        congr 1
        omega
  · rw [h.browse]
    unfold Editor.backspace
    split <;> rfl
  · have := h.browseLe
    unfold Editor.backspace
    split <;> exact this

/-- A character at the cursor. -/
theorem Tracks.insert (h : Tracks sh r history e) (hroom : r.len < lineSize - 1) {c : UInt8}
    (hc : c ≠ 0) :
    ∃ b buf, shiftRight r.buf r.pos (r.len - r.pos) = some b ∧ b.store r.pos c = some buf ∧
      Tracks sh ({ r with buf, pos := r.pos + 1, len := r.len + 1 }.redraw (r.len + 1)).1 history
        (e.insert c) := by
  have he := h.edits
  have hp := he.pos
  have hl := he.len
  have hle := e.before_le
  have h127 : r.len < 127 := hroom
  obtain ⟨b, hb, hbj⟩ := @shiftRight_spec r.pos (r.len - r.pos) (by omega) r.buf
  have hlen : ({ e with before := e.before ++ [c] } : Editor).line.length = e.line.length + 1 := by
    simp only [Editor.line, List.length_append, List.length_singleton]
    omega
  refine ⟨b, _, hb, Buf.store_of_lt (by omega), ?_, h.recalls, ?_, ?_⟩
  · unfold Editor.insert
    rw [if_pos (by rw [← hl]; exact hroom), ← hl]
    apply Readline.Edits.redraw
    refine ⟨?_, ?_, ⟨?_, ?_⟩, ?_, he.row, he.col, he.edge⟩
    · simp only [List.length_append, List.length_singleton]
      omega
    · rw [hlen]
      simp only
      omega
    · rw [hlen]
      omega
    · intro hmem
      simp only [Editor.line, List.mem_append, List.mem_singleton] at hmem
      rcases hmem with (hm | hm) | hm
      · exact he.ok.noNul (List.mem_append_left _ hm)
      · exact hc hm.symm
      · exact he.ok.noNul (List.mem_append_right _ hm)
    · intro j hj
      rw [hlen] at hj
      simp only
      by_cases hself : j = r.pos
      · rw [hself, Function.update_self, hp]
        simp only [Editor.line]
        rw [List.getElem?_append_left (by simp), List.getElem?_append_right (Nat.le_refl _),
          Nat.sub_self]
        rfl
      · rw [Function.update_of_ne hself, hbj]
        by_cases hbefore : j < e.before.length
        · rw [if_neg (by omega), ← he.text j (by omega)]
          simp only [Editor.line]
          rw [List.getElem?_append_left (by simp; omega), List.getElem?_append_left (by omega),
            List.getElem?_append_left (by omega)]
        · rw [if_pos (by omega), ← he.text (j - 1) (by omega)]
          simp only [Editor.line]
          rw [List.getElem?_append_right (by simp; omega), List.getElem?_append_right (by omega)]
          congr 1
          simp only [List.length_append, List.length_singleton]
          omega
  · rw [h.browse]
    unfold Editor.insert
    split <;> rfl
  · have := h.browseLe
    unfold Editor.insert
    split <;> exact this

/-- **A key**, one case for each. -/
theorem Tracks.pressKey (h : Tracks sh r history e) (c : Int) :
    ∃ eff, r.pressKey sh c = some eff ∧ eff.Refines history (e.key history c) := by
  have he := h.edits
  have hpos := he.pos
  have hlen := he.len
  have hle := e.before_le
  have hbrowse := h.browse
  have hcount := h.recalls.count
  unfold Readline.pressKey Editor.key
  by_cases hup : c = 0x01
  · rw [if_pos hup, if_pos hup]
    unfold Editor.up
    by_cases hmore : e.browse < history.length
    · rw [if_pos hmore, if_pos (by omega), hbrowse]
      obtain ⟨buf, k, hrun, ht⟩ := h.histApply (i := e.browse + 1) (by omega) hmore
      simp only [hrun, Option.bind_eq_bind, Option.bind_some]
      exact ⟨_, rfl, ht⟩
    · rw [if_neg hmore, if_neg (by omega)]
      exact ⟨_, rfl, h⟩
  rw [if_neg hup, if_neg hup]
  by_cases hdown : c = 0x02
  · rw [if_pos hdown, if_pos hdown]
    unfold Editor.down
    by_cases hzero : e.browse = 0
    · rw [if_pos hzero, if_neg (by omega)]
      exact ⟨_, rfl, h⟩
    rw [if_neg hzero, if_pos (by omega), hbrowse]
    by_cases hone : e.browse = 1
    · rw [if_pos hone]
      simp only [hone, Nat.sub_self, if_true]
      exact ⟨_, rfl, h.clearLine⟩
    · rw [if_neg hone]
      have hne : e.browse - 1 ≠ 0 := by omega
      have hbl := h.browseLe
      obtain ⟨buf, k, hrun, ht⟩ := h.histApply (i := e.browse - 1) (by omega) (by omega)
      simp only [hne, if_false, hrun, Option.bind_eq_bind, Option.bind_some]
      exact ⟨_, rfl, ht⟩
  rw [if_neg hdown, if_neg hdown]
  by_cases hleft : c = 0x03
  · rw [if_pos hleft, if_pos hleft]
    by_cases hp : r.pos > 0
    · rw [if_pos hp, ← hpos]
      exact ⟨_, rfl, h.place (by omega)⟩
    · rw [if_neg hp, show e.before.length - 1 = e.before.length by omega, e.place_self]
      exact ⟨_, rfl, h⟩
  rw [if_neg hleft, if_neg hleft]
  by_cases hright : c = 0x04
  · rw [if_pos hright, if_pos hright]
    by_cases hp : r.pos < r.len
    · rw [if_pos hp, ← hpos]
      exact ⟨_, rfl, h.place (by omega)⟩
    · rw [if_neg hp, e.place_of_le (by omega), show e.line.length = e.before.length by omega,
        e.place_self]
      exact ⟨_, rfl, h⟩
  rw [if_neg hright, if_neg hright]
  by_cases henter : c = 0x0A ∨ c = 0x0D
  · rw [if_pos henter, if_pos henter]
    obtain ⟨buf, hbuf, hshow, hnul⟩ := store_nul he.ok he.text
    obtain ⟨sh', hadd, -, hrec⟩ := h.recalls.histAdd ⟨he.ok, hshow, hnul⟩
    simp only [hlen, hbuf, hadd, Option.bind_eq_bind, Option.bind_some]
    exact ⟨_, rfl, rfl, ⟨he.ok, hshow, hnul⟩, ⟨hrec.count, hrec.max, hrec.lines⟩, rfl⟩
  rw [if_neg henter, if_neg henter]
  by_cases hback : c = 0x08
  · rw [if_pos hback, if_pos hback]
    by_cases hp : r.pos > 0
    · obtain ⟨buf, hrun, ht⟩ := h.backspace hp
      simp only [if_pos hp, hrun, Option.bind_eq_bind, Option.bind_some]
      exact ⟨_, rfl, ht⟩
    · have hnil : e.before = [] := List.length_eq_zero_iff.1 (by omega)
      rw [if_neg hp, Editor.backspace, if_pos hnil]
      exact ⟨_, rfl, h⟩
  rw [if_neg hback, if_neg hback]
  by_cases hchar : c ≥ 0x20 ∧ c ≤ 0x7E
  · rw [if_pos hchar, if_pos hchar]
    by_cases hroom : r.len < lineSize - 1
    · have hc : UInt8.ofNat c.toNat ≠ 0 := by
        intro hz
        have := congrArg UInt8.toNat hz
        rw [UInt8.toNat_ofNat_of_lt' (show c.toNat < 256 by omega)] at this
        change c.toNat = 0 at this
        omega
      obtain ⟨b, buf, hrun, hstore, ht⟩ := h.insert hroom hc
      simp only [if_pos hroom, hrun, hstore, Option.bind_eq_bind, Option.bind_some]
      exact ⟨_, rfl, ht⟩
    · rw [if_neg hroom, Editor.insert, if_neg (by rwa [← hlen])]
      exact ⟨_, rfl, h⟩
  · rw [if_neg hchar, if_neg hchar]
    exact ⟨_, rfl, h⟩

/-- **A turn of the loop.** -/
theorem Tracks.poll (h : Tracks sh r history e) (p : Poll) :
    ∃ eff, r.poll sh p = some eff ∧ eff.Refines history (e.poll history p) := by
  have hm := h.pollMouse p.mouse
  unfold Readline.poll Editor.poll
  by_cases hkey : p.key = -1
  · simp only [if_pos hkey]
    exact ⟨_, rfl, hm⟩
  · obtain ⟨eff, hrun, href⟩ := hm.pressKey p.key
    simp only [if_neg hkey, hrun, Option.bind_eq_bind, Option.bind_some]
    exact ⟨_, rfl, href⟩

end Turn

/-! ## Whole sessions -/

/-- The session stands for the specification: the same lines were returned, the history table holds
the last eight of them, and an open line has its text, cursor and start in the buffer. -/
structure Session.Refines (s : Session) (a : Spec) : Prop where
  returned : s.returned = a.returned
  recalls : s.shell.Recalls (historyOf a.returned)
  idle : a.editor = none → s.line = none ∧ s.shell.histPos = 0
  editing : ∀ e, a.editor = some e → ∃ r, s.line = some r ∧
    Tracks s.shell r (historyOf a.returned) e ∧ r.pos ≤ r.len ∧ r.len ≤ 127

theorem Tracks.bounds {sh : Shell} {r : Readline} {history : List (List UInt8)} {e : Editor}
    (h : Tracks sh r history e) : r.pos ≤ r.len ∧ r.len ≤ 127 := by
  have := e.before_le
  have := h.edits.ok.length
  rw [h.edits.pos, h.edits.len]
  omega

theorem Session.Refines.step {s : Session} {a : Spec} (h : s.Refines a) (ev : Event) :
    ∃ s', s.step ev = some s' ∧ s'.Refines (a.step ev) := by
  obtain ⟨sh, line, returned⟩ := s
  obtain ⟨editor, lines⟩ := a
  obtain ⟨hret, hrec, hidle, hedit⟩ := h
  simp only at hret hrec hidle hedit
  cases editor with
  | none =>
    obtain ⟨rfl, hpos⟩ := hidle rfl
    cases ev with
    | poll p =>
      exact ⟨⟨sh, none, returned⟩, rfl, hret, hrec, fun _ => ⟨rfl, hpos⟩, nofun⟩
    | call buf row col =>
      have ht : Tracks sh ⟨Function.update buf 0 0, 0, 0, 0, row, col, ⟨false, 0, 0⟩⟩
          (historyOf lines) (Editor.start row col) :=
        ⟨⟨rfl, rfl, ⟨Nat.zero_le _, List.not_mem_nil⟩, fun j hj => absurd hj (Nat.not_lt_zero j),
          rfl, rfl, rfl⟩, hrec, hpos, Nat.zero_le _⟩
      refine ⟨_, rfl, hret, hrec, nofun, fun e he => ?_⟩
      obtain rfl := Option.some.inj he
      exact ⟨_, rfl, ht, ht.bounds⟩
  | some e =>
    obtain ⟨r, rfl, ht, hb⟩ := hedit e rfl
    cases ev with
    | call buf row col =>
      refine ⟨⟨sh, some r, returned⟩, rfl, hret, hrec, nofun, fun e₂ he => ?_⟩
      obtain rfl := Option.some.inj he
      exact ⟨r, rfl, ht, hb⟩
    | poll p =>
      obtain ⟨eff, hrun, href⟩ := ht.poll p
      unfold Session.step Spec.step
      simp only [hrun, Option.bind_eq_bind, Option.bind_some]
      unfold Effect.Refines at href
      cases hst : eff.status with
      | editing r' =>
        cases ho : e.poll (historyOf lines) p with
        | returned l =>
          rw [hst, ho] at href
          exact href.elim
        | editing e' =>
          rw [hst, ho] at href
          refine ⟨_, rfl, hret, href.recalls, nofun, fun e₂ he => ?_⟩
          obtain rfl := Option.some.inj he
          exact ⟨r', rfl, href, href.bounds⟩
      | returned buf len =>
        cases ho : e.poll (historyOf lines) p with
        | editing e' =>
          rw [hst, ho] at href
          exact href.elim
        | returned l =>
          rw [hst, ho] at href
          obtain ⟨rfl, hbuf, hrec', hpos'⟩ := href
          refine ⟨_, rfl, ?_, ?_, fun _ => ⟨rfl, hpos'⟩, nofun⟩
          · simp only [hbuf.shows.map_range, hret]
          · simp only [historyOf_append]
            exact hrec'

theorem Session.Refines.run {s : Session} {a : Spec} (h : s.Refines a) (evs : List Event) :
    ∃ s', s.run evs = some s' ∧ s'.Refines (a.run evs) := by
  induction evs generalizing s a with
  | nil => exact ⟨s, rfl, h⟩
  | cons ev evs ih =>
    obtain ⟨s₁, hs, h₁⟩ := h.step ev
    obtain ⟨s', hrun, h'⟩ := ih h₁
    refine ⟨s', ?_, h'⟩
    unfold Session.run at hrun ⊢
    rw [List.foldlM_cons, hs]
    exact hrun

theorem Session.init_refines : Session.init.Refines Spec.init :=
  ⟨rfl, ⟨rfl, Nat.zero_le _, fun i l hi => by cases hi⟩, fun _ => ⟨rfl, rfl⟩, nofun⟩

/-- **`readline` is the editor.** Over any number of calls and any turns of their loops, no store
leaves `buf` or the history, the lines returned are the editor's, `pos ≤ len ≤ 127`, and the buffer,
the cursor and the history are those of the editor. -/
theorem readline_refines (evs : List Event) :
    ∃ s, Session.init.run evs = some s ∧ s.Refines (Spec.init.run evs) :=
  Session.init_refines.run evs

/-- The line after "a" was typed on row 5 and the button pressed in the upper left corner. -/
def strayLine : Readline :=
  ⟨Function.update (Function.update (fun _ => 0) 0 0) 0 0x61, 1, 1, 1, 5, 0, ⟨true, 0, 0⟩⟩

theorem stray_run :
    Session.init.run [.call (fun _ => 0) 5 0, .poll ⟨none, 0x61⟩, .poll ⟨some (0, 0, 1), -1⟩] =
      some ⟨⟨fun _ _ => 0, 0, 0⟩, some strayLine, []⟩ := by
  have hroom : ensureEditSpace 5 0 1 = (5, []) := by
    rw [ensureEditSpace, if_neg (by decide)]
  have hkey : Readline.poll ⟨Function.update (fun _ => 0) 0 0, 0, 0, 0, 5, 0, ⟨false, 0, 0⟩⟩
      ⟨fun _ _ => 0, 0, 0⟩ ⟨none, 0x61⟩ =
      some ⟨⟨fun _ _ => 0, 0, 0⟩, .editing { strayLine with edge := ⟨false, 0, 0⟩ },
        [] ++ ([] ++ lineRedraw 5 0 strayLine.buf 1 0 1)⟩ := by
    simp [Readline.poll, Readline.pollMouse, Readline.pressKey, Readline.redraw, shiftRight,
      Buf.store, lineSize, hroom, strayLine]
  have hcall : Session.init.step (.call (fun _ => 0) 5 0) = some ⟨⟨fun _ _ => 0, 0, 0⟩,
      some ⟨Function.update (fun _ => 0) 0 0, 0, 0, 0, 5, 0, ⟨false, 0, 0⟩⟩, []⟩ := rfl
  unfold Session.run
  rw [List.foldlM_cons, hcall, Option.bind_eq_bind, Option.bind_some, List.foldlM_cons]
  simp only [Session.step, hkey, Option.bind_eq_bind, Option.bind_some]
  rfl

/-- A click above the line leaves the cursor: it is not at the clamped offset, which is 0. -/
theorem stray_click_ignored :
    ¬ ∀ (evs : List Event) (x y : Int) (s s' : Session) (r r' : Readline),
      Session.init.run evs = some s → s.line = some r → (r.edge.next x y 0).2 = some (x, y) →
      s.step (.poll ⟨some (x, y, 0), -1⟩) = some s' → s'.line = some r' →
      r'.pos = min (max ((y - r.startRow) * lineWidth + (x - r.startCol)) 0).toNat r.len := by
  intro hall
  have h := hall _ 0 0 _ _ strayLine { strayLine with edge := ⟨false, 0, 0⟩ } stray_run rfl rfl rfl
    rfl
  exact absurd h (by decide)

end HaoSys.User
