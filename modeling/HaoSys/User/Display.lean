import HaoSys.Driver.Linear
import HaoSys.User.Editor

/-!
# What you see is what you edit

The line that `readline` edits, on the console it draws to: the cells from the
start of the input on show the buffer, what a longer line left behind is blank,
the cursor of the console is at the place in the line, and the text in front
of the input has gone up with the screen. Mouse input may come between any two
calls of the console.
-/

namespace HaoSys.User

open HaoSys.Driver

/-! ## Typing at a prompt -/

/-- Console calls, on the logical screen. -/
def draw (v : Vga) (ops : List TextOp) : Vga := ops.foldl (fun v op => op.onScreen v) v

/-- The console calls of a turn, with the mouse input that comes in front of each. -/
def weave : List (List MouseOp) → List TextOp → List ConsoleOp
  | [], ops => ops.map .text
  | ins :: _, [] => ins.map .input
  | ins :: rest, op :: ops => ins.map .input ++ .text op :: weave rest ops

def isLineFeed : TextOp → Bool
  | .putchar c => c == 0x0A
  | _ => false

def lineFeeds (ops : List TextOp) : Nat := ops.countP isLineFeed

/-- A turn of the loop, and the mouse input while it runs. -/
structure Turn where
  poll : Poll
  inputs : List (List MouseOp)

/-- `readline` and the console, with the longest line shown so far and the line feeds printed. -/
structure Prompt where
  shell : Shell
  line : Readline
  console : Console
  longest : Nat
  scrolls : Nat

namespace Prompt

/-- `readline` is called; it asks the console for the cursor. -/
def start (sh : Shell) (buf : Buf) (c : Console) : Option Prompt := do
  let r ← Readline.start buf c.vga.cursorRow c.vga.cursorCol
  pure ⟨sh, r, c, 0, 0⟩

/-- A turn that does not return. -/
def turn (s : Prompt) (t : Turn) : Option Prompt := do
  let e ← s.line.poll s.shell t.poll
  match e.status with
  | .editing r =>
    pure ⟨e.shell, r, s.console.run (weave t.inputs e.ops), max s.longest r.len,
      s.scrolls + lineFeeds e.ops⟩
  | .returned _ _ => none

end Prompt

/-- The cell of the first character. -/
def Readline.startCell (r : Readline) : Int := r.startRow * 80 + r.startCol

/-- The screen `v` shows the line, where `v₀` was the screen when `readline` was called. -/
structure Shown (v₀ v : Vga) (r : Readline) (longest scrolls : Nat) : Prop where
  line : ∀ j, j < r.len → v.mem (r.startCell + j) = vgaCell v₀.defaultColor (r.buf j)
  blank : ∀ j, r.len ≤ j → j < longest → v.mem (r.startCell + j) = vgaCell v₀.defaultColor 0x20
  cursor : v.cursorRow * 80 + v.cursorCol = r.startCell + r.pos
  cursorCol : 0 ≤ v.cursorCol ∧ v.cursorCol < 80
  before : ∀ i : Int, 0 ≤ i → i < r.startCell → v.mem i = v₀.mem (i + 80 * scrolls)
  startRow : r.startRow = v₀.cursorRow - scrolls
  startCol : r.startCol = v₀.cursorCol

/-! ## Console calls of a turn -/

theorem draw_append (v : Vga) (ops ops' : List TextOp) :
    draw v (ops ++ ops') = draw (draw v ops) ops' := List.foldl_append

theorem lineFeeds_append (ops ops' : List TextOp) :
    lineFeeds (ops ++ ops') = lineFeeds ops + lineFeeds ops' := List.countP_append

theorem filterMap_input (ins : List MouseOp) :
    (ins.map ConsoleOp.input).filterMap ConsoleOp.text? = [] := by
  induction ins with
  | nil => rfl
  | cons i ins ih => exact ih

theorem filterMap_weave (inputs : List (List MouseOp)) (ops : List TextOp) :
    (weave inputs ops).filterMap ConsoleOp.text? = ops := by
  induction inputs generalizing ops with
  | nil =>
    unfold weave
    rw [List.filterMap_map]
    exact List.filterMap_some
  | cons ins inputs ih =>
    cases ops with
    | nil => exact filterMap_input ins
    | cons op ops =>
      unfold weave
      rw [List.filterMap_append, filterMap_input, List.nil_append]
      exact congrArg (op :: ·) (ih ops)

/-- Mouse input between the calls leaves no trace on the logical screen. -/
theorem run_weave (c : Console) (inputs : List (List MouseOp)) (ops : List TextOp) :
    (c.run (weave inputs ops)).logical = draw c.logical ops := by
  rw [Console.run_logical, filterMap_weave]
  rfl

section Calls

variable {v : Vga} {row col p : Int}

/-- `line_set_cursor`, to a place on the screen. -/
theorem draw_lineSetCursor (hat : v.At (row * 80 + col) p) (hrow : 0 ≤ row) (hcol : 0 ≤ col)
    {n : Nat} (hn : row * 80 + col + n ≤ 1999) :
    (draw v (lineSetCursor row col n)).At (row * 80 + col) (row * 80 + col + n) ∧
      (draw v (lineSetCursor row col n)).mem = v.mem ∧
      (draw v (lineSetCursor row col n)).defaultColor = v.defaultColor := by
  have hdiv : (col + (n : Int)).tdiv lineWidth = (col + n) / 80 :=
    Int.tdiv_eq_ediv_of_nonneg (by omega)
  have hmod : (col + (n : Int)).tmod lineWidth = (col + n) % 80 :=
    Int.tmod_eq_emod_of_nonneg (by omega)
  have hset := hat.setCursor
    (show 0 ≤ row + (col + n) / 80 ∧ row + (col + n) / 80 < 25 by omega)
    (show 0 ≤ (col + (n : Int)) % 80 ∧ (col + (n : Int)) % 80 < 80 by omega) (by omega)
  rw [show (row + (col + n) / 80) * 80 + (col + n) % 80 = row * 80 + col + n by omega] at hset
  unfold lineSetCursor
  rw [hdiv, hmod]
  exact hset

/-- `ensure_edit_space`: as many line feeds on the last row as rows are missing, and the input goes
up with the screen. -/
theorem draw_ensureEditSpace {n : Nat} (hn : n ≤ 127) (hrow : 0 ≤ row) (hcol : 0 ≤ col ∧ col < 80)
    (hat : v.At (row * 80 + col) p) (hp : row * 80 + col ≤ p) :
    let e := ensureEditSpace row col n
    let v' := draw v e.2
    e.1 = row - lineFeeds e.2 ∧ 0 ≤ e.1 ∧ e.1 * 80 + col + n ≤ 1999 ∧
      (∃ p', v'.At (e.1 * 80 + col) p' ∧ e.1 * 80 + col ≤ p') ∧ v'.defaultColor = v.defaultColor ∧
      ∀ i : Int, 0 ≤ i → i + 80 * lineFeeds e.2 < 2000 → v'.mem i = v.mem (i + 80 * lineFeeds e.2) := by
  fun_induction ensureEditSpace row col n generalizing v p with
  | case2 row h =>
    have hdiv : (col + (n : Int)).tdiv lineWidth = (col + n) / 80 :=
      Int.tdiv_eq_ediv_of_nonneg (by omega)
    rw [hdiv] at h
    simp only [show vgaHeight = 25 from rfl] at h
    refine ⟨?_, hrow, by omega, ⟨p, hat, hp⟩, rfl, fun i _ _ => ?_⟩
    · simp [lineFeeds]
    · simp [lineFeeds, draw]
  | case1 row h row' ops he ih =>
    have hdiv : (col + (n : Int)).tdiv lineWidth = (col + n) / 80 :=
      Int.tdiv_eq_ediv_of_nonneg (by omega)
    rw [hdiv] at h
    simp only [show vgaHeight = 25 from rfl] at h
    -- the cursor gets to the last row, or it is there already
    have hlast : ∃ q, (v.vgaSetCursor 24 0).At (row * 80 + col) q ∧ 1920 ≤ q ∧
        (v.vgaSetCursor 24 0).mem = v.mem ∧
        (v.vgaSetCursor 24 0).defaultColor = v.defaultColor := by
      by_cases hb : row * 80 + col ≤ 24 * 80 + 0
      · exact ⟨1920, (hat.setCursor (by omega) (by omega) hb).1, Int.le_refl _,
          (hat.setCursor (by omega) (by omega) hb).2⟩
      · rw [hat.setCursor_refused (by omega) (by omega) (by omega)]
        exact ⟨p, hat, by omega, rfl, rfl⟩
    obtain ⟨q, hq, hq24, hqmem, hqcolor⟩ := hlast
    obtain ⟨hfeed, hfcolor, hfmem⟩ := hq.lineFeed hq24 (by omega)
    rw [show row * 80 + col - 80 = (row - 1) * 80 + col by omega] at hfeed
    have hrow24 : row ≤ 24 := by
      have h1 : v.protectedRow < 25 := hat.onScreen.boundary.2
      have h2 := hat.boundary
      have h3 := hat.boundaryCol
      omega
    have hnext := ih (by omega) hfeed (by omega)
    simp only [he] at hnext
    obtain ⟨h1, h2, h3, h4, h5, h6⟩ := hnext
    have hcount : lineFeeds (.setCursor (vgaHeight - 1) 0 :: .putchar 0x0A :: ops) =
        lineFeeds ops + 1 := by
      simp [lineFeeds, isLineFeed]
    have hdraw : draw v (.setCursor (vgaHeight - 1) 0 :: .putchar 0x0A :: ops) =
        draw (v.vgaSetCursor 24 0).newline ops := rfl
    simp only [hcount, hdraw]
    refine ⟨by omega, h2, h3, h4, h5.trans (hfcolor.trans hqcolor), fun i hi hi' => ?_⟩
    rw [h6 i hi (by omega), hfmem _ (by omega) (by omega), hqmem]
    congr 1
    omega

/-- `line_redraw`: the line, blanks over the rest of the one shown before, and the cursor. -/
theorem draw_lineRedraw {b : Buf} {len dispLen pos : Nat} (hat : v.At (row * 80 + col) p)
    (hrow : 0 ≤ row) (hcol : 0 ≤ col ∧ col < 80) (hpos : pos ≤ len)
    (hlen : row * 80 + col + len ≤ 1999) (hdisp : row * 80 + col + dispLen ≤ 1999)
    (hplain : ∀ j, j < len → Vga.Plain (b j)) :
    let v' := draw v (lineRedraw row col b len dispLen pos)
    v'.At (row * 80 + col) (row * 80 + col + pos) ∧ v'.defaultColor = v.defaultColor ∧
      (∀ j : Nat, j < len → v'.mem (row * 80 + col + j) = vgaCell v.defaultColor (b j)) ∧
      (∀ j : Nat, len ≤ j → j < dispLen →
        v'.mem (row * 80 + col + j) = vgaCell v.defaultColor 0x20) ∧
      ∀ i, i < row * 80 + col ∨ row * 80 + col + max len dispLen ≤ i → v'.mem i = v.mem i := by
  intro v'
  let text : List UInt8 := (List.range len).map b ++ List.replicate (dispLen - len) 0x20
  have htext : ∀ c ∈ text, Vga.Plain c := by
    intro c hc
    rcases List.mem_append.1 hc with hc | hc
    · obtain ⟨j, hj, rfl⟩ := List.mem_map.1 hc
      exact hplain j (List.mem_range.1 hj)
    · rw [List.eq_of_mem_replicate hc]
      exact ⟨by decide, by decide, by decide, by decide⟩
  have htlen : text.length = max len dispLen := by
    simp only [text, List.length_append, List.length_map, List.length_range, List.length_replicate]
    omega
  have hdraw : v' = draw ((text.foldl (fun v c => v.putcharCore c v.defaultColor))
      (v.vgaSetCursor row col)) (lineSetCursor row col pos) := by
    simp only [v', lineRedraw, draw_append, text, List.foldl_append]
    simp only [draw, List.foldl_cons, List.foldl_map, TextOp.onScreen]
    rw [← List.map_replicate, List.foldl_map]
  obtain ⟨hset, hsmem, hscolor⟩ := hat.setCursor
    (show 0 ≤ row ∧ row < 25 by omega) hcol (Int.le_refl _)
  obtain ⟨htat, htcolor, htmem, htrest⟩ := hset.text htext (Int.le_refl _) (by omega)
  obtain ⟨hcat, hcmem, hccolor⟩ := draw_lineSetCursor (n := pos) htat hrow hcol.1 (by omega)
  rw [hdraw]
  refine ⟨hcat, hccolor.trans (htcolor.trans hscolor), fun j hj => ?_, fun j hj hj' => ?_,
    fun i hi => ?_⟩
  · have hget : text[j]? = some (b j) := by
      rw [List.getElem?_append_left (by simpa using hj), List.getElem?_map, List.getElem?_range hj]
      rfl
    rw [hcmem, htmem j _ hget, hscolor]
  · have hget : text[j]? = some 0x20 := by
      rw [List.getElem?_append_right (by simpa using hj), List.getElem?_replicate_of_lt]
      simp only [List.length_map, List.length_range]
      omega
    rw [hcmem, htmem j _ hget, hscolor]
  · rw [hcmem, htrest i (by omega), hsmem]

end Calls

/-- What a turn draws: nothing, the cursor elsewhere in the line, or the line again. -/
inductive Draws (r : Readline) : Readline → List TextOp → Prop where
  | kept (edge : Edge) : Draws r { r with edge } []
  | moved (edge : Edge) (pos : Nat) :
    Draws r { r with edge, pos } (lineSetCursor r.startRow r.startCol pos)
  | redrawn (buf : Buf) (pos len n : Nat) (hn : n = len ∨ n = 127) :
    Draws r ({ r with buf, pos, len }.redraw n).1 ({ r with buf, pos, len }.redraw n).2

theorem pollMouse_draws (r : Readline) (m : Option (Int × Int × UInt32)) :
    Draws r (r.pollMouse m).1 (r.pollMouse m).2 := by
  unfold Readline.pollMouse
  split
  · exact .kept r.edge
  · next mx my mb =>
    generalize r.edge.next mx my mb = ec
    obtain ⟨edge, clicked⟩ := ec
    cases clicked with
    | none => exact .kept edge
    | some xy =>
      simp only [Readline.click]
      split
      · exact .moved edge _
      · exact .kept edge

theorem histApply_draws {r r' : Readline} {sh : Shell} {i : Nat} {ops : List TextOp}
    (h : r.histApply sh i = some (r', ops)) : Draws r r' ops := by
  unfold Readline.histApply at h
  simp only [Option.bind_eq_bind, Option.bind_eq_some_iff, Option.pure_def, Option.some.injEq] at h
  obtain ⟨⟨k, buf⟩, -, h⟩ := h
  obtain ⟨rfl, rfl⟩ := Prod.mk.inj h
  exact .redrawn buf k k 127 (.inr rfl)

theorem pressKey_draws {r : Readline} {sh : Shell} {c : Int} {eff : Effect}
    (hrun : r.pressKey sh c = some eff) (hc : c ≠ 0x0A ∧ c ≠ 0x0D) :
    ∃ r', eff.status = .editing r' ∧ Draws r r' eff.ops := by
  have hkeep : ∀ sh', some (⟨sh', .editing r, []⟩ : Effect) = some eff →
      ∃ r', eff.status = .editing r' ∧ Draws r r' eff.ops := by
    intro sh' he
    obtain rfl := Option.some.inj he
    exact ⟨r, rfl, .kept r.edge⟩
  unfold Readline.pressKey at hrun
  simp only [Option.bind_eq_bind, Option.pure_def] at hrun
  split at hrun
  · split at hrun
    · obtain ⟨⟨r', ops⟩, hap, he⟩ := Option.bind_eq_some_iff.1 hrun
      obtain rfl := Option.some.inj he
      exact ⟨r', rfl, histApply_draws hap⟩
    · exact hkeep _ hrun
  split at hrun
  · split at hrun
    · split at hrun
      · obtain ⟨buf, -, he⟩ := Option.bind_eq_some_iff.1 hrun
        obtain rfl := Option.some.inj he
        exact ⟨_, rfl, .redrawn buf 0 0 0 (.inl rfl)⟩
      · obtain ⟨⟨r', ops⟩, hap, he⟩ := Option.bind_eq_some_iff.1 hrun
        obtain rfl := Option.some.inj he
        exact ⟨r', rfl, histApply_draws hap⟩
    · exact hkeep _ hrun
  split at hrun
  · split at hrun
    · obtain rfl := Option.some.inj hrun
      exact ⟨_, rfl, .moved r.edge _⟩
    · exact hkeep _ hrun
  split at hrun
  · split at hrun
    · obtain rfl := Option.some.inj hrun
      exact ⟨_, rfl, .moved r.edge _⟩
    · exact hkeep _ hrun
  split at hrun
  · next he => exact absurd he (not_or.2 hc)
  split at hrun
  · split at hrun
    · obtain ⟨buf, -, he⟩ := Option.bind_eq_some_iff.1 hrun
      obtain rfl := Option.some.inj he
      exact ⟨_, rfl, .redrawn buf _ _ _ (.inl rfl)⟩
    · exact hkeep _ hrun
  split at hrun
  · split at hrun
    · obtain ⟨b, -, hrun⟩ := Option.bind_eq_some_iff.1 hrun
      obtain ⟨buf, -, he⟩ := Option.bind_eq_some_iff.1 hrun
      obtain rfl := Option.some.inj he
      exact ⟨_, rfl, .redrawn buf _ _ _ (.inl rfl)⟩
    · exact hkeep _ hrun
  · exact hkeep _ hrun

/-! ## The screen follows the line -/

/-- The line is shown, the boundary is at its start, and every length shown so far has room. -/
structure Follows (v₀ v : Vga) (r : Readline) (longest scrolls : Nat) : Prop where
  shown : Shown v₀ v r longest scrolls
  at_ : v.At r.startCell (r.startCell + r.pos)
  row : 0 ≤ r.startRow
  col : 0 ≤ r.startCol ∧ r.startCol < 80
  color : v.defaultColor = v₀.defaultColor
  dispLen : r.dispLen = r.len
  len : r.len ≤ longest
  pos : r.pos ≤ r.len
  room : r.startCell + longest ≤ 1999

variable {v₀ v : Vga} {r : Readline} {longest scrolls : Nat}

theorem Follows.kept (h : Follows v₀ v r longest scrolls) (edge : Edge) :
    Follows v₀ v { r with edge } longest scrolls :=
  ⟨⟨h.shown.line, h.shown.blank, h.shown.cursor, h.shown.cursorCol, h.shown.before,
    h.shown.startRow, h.shown.startCol⟩, h.at_, h.row, h.col, h.color, h.dispLen, h.len, h.pos,
    h.room⟩

theorem Follows.moved (h : Follows v₀ v r longest scrolls) (edge : Edge) {pos : Nat}
    (hpos : pos ≤ r.len) :
    Follows v₀ (draw v (lineSetCursor r.startRow r.startCol pos)) { r with edge, pos } longest
      scrolls := by
  have hroom := h.room
  have hlen := h.len
  unfold Readline.startCell at hroom
  obtain ⟨hat, hmem, hcolor⟩ := draw_lineSetCursor (n := pos) h.at_ h.row h.col.1 (by omega)
  refine ⟨⟨fun j hj => ?_, fun j hj hj' => ?_, hat.cursor, hat.onScreen.col, fun i hi hi' => ?_,
    h.shown.startRow, h.shown.startCol⟩, hat, h.row, h.col, hcolor.trans h.color, h.dispLen, h.len,
    hpos, h.room⟩
  · rw [hmem]
    exact h.shown.line j hj
  · rw [hmem]
    exact h.shown.blank j hj hj'
  · rw [hmem]
    exact h.shown.before i hi hi'

theorem lineFeeds_lineRedraw {row col : Int} {b : Buf} {len dispLen pos : Nat}
    (hplain : ∀ j, j < len → Vga.Plain (b j)) :
    lineFeeds (lineRedraw row col b len dispLen pos) = 0 := by
  unfold lineFeeds
  rw [List.countP_eq_zero]
  intro op hop
  simp only [lineRedraw, lineSetCursor, List.mem_append, List.mem_cons, List.mem_map,
    List.mem_range, List.mem_replicate, List.not_mem_nil, or_false] at hop
  rcases hop with ((rfl | ⟨j, hj, rfl⟩) | ⟨-, rfl⟩) | rfl
  · exact Bool.false_ne_true
  · have := (hplain j hj).1
    simpa [isLineFeed] using this
  · decide
  · exact Bool.false_ne_true

theorem Follows.redrawn (h : Follows v₀ v r longest scrolls) {buf : Buf} {pos len n : Nat}
    (hpos : pos ≤ len) (hlen : len ≤ n) (hn : n ≤ 127)
    (hplain : ∀ j, j < len → Vga.Plain (buf j)) :
    Follows v₀ (draw v ({ r with buf, pos, len }.redraw n).2) ({ r with buf, pos, len }.redraw n).1
      (max longest len) (scrolls + lineFeeds ({ r with buf, pos, len }.redraw n).2) := by
  obtain ⟨hs, hat, hrow, hcol, hcolor, hdisp, hlong, -, hroom⟩ := h
  unfold Readline.startCell at hat hroom
  have hspace := draw_ensureEditSpace hn hrow hcol hat (by omega)
  simp only [Readline.redraw]
  generalize ensureEditSpace r.startRow r.startCol n = e at hspace
  obtain ⟨row, ops⟩ := e
  simp only at hspace ⊢
  obtain ⟨hrow', hnonneg, hfit, ⟨p', hat', -⟩, hcolor', hmem'⟩ := hspace
  have hold : row * 80 + r.startCol + r.dispLen ≤ 1999 := by omega
  obtain ⟨hat₂, hcolor₂, hline, hblank, hrest⟩ :=
    draw_lineRedraw hat' hnonneg hcol hpos (by omega) hold hplain
  rw [draw_append, lineFeeds_append, lineFeeds_lineRedraw hplain, Nat.add_zero]
  have hvcolor : (draw v ops).defaultColor = v₀.defaultColor := hcolor'.trans hcolor
  rw [hvcolor] at hcolor₂ hline hblank
  have hup := hs.startRow
  refine ⟨⟨hline, fun j hj hj' => ?_, hat₂.cursor, hat₂.onScreen.col, fun i hi hi' => ?_, ?_,
    hs.startCol⟩, hat₂, hnonneg, hcol, hcolor₂, rfl, Nat.le_max_right _ _, hpos, ?_⟩
  · -- behind the line: blanked just now, or blank before
    by_cases hd : j < r.dispLen
    · exact hblank j hj hd
    · have hj₂ : len ≤ j := hj
      have hb := hs.blank j (by omega) (by omega)
      unfold Readline.startCell at hb ⊢
      simp only
      rw [hrest _ (by omega), hmem' _ (by omega) (by omega), ← hb]
      congr 1
      omega
  · unfold Readline.startCell at hi'
    simp only at hi'
    have hb := hs.before (i + 80 * lineFeeds ops) (by omega) (by unfold Readline.startCell; omega)
    rw [hrest _ (by omega), hmem' _ hi (by omega), hb]
    congr 1
    omega
  · simp only
    omega
  · unfold Readline.startCell
    simp only
    omega

/-- **One turn.** -/
theorem Follows.draws (h : Follows v₀ v r longest scrolls) {r' : Readline} {ops : List TextOp}
    (hd : Draws r r' ops) (hpos : r'.pos ≤ r'.len) (hlen : r'.len ≤ 127)
    (hplain : ∀ j, j < r'.len → Vga.Plain (r'.buf j)) :
    Follows v₀ (draw v ops) r' (max longest r'.len) (scrolls + lineFeeds ops) := by
  have hlong := h.len
  cases hd with
  | kept edge =>
    rw [show max longest ({ r with edge } : Readline).len = longest from Nat.max_eq_left h.len]
    exact h.kept edge
  | moved edge pos =>
    rw [show max longest ({ r with edge, pos } : Readline).len = longest from
      Nat.max_eq_left h.len]
    exact h.moved edge hpos
  | redrawn buf pos len n hn =>
    have hlen' : len ≤ 127 := hlen
    exact h.redrawn hpos (by omega) (by omega) hplain

/-! ## Only characters that print as they are -/

def PlainLine (l : List UInt8) : Prop := ∀ c ∈ l, Vga.Plain c

theorem Editor.line_mouse (e : Editor) (m : Option (Int × Int × UInt32)) :
    (e.mouse m).line = e.line := by
  unfold Editor.mouse
  split
  · rfl
  · next mx my mb =>
    generalize e.edge.next mx my mb = ec
    obtain ⟨edge, clicked⟩ := ec
    cases clicked with
    | none => rfl
    | some xy =>
      simp only [Editor.click]
      split
      · exact Editor.line_place _ _
      · rfl

theorem plainLine_recent {history : List (List UInt8)} (h : ∀ l ∈ history, PlainLine l) (i : Nat) :
    PlainLine (recent history i) := by
  unfold recent
  rw [List.getD_eq_getElem?_getD]
  cases hg : history[history.length - i]? with
  | none => exact fun c hc => by cases hc
  | some l => exact h l (List.mem_of_getElem? hg)

theorem plainLine_fetch {history : List (List UInt8)} (h : ∀ l ∈ history, PlainLine l) (e : Editor)
    (i : Nat) : PlainLine (e.fetch history i).line := by
  change PlainLine (recent history i ++ [])
  rw [List.append_nil]
  exact plainLine_recent h i

theorem plain_of_printable {c : Int} (h : c ≥ 0x20 ∧ c ≤ 0x7E) : Vga.Plain (UInt8.ofNat c.toNat) := by
  have hne : ∀ d : UInt8, d.toNat < 0x20 → UInt8.ofNat c.toNat ≠ d := by
    rintro d hd rfl
    rw [UInt8.toNat_ofNat_of_lt' (show c.toNat < 256 by omega)] at hd
    omega
  exact ⟨hne _ (by decide), hne _ (by decide), hne _ (by decide), hne _ (by decide)⟩

/-- The line of an editor that goes on, or the one it returns. -/
def Outcome.line : Outcome → List UInt8
  | .editing e => e.line
  | .returned l => l

theorem plainLine_key {history : List (List UInt8)} (hh : ∀ l ∈ history, PlainLine l) {e : Editor}
    (he : PlainLine e.line) (c : Int) : PlainLine (e.key history c).line := by
  unfold Editor.key
  split
  · change PlainLine (e.up history).line
    unfold Editor.up
    split
    · exact plainLine_fetch hh e _
    · exact he
  split
  · change PlainLine (e.down history).line
    unfold Editor.down
    split
    · exact he
    split
    · exact fun c hc => by cases hc
    · exact plainLine_fetch hh e _
  split
  · change PlainLine (e.place _).line
    rw [e.line_place]
    exact he
  split
  · change PlainLine (e.place _).line
    rw [e.line_place]
    exact he
  split
  · exact he
  split
  · change PlainLine e.backspace.line
    unfold Editor.backspace
    split
    · exact he
    · intro c hc
      refine he c ?_
      rcases List.mem_append.1 hc with hc | hc
      · exact List.mem_append_left _ (List.mem_of_mem_dropLast hc)
      · exact List.mem_append_right _ hc
  split
  · next hprint =>
    change PlainLine (e.insert _).line
    unfold Editor.insert
    split
    · intro c hc
      change c ∈ (e.before ++ [_]) ++ e.after at hc
      rw [List.append_assoc, List.mem_append, List.mem_append, List.mem_singleton] at hc
      rcases hc with hc | rfl | hc
      · exact he c (List.mem_append_left _ hc)
      · exact plain_of_printable hprint
      · exact he c (List.mem_append_right _ hc)
    · exact he
  · exact he

theorem plainLine_poll {history : List (List UInt8)} (hh : ∀ l ∈ history, PlainLine l) {e : Editor}
    (he : PlainLine e.line) (p : Poll) : PlainLine (e.poll history p).line := by
  have hm : PlainLine (e.mouse p.mouse).line := (e.line_mouse p.mouse).symm ▸ he
  unfold Editor.poll
  split
  · exact hm
  · exact plainLine_key hh hm p.key

theorem mem_distinctLines {returned : List (List UInt8)} {l : List UInt8}
    (h : l ∈ distinctLines returned) : l ∈ returned := by
  induction returned using List.reverseRecOn with
  | nil => exact h
  | append_singleton returned l' ih =>
    unfold distinctLines at h
    rw [List.foldl_append] at h
    simp only [List.foldl_cons, List.foldl_nil] at h
    split at h
    · exact List.mem_append_left _ (ih h)
    · rcases List.mem_append.1 h with h | h
      · exact List.mem_append_left _ (ih h)
      · exact List.mem_append_right _ h

/-- Every line returned and the one being edited. -/
structure Spec.Plain (a : Spec) : Prop where
  returned : ∀ l ∈ a.returned, PlainLine l
  editing : ∀ e, a.editor = some e → PlainLine e.line

theorem Spec.Plain.history {a : Spec} (h : a.Plain) : ∀ l ∈ historyOf a.returned, PlainLine l :=
  fun l hl => h.returned l (mem_distinctLines (List.mem_of_mem_drop hl))

theorem Spec.Plain.step {a : Spec} (h : a.Plain) (ev : Event) : (a.step ev).Plain := by
  have hhist := h.history
  obtain ⟨editor, lines⟩ := a
  cases editor with
  | none =>
    cases ev with
    | poll p => exact h
    | call buf row col =>
      refine ⟨h.returned, fun e he => ?_⟩
      obtain rfl := Option.some.inj he
      exact fun c hc => by cases hc
  | some e =>
    cases ev with
    | call buf row col => exact h
    | poll p =>
      have hp := plainLine_poll hhist (h.editing e rfl) p
      unfold Spec.step
      simp only at hp ⊢
      cases ho : e.poll (historyOf lines) p with
      | editing e' =>
        rw [ho] at hp
        refine ⟨h.returned, fun e₂ he => ?_⟩
        obtain rfl := Option.some.inj he
        exact hp
      | returned l =>
        rw [ho] at hp
        refine ⟨fun l' hl' => ?_, nofun⟩
        rcases List.mem_append.1 hl' with hl' | hl'
        · exact h.returned l' hl'
        · rw [List.mem_singleton.1 hl']
          exact hp

theorem Spec.plain_run (evs : List Event) : (Spec.init.run evs).Plain := by
  have hrun : ∀ (evs : List Event) {a : Spec}, a.Plain → (a.run evs).Plain := by
    intro evs
    induction evs with
    | nil => exact fun h => h
    | cons ev evs ih => exact fun h => ih (h.step ev)
  exact hrun evs ⟨nofun, nofun⟩

/-! ## Whole lines -/

/-- `readline` on the console: the line is the editor's, of plain characters, and the screen
follows it. -/
structure Prompt.Inv (s : Prompt) (v₀ : Vga) (history : List (List UInt8)) : Prop where
  tracks : ∃ e, Tracks s.shell s.line history e ∧ PlainLine e.line
  follows : Follows v₀ s.console.logical s.line s.longest s.scrolls

theorem Tracks.plain {sh : Shell} {r : Readline} {history : List (List UInt8)} {e : Editor}
    (h : Tracks sh r history e) (hp : PlainLine e.line) :
    ∀ j, j < r.len → Vga.Plain (r.buf j) := by
  intro j hj
  have hlen := h.edits.len
  exact hp _ (List.mem_of_getElem? (h.edits.text j (by omega)))

theorem Prompt.Inv.turn {s : Prompt} {v₀ : Vga} {history : List (List UInt8)}
    (hh : ∀ l ∈ history, PlainLine l) (h : s.Inv v₀ history) {t : Turn}
    (hkey : t.poll.key ≠ 0x0A ∧ t.poll.key ≠ 0x0D) :
    ∃ s', s.turn t = some s' ∧ s'.Inv v₀ history := by
  obtain ⟨⟨e, ht, hp⟩, hf⟩ := h
  obtain ⟨sh, r, c, longest, scrolls⟩ := s
  simp only at ht hf
  have hm := ht.pollMouse t.poll.mouse
  have hmp : PlainLine (e.mouse t.poll.mouse).line := (e.line_mouse t.poll.mouse).symm ▸ hp
  -- the mouse never changes the length
  have hmlen : (r.pollMouse t.poll.mouse).1.len = r.len := by
    rw [hm.edits.len, e.line_mouse, ht.edits.len]
  have hfm := hf.draws (pollMouse_draws r t.poll.mouse) hm.bounds.1 hm.bounds.2 (hm.plain hmp)
  rw [hmlen, Nat.max_eq_left hf.len] at hfm
  unfold Prompt.turn Readline.poll
  generalize r.pollMouse t.poll.mouse = rm at hm hmlen hfm
  obtain ⟨r₁, ops₁⟩ := rm
  simp only at hm hmlen hfm ⊢
  by_cases hnone : t.poll.key = -1
  · simp only [if_pos hnone, Option.bind_eq_bind, Option.bind_some, Option.pure_def]
    refine ⟨_, rfl, ⟨_, hm, hmp⟩, ?_⟩
    simp only [run_weave]
    rw [hmlen, Nat.max_eq_left hf.len]
    exact hfm
  · obtain ⟨eff, hrun, href⟩ := hm.pressKey t.poll.key
    obtain ⟨r', hst, hd⟩ := pressKey_draws hrun hkey
    have hkp := plainLine_key hh hmp t.poll.key
    unfold Effect.Refines at href
    rw [hst] at href
    cases ho : (e.mouse t.poll.mouse).key history t.poll.key with
    | returned l =>
      rw [ho] at href
      exact href.elim
    | editing e' =>
      rw [ho] at href hkp
      have hfk := hfm.draws hd href.bounds.1 href.bounds.2 (href.plain hkp)
      simp only [if_neg hnone, hrun, hst, Option.bind_eq_bind, Option.bind_some, Option.pure_def]
      refine ⟨_, rfl, ⟨e', href, hkp⟩, ?_⟩
      simp only [run_weave]
      rw [draw_append, lineFeeds_append, ← Nat.add_assoc]
      exact hfk

theorem Prompt.Inv.turns {s : Prompt} {v₀ : Vga} {history : List (List UInt8)}
    (hh : ∀ l ∈ history, PlainLine l) (h : s.Inv v₀ history) {ts : List Turn}
    (hkeys : ∀ t ∈ ts, t.poll.key ≠ 0x0A ∧ t.poll.key ≠ 0x0D) :
    ∃ s', ts.foldlM Prompt.turn s = some s' ∧ s'.Inv v₀ history := by
  induction ts generalizing s with
  | nil => exact ⟨s, rfl, h⟩
  | cons t ts ih =>
    obtain ⟨s₁, hs, h₁⟩ := h.turn hh (hkeys t List.mem_cons_self)
    obtain ⟨s', hrun, h'⟩ := ih h₁ fun t' ht' => hkeys t' (List.mem_cons_of_mem _ ht')
    refine ⟨s', ?_, h'⟩
    rw [List.foldlM_cons, hs]
    exact hrun

theorem logical_withMem (c : Console) : ∃ m, c.logical = c.vga.withMem m := by
  unfold Console.logical
  split
  · exact ⟨_, rfl⟩
  · exact ⟨c.vga.mem, rfl⟩

theorem Prompt.inv_start {sh : Shell} {history : List (List UInt8)} (hrec : sh.Recalls history)
    (hpos : sh.histPos = 0) (buf : Buf) {c : Console} (hon : c.vga.OnScreen)
    (hen : c.vga.protectionEnabled = true) (hrow : c.vga.protectedRow = c.vga.cursorRow)
    (hcol : c.vga.protectedCol = c.vga.cursorCol) :
    ∃ s, Prompt.start sh buf c = some s ∧ s.Inv c.logical history := by
  refine ⟨⟨sh, ⟨Function.update buf 0 0, 0, 0, 0, c.vga.cursorRow, c.vga.cursorCol, ⟨false, 0, 0⟩⟩, c,
    0, 0⟩, rfl, ⟨Editor.start c.vga.cursorRow c.vga.cursorCol, ?_, nofun⟩, ?_⟩
  · exact ⟨⟨rfl, rfl, ⟨Nat.zero_le _, List.not_mem_nil⟩, nofun, rfl, rfl, rfl⟩, hrec, hpos,
      Nat.zero_le _⟩
  · obtain ⟨m, hm⟩ := logical_withMem c
    have hr : 0 ≤ c.vga.cursorRow ∧ c.vga.cursorRow < 25 := hon.row
    have hc : 0 ≤ c.vga.cursorCol ∧ c.vga.cursorCol < 80 := hon.col
    have hcell : c.vga.cursorRow * 80 + c.vga.cursorCol =
        c.vga.cursorRow * 80 + c.vga.cursorCol + (0 : Nat) := by omega
    have hat : (c.vga.withMem m).At (c.vga.cursorRow * 80 + c.vga.cursorCol)
        (c.vga.cursorRow * 80 + c.vga.cursorCol + (0 : Nat)) :=
      ⟨⟨hon.row, hon.col, hon.boundary⟩, hen, hcol.symm ▸ hc, by rw [← hrow, ← hcol]; rfl, hcell⟩
    simp only [hm]
    refine ⟨⟨nofun, nofun, hcell, hc, fun i _ _ => ?_, ?_, rfl⟩, hat, hr.1, hc, rfl, rfl,
      Nat.le_refl _, Nat.le_refl _, ?_⟩
    · rw [Nat.cast_zero, Int.mul_zero, Int.add_zero]
    · exact (Int.sub_zero _).symm
    · unfold Readline.startCell
      simp only
      omega

/-- **What you see is what you edit.** Whatever was typed in earlier calls, `readline` is called
with the boundary at the cursor and turns any number of times without Enter: after every turn the
logical screen shows the line, and it is what the memory holds while no pointer is drawn. -/
theorem screen_shows_line (evs : List Event) (s : Session) (hs : Session.init.run evs = some s)
    (hidle : s.line = none) (buf : Buf) (c : Console) (hon : c.vga.OnScreen)
    (hen : c.vga.protectionEnabled = true) (hrow : c.vga.protectedRow = c.vga.cursorRow)
    (hcol : c.vga.protectedCol = c.vga.cursorCol) (ts : List Turn)
    (hkeys : ∀ t ∈ ts, t.poll.key ≠ 0x0A ∧ t.poll.key ≠ 0x0D) :
    ∃ p, (Prompt.start s.shell buf c).bind (List.foldlM Prompt.turn · ts) = some p ∧
      Shown c.logical p.console.logical p.line p.longest p.scrolls ∧
      (p.console.mouse.pointerActive = false → p.console.vga = p.console.logical) := by
  obtain ⟨s', hs', href⟩ := Session.init_refines.run evs
  obtain rfl := Option.some.inj (hs.symm.trans hs')
  have hed : (Spec.init.run evs).editor = none := by
    cases he : (Spec.init.run evs).editor with
    | none => rfl
    | some e =>
      obtain ⟨r, hr, -⟩ := href.editing e he
      cases hidle.symm.trans hr
  obtain ⟨p₀, hstart, hinv⟩ :=
    Prompt.inv_start href.recalls (href.idle hed).2 buf hon hen hrow hcol
  obtain ⟨p, hrun, hp⟩ := hinv.turns (Spec.plain_run evs).history hkeys
  refine ⟨p, ?_, hp.follows.shown, fun hoff => (Console.logical_of_inactive hoff).symm⟩
  rw [hstart]
  exact hrun

/-- A blank screen with "$ " printed and protected. -/
def shellPrompt : Console :=
  (Console.boot fun _ => 0x0F20).run [.text (.write [0x24, 0x20]), .text .protectBeforeCursor]

/-- "ls" and a step back at this prompt, with a byte from the mouse. -/
theorem screen_shows_ls :
    ∃ p, (Prompt.start Session.init.shell (fun _ => 0) shellPrompt).bind
        (List.foldlM Prompt.turn · [⟨⟨none, 0x6C⟩, [[.feedByte 0x08]]⟩, ⟨⟨none, 0x73⟩, []⟩,
          ⟨⟨none, 0x03⟩, []⟩]) = some p ∧
      Shown shellPrompt.logical p.console.logical p.line p.longest p.scrolls ∧
      (p.console.mouse.pointerActive = false → p.console.vga = p.console.logical) :=
  screen_shows_line [] Session.init rfl rfl (fun _ => 0) shellPrompt
    (Console.run_ok (Console.boot_ok _) _).vga rfl rfl rfl _ (by decide)

end HaoSys.User
