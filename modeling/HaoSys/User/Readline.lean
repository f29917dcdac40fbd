import HaoSys.Driver.Mouse

/-!
# The line editor (`readline` in `user/shell.c`)

`readline` polls mouse and keyboard and edits `buf` in place. What it draws is
the list of console calls it makes, `TextOp`s. A store outside a `char[128]` or
outside the eight lines of the history has no result, so a run that has one
made none.
-/

namespace HaoSys.User

open HaoSys.Driver

def histMax : Nat := 8

/-- The size of `buf` and of a history line. -/
def lineSize : Nat := 128

def lineWidth : Int := 80

/-! ## Buffers -/

/-- The bytes of a `char[128]`, at their indices. -/
abbrev Buf := Nat → UInt8

/-- `buf[i] = c`. -/
def Buf.store (b : Buf) (i : Nat) (c : UInt8) : Option Buf :=
  if i < lineSize then some (Function.update b i c) else none

/-- The string in a buffer. -/
def Buf.string (b : Buf) : List UInt8 := ((List.range lineSize).map b).takeWhile (· ≠ 0)

/-- `shift_right`: `buf[from..from+n)` one place up, the last byte first. -/
def shiftRight (b : Buf) (start : Nat) : Nat → Option Buf
  | 0 => some b
  | i + 1 => do
    let b ← b.store (start + i + 1) (b (start + i))
    shiftRight b start i

/-- The loop of `shift_left` from `i` on, with `n` bytes to go. -/
def shiftLeft (b : Buf) (start i : Nat) : Nat → Option Buf
  | 0 => some b
  | n + 1 => do
    let b ← b.store (start + i - 1) (b (start + i))
    shiftLeft b start (i + 1) n

/-- `while (src[k] && k < limit) { dst[k] = src[k]; k++; } dst[k] = 0`, with `n` bytes to go before
the limit: the length and the line. -/
def copyLine (src dst : Buf) (k : Nat) : Nat → Option (Nat × Buf)
  | 0 => do
    let dst ← dst.store k 0
    pure (k, dst)
  | n + 1 =>
    if src k = 0 then do
      let dst ← dst.store k 0
      pure (k, dst)
    else do
      let dst ← dst.store k (src k)
      copyLine src dst (k + 1) n

/-! ## The history -/

/-- The `static` data of the editor. -/
structure Shell where
  history : Nat → Buf
  histCount : Nat
  histPos : Nat

/-- `history[h] = line`. -/
def storeLine (history : Nat → Buf) (h : Nat) (line : Buf) : Option (Nat → Buf) :=
  if h < histMax then some (Function.update history h line) else none

/-- The loop that moves the history down from line `h` on, with `n` lines to go. -/
def shiftHistory (history : Nat → Buf) (h : Nat) : Nat → Option (Nat → Buf)
  | 0 => some history
  | n + 1 => do
    let (_, line) ← copyLine (history (h + 1)) (history h) 0 (lineSize - 1)
    let history ← storeLine history h line
    shiftHistory history (h + 1) n

/-- `hist_add`. -/
def histAdd (sh : Shell) (line : Buf) : Option Shell :=
  if line.string = [] then some sh
  else if sh.histCount > 0 ∧ (sh.history (sh.histCount - 1)).string = line.string then some sh
  else if sh.histCount < histMax then do
    let (_, new) ← copyLine line (sh.history sh.histCount) 0 (lineSize - 1)
    let history ← storeLine sh.history sh.histCount new
    pure { sh with history, histCount := sh.histCount + 1 }
  else do
    let history ← shiftHistory sh.history 0 (histMax - 1)
    let (_, new) ← copyLine line (history (histMax - 1)) 0 (lineSize - 1)
    let history ← storeLine history (histMax - 1) new
    pure { sh with history }

/-! ## The display -/

/-- `line_set_cursor`. -/
def lineSetCursor (startRow startCol : Int) (pos : Nat) : List TextOp :=
  [.setCursor (startRow + (startCol + pos).tdiv lineWidth) ((startCol + pos).tmod lineWidth)]

/-- `ensure_edit_space`: where the line starts afterwards, and the line feeds on the last row. -/
def ensureEditSpace (startRow startCol : Int) (len : Nat) : Int × List TextOp :=
  if startRow + (startCol + len).tdiv lineWidth ≥ vgaHeight then
    let (row, ops) := ensureEditSpace (startRow - 1) startCol len
    (row, .setCursor (vgaHeight - 1) 0 :: .putchar 0x0A :: ops)
  else (startRow, [])
termination_by (startRow + (startCol + len).tdiv lineWidth + 1 - vgaHeight).toNat
decreasing_by
  rename_i h
  omega

/-- `line_redraw`; `disp_len` becomes `len`. -/
def lineRedraw (startRow startCol : Int) (b : Buf) (len dispLen pos : Nat) : List TextOp :=
  .setCursor startRow startCol :: (List.range len).map (fun i => .putchar (b i)) ++
    List.replicate (dispLen - len) (.putchar 0x20) ++ lineSetCursor startRow startCol pos

/-! ## Events -/

/-- The state of the click detection. -/
structure Edge where
  prevLbtn : Bool
  pressX : Int
  pressY : Int

/-- One look at the mouse: a click is a release where the button was pressed. -/
def Edge.next (e : Edge) (mx my : Int) (mb : UInt32) : Edge × Option (Int × Int) :=
  if mb &&& 1 ≠ 0 then
    (if e.prevLbtn then { e with prevLbtn := true } else ⟨true, mx, my⟩, none)
  else
    ({ e with prevLbtn := false },
      if e.prevLbtn ∧ mx = e.pressX ∧ my = e.pressY then some (mx, my) else none)

/-- The local variables of `readline`. -/
structure Readline where
  buf : Buf
  pos : Nat
  len : Nat
  dispLen : Nat
  startRow : Int
  startCol : Int
  edge : Edge

/-- A turn of the loop: what `getmouse` gives, if it succeeds, and the key, -1 for none. -/
structure Poll where
  mouse : Option (Int × Int × UInt32)
  key : Int

/-- Still editing, or back with the line in `buf`. -/
inductive Status where
  | editing (r : Readline)
  | returned (buf : Buf) (len : Nat)

structure Effect where
  shell : Shell
  status : Status
  ops : List TextOp

namespace Readline

/-- A click: on the rows the line takes, to the offset from its start. -/
def click (r : Readline) (mx my : Int) : Readline × List TextOp :=
  let editLastRow := r.startRow + (r.startCol + r.len).tdiv lineWidth
  if my ≥ r.startRow ∧ my ≤ editLastRow then
    let off := (my - r.startRow) * lineWidth + (mx - r.startCol)
    let off := if off < 0 then 0 else off
    let off := if off > r.len then (r.len : Int) else off
    ({ r with pos := off.toNat }, lineSetCursor r.startRow r.startCol off.toNat)
  else (r, [])

/-- The mouse part of a turn. -/
def pollMouse (r : Readline) (mouse : Option (Int × Int × UInt32)) : Readline × List TextOp :=
  match mouse with
  | none => (r, [])
  | some (mx, my, mb) =>
    let (edge, clicked) := r.edge.next mx my mb
    match clicked with
    | none => ({ r with edge }, [])
    | some (x, y) => { r with edge }.click x y

/-- Make room for `n` characters, draw the line and go on. -/
def redraw (r : Readline) (n : Nat) : Readline × List TextOp :=
  let (row, ops) := ensureEditSpace r.startRow r.startCol n
  ({ r with startRow := row, dispLen := r.len },
    ops ++ lineRedraw row r.startCol r.buf r.len r.dispLen r.pos)

/-- `hist_apply` for the `i`-th last line, behind `ensure_edit_space`. -/
def histApply (r : Readline) (sh : Shell) (i : Nat) : Option (Readline × List TextOp) := do
  let (k, buf) ← copyLine (sh.history (sh.histCount - i)) r.buf 0 (lineSize - 1)
  pure ({ r with buf, pos := k, len := k }.redraw (lineSize - 1))

/-- The keyboard part of a turn. -/
def pressKey (r : Readline) (sh : Shell) (c : Int) : Option Effect :=
  if c = 0x01 then
    if sh.histCount > 0 ∧ sh.histPos < sh.histCount then do
      let sh := { sh with histPos := sh.histPos + 1 }
      let (r, ops) ← r.histApply sh sh.histPos
      pure ⟨sh, .editing r, ops⟩
    else some ⟨sh, .editing r, []⟩
  else if c = 0x02 then
    if sh.histPos > 0 then
      let sh := { sh with histPos := sh.histPos - 1 }
      if sh.histPos = 0 then do
        let buf ← r.buf.store 0 0
        let (r, ops) := { r with buf, pos := 0, len := 0 }.redraw 0
        pure ⟨sh, .editing r, ops⟩
      else do
        let (r, ops) ← r.histApply sh sh.histPos
        pure ⟨sh, .editing r, ops⟩
    else some ⟨sh, .editing r, []⟩
  else if c = 0x03 then
    if r.pos > 0 then
      some ⟨sh, .editing { r with pos := r.pos - 1 },
        lineSetCursor r.startRow r.startCol (r.pos - 1)⟩
    else some ⟨sh, .editing r, []⟩
  else if c = 0x04 then
    if r.pos < r.len then
      some ⟨sh, .editing { r with pos := r.pos + 1 },
        lineSetCursor r.startRow r.startCol (r.pos + 1)⟩
    else some ⟨sh, .editing r, []⟩
  else if c = 0x0A ∨ c = 0x0D then do
    let buf ← r.buf.store r.len 0
    let sh ← histAdd sh buf
    pure ⟨{ sh with histPos := 0 }, .returned buf r.len, [.putchar 0x0A]⟩
  else if c = 0x08 then
    if r.pos > 0 then do
      let buf ← shiftLeft r.buf r.pos 0 (r.len - r.pos)
      let (r, ops) := { r with buf, pos := r.pos - 1, len := r.len - 1 }.redraw (r.len - 1)
      pure ⟨sh, .editing r, ops⟩
    else some ⟨sh, .editing r, []⟩
  else if c ≥ 0x20 ∧ c ≤ 0x7E then
    if r.len < lineSize - 1 then do
      let buf ← shiftRight r.buf r.pos (r.len - r.pos)
      let buf ← buf.store r.pos (UInt8.ofNat c.toNat)
      let (r, ops) := { r with buf, pos := r.pos + 1, len := r.len + 1 }.redraw (r.len + 1)
      pure ⟨sh, .editing r, ops⟩
    else some ⟨sh, .editing r, []⟩
  else some ⟨sh, .editing r, []⟩

/-- A turn of the loop. -/
def poll (r : Readline) (sh : Shell) (p : Poll) : Option Effect :=
  let (r, ops) := r.pollMouse p.mouse
  if p.key = -1 then some ⟨sh, .editing r, ops⟩
  else do
    let e ← r.pressKey sh p.key
    pure { e with ops := ops ++ e.ops }

/-- The state in which the loop starts; the cursor gives the start of the input. -/
def start (buf : Buf) (row col : Int) : Option Readline := do
  let buf ← buf.store 0 0
  pure ⟨buf, 0, 0, 0, row, col, ⟨false, 0, 0⟩⟩

end Readline

end HaoSys.User
