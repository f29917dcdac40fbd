import Mathlib

/-!
# The text screen (`driver/vga.c`)

80 × 25 cells of VGA memory, the text cursor and the protected region. `Vga` is
the state behind these routines; `mem i` is `VGA_ADDR[i]`, and the other fields
are the `static` variables (C `int`s by value: they stay far below 2³¹).

`irq_lock` and `irq_unlock` leave no trace here. A routine that prints erases
the mouse pointer first; that part is in `Driver.Mouse`, and the functions of
this module are what the routines do behind it.
-/

namespace HaoSys.Driver

def vgaWidth : Int := 80
def vgaHeight : Int := 25

structure Vga where
  mem : Int → UInt16
  cursorRow : Int
  cursorCol : Int
  defaultColor : UInt8
  protectionEnabled : Bool
  protectedRow : Int
  protectedCol : Int
  /-- The position in the CRTC registers. -/
  crtc : UInt16

/-- `((uint16_t)color << 8) | c`. -/
def vgaCell (color c : UInt8) : UInt16 := color.toUInt16 <<< 8 ||| c.toUInt16

/-- A coordinate cut off at the edges of the screen. -/
def clampTo (n x : Int) : Int :=
  let x := if x < 0 then 0 else x
  if x ≥ n then n - 1 else x

namespace Vga

/-- `VGA_ADDR[row * VGA_WIDTH + col] = cell`. -/
def setCell (v : Vga) (row col : Int) (cell : UInt16) : Vga :=
  { v with mem := Function.update v.mem (row * vgaWidth + col) cell }

def isPositionProtected (v : Vga) (row col : Int) : Bool :=
  if !v.protectionEnabled then false
  else if row < v.protectedRow then true
  else decide (row = v.protectedRow ∧ col < v.protectedCol)

/-- `vga_update_cursor`. -/
def updateCursor (v : Vga) : Vga :=
  { v with crtc := UInt16.ofInt (v.cursorRow * vgaWidth + v.cursorCol) }

/-- `vga_clear` behind the pointer. -/
def clear (v : Vga) : Vga :=
  updateCursor { v with
    mem := fun i => if 0 ≤ i ∧ i < vgaWidth * vgaHeight then vgaCell v.defaultColor 0x20 else v.mem i
    cursorRow := 0
    cursorCol := 0
    protectionEnabled := false }

/-- `scroll`: rows are copied from the top on, so every row is read before it is written. -/
def scroll (v : Vga) : Vga :=
  if v.cursorRow < vgaHeight then v
  else updateCursor { v with
    mem := fun i =>
      if 0 ≤ i ∧ i < (vgaHeight - 1) * vgaWidth then v.mem (i + vgaWidth)
      else if (vgaHeight - 1) * vgaWidth ≤ i ∧ i < vgaHeight * vgaWidth then
        vgaCell v.defaultColor 0x20
      else v.mem i
    protectedRow := if v.protectedRow > 0 then v.protectedRow - 1 else v.protectedRow
    cursorRow := vgaHeight - 1 }

/-! ## `putchar_core` behind the pointer -/

/-- `\n`. -/
def newline (v : Vga) : Vga :=
  if v.isPositionProtected (v.cursorRow + 1) 0 then v
  else updateCursor (scroll { v with cursorRow := v.cursorRow + 1, cursorCol := 0 })

/-- `\r`. -/
def carriageReturn (v : Vga) : Vga :=
  if v.isPositionProtected v.cursorRow 0 then v
  else updateCursor (scroll { v with cursorCol := 0 })

/-- The last column of a row that is not a blank, from column `n - 1` down. -/
def lastNonSpace (v : Vga) (row : Int) : Nat → Option Int
  | 0 => none
  | n + 1 =>
    if v.mem (row * vgaWidth + n) &&& 0xFF ≠ 0x20 then some n else lastNonSpace v row n

/-- `\b`: one column back, or to the end of the text of the row above. -/
def backspace (color : UInt8) (v : Vga) : Vga :=
  let erase (row col : Int) : Vga :=
    if v.isPositionProtected row col then v
    else updateCursor ({ v with cursorRow := row, cursorCol := col }.setCell row col
      (vgaCell color 0x20))
  if v.cursorCol > 0 then erase v.cursorRow (v.cursorCol - 1)
  else if v.cursorRow > 0 then
    erase (v.cursorRow - 1) ((v.lastNonSpace (v.cursorRow - 1) vgaWidth.toNat).getD 0)
  else v

/-- The cursor after a character: it stops in the lower right corner. -/
def advance (v : Vga) : Vga :=
  let v := { v with cursorCol := v.cursorCol + 1 }
  if v.cursorCol ≥ vgaWidth then
    let v := { v with cursorCol := 0, cursorRow := v.cursorRow + 1 }
    if v.cursorRow ≥ vgaHeight then
      { v with cursorRow := vgaHeight - 1, cursorCol := vgaWidth - 1 }
    else v
  else v

/-- A character that is none of the control characters. -/
def putPlain (c color : UInt8) (v : Vga) : Vga :=
  if v.isPositionProtected v.cursorRow v.cursorCol then v
  else updateCursor (scroll (v.setCell v.cursorRow v.cursorCol (vgaCell color c)).advance)

/-- The blanks a tab stands for. -/
def tabSpaces (v : Vga) : Nat := (4 - v.cursorCol.tmod 4).toNat

/-- `putchar_core` without the pointer. -/
def putcharCore (c color : UInt8) (v : Vga) : Vga :=
  if c = 0x0A then v.newline
  else if c = 0x0D then v.carriageReturn
  else if c = 0x08 then v.backspace color
  else if c = 0x09 then (putPlain 0x20 color)^[v.tabSpaces] v
  else v.putPlain c color

/-! ## Cursor and protection -/

def vgaSetDefaultColor (color : UInt8) (v : Vga) : Vga := { v with defaultColor := color }

def vgaSetProtectedPosition (row col : Int) (v : Vga) : Vga :=
  { v with
    protectedRow := clampTo vgaHeight row
    protectedCol := clampTo vgaWidth col
    protectionEnabled := true }

def vgaDisableProtection (v : Vga) : Vga := { v with protectionEnabled := false }

def vgaProtectBeforeCursor (v : Vga) : Vga := v.vgaSetProtectedPosition v.cursorRow v.cursorCol

/-- Put the cursor at `(row, col)`, unless the place is protected. -/
def moveTo (row col : Int) (v : Vga) : Vga :=
  if v.isPositionProtected row col then v
  else updateCursor { v with cursorRow := row, cursorCol := col }

def vgaSetCursor (row col : Int) (v : Vga) : Vga :=
  v.moveTo (clampTo vgaHeight row) (clampTo vgaWidth col)

def vgaMoveLeft (v : Vga) : Vga :=
  if v.cursorCol > 0 then v.moveTo v.cursorRow (v.cursorCol - 1)
  else if v.cursorRow > 0 then v.moveTo (v.cursorRow - 1) (vgaWidth - 1)
  else v

def vgaMoveRight (v : Vga) : Vga :=
  if v.cursorCol < vgaWidth - 1 then v.moveTo v.cursorRow (v.cursorCol + 1)
  else if v.cursorRow < vgaHeight - 1 then v.moveTo (v.cursorRow + 1) 0
  else v

def vgaMoveUp (v : Vga) : Vga :=
  if v.cursorRow = 0 then v else v.moveTo (v.cursorRow - 1) v.cursorCol

def vgaMoveDown (v : Vga) : Vga :=
  if v.cursorRow = vgaHeight - 1 then v else v.moveTo (v.cursorRow + 1) v.cursorCol

/-! ## Routines that leave the memory alone -/

/-- The state over another memory. -/
def withMem (v : Vga) (m : Int → UInt16) : Vga := { v with mem := m }

/-- `f` neither reads nor writes the memory. -/
def IgnoresMem (f : Vga → Vga) : Prop := ∀ v m, f (v.withMem m) = (f v).withMem m

theorem ignoresMem_moveTo (row col : Int) : IgnoresMem (moveTo row col) := by
  intro v m
  have hprot : (v.withMem m).isPositionProtected row col = v.isPositionProtected row col := rfl
  unfold moveTo
  rw [hprot]
  split <;> rfl

theorem ignoresMem_vgaMoveLeft : IgnoresMem vgaMoveLeft := by
  intro v m
  unfold vgaMoveLeft
  rw [apply_ite (withMem · m), apply_ite (withMem · m), ← ignoresMem_moveTo, ← ignoresMem_moveTo]
  rfl

theorem ignoresMem_vgaMoveRight : IgnoresMem vgaMoveRight := by
  intro v m
  unfold vgaMoveRight
  rw [apply_ite (withMem · m), apply_ite (withMem · m), ← ignoresMem_moveTo, ← ignoresMem_moveTo]
  rfl

theorem ignoresMem_vgaMoveUp : IgnoresMem vgaMoveUp := by
  intro v m
  unfold vgaMoveUp
  rw [apply_ite (withMem · m), ← ignoresMem_moveTo]
  rfl

theorem ignoresMem_vgaMoveDown : IgnoresMem vgaMoveDown := by
  intro v m
  unfold vgaMoveDown
  rw [apply_ite (withMem · m), ← ignoresMem_moveTo]
  rfl

/-! ## The cursor stays on the screen -/

/-- Cursor and boundary are cells of the screen. -/
structure OnScreen (v : Vga) : Prop where
  row : 0 ≤ v.cursorRow ∧ v.cursorRow < vgaHeight
  col : 0 ≤ v.cursorCol ∧ v.cursorCol < vgaWidth
  boundary : 0 ≤ v.protectedRow ∧ v.protectedRow < vgaHeight

theorem clampTo_bounds {n : Int} (hn : 0 < n) (x : Int) : 0 ≤ clampTo n x ∧ clampTo n x < n := by
  unfold clampTo
  simp only
  split <;> split <;> omega

theorem onScreen_updateCursor {v : Vga} (h : v.OnScreen) : v.updateCursor.OnScreen :=
  ⟨h.row, h.col, h.boundary⟩

/-- After a scroll the cursor is on the screen again. -/
theorem onScreen_scroll {v : Vga} (hrow : 0 ≤ v.cursorRow) (hcol : 0 ≤ v.cursorCol ∧
    v.cursorCol < vgaWidth) (hb : 0 ≤ v.protectedRow ∧ v.protectedRow < vgaHeight) :
    v.scroll.OnScreen := by
  unfold scroll
  split
  · next h => exact ⟨⟨hrow, h⟩, hcol, hb⟩
  · refine onScreen_updateCursor ⟨?_, hcol, ?_⟩
    · change 0 ≤ vgaHeight - 1 ∧ vgaHeight - 1 < vgaHeight
      decide
    · simp only
      split <;> omega

theorem onScreen_moveTo {v : Vga} (h : v.OnScreen) {row col : Int}
    (hrow : 0 ≤ row ∧ row < vgaHeight) (hcol : 0 ≤ col ∧ col < vgaWidth) :
    (v.moveTo row col).OnScreen := by
  unfold moveTo
  split
  · exact h
  · exact onScreen_updateCursor ⟨hrow, hcol, h.boundary⟩

theorem lastNonSpace_bounds (v : Vga) (row : Int) (n : Nat) :
    0 ≤ (v.lastNonSpace row n).getD 0 ∧ (v.lastNonSpace row n).getD 0 ≤ n := by
  induction n with
  | zero => exact ⟨Int.le_refl 0, Int.le_refl 0⟩
  | succ n ih =>
    unfold lastNonSpace
    split
    · simp only [Option.getD_some]
      omega
    · omega

theorem onScreen_backspace {v : Vga} (h : v.OnScreen) (color : UInt8) :
    (v.backspace color).OnScreen := by
  have hw : vgaWidth = 80 := rfl
  have hh : vgaHeight = 25 := rfl
  obtain ⟨hr, hc, hb⟩ := h
  have herase : ∀ row col : Int, 0 ≤ row ∧ row < vgaHeight → 0 ≤ col ∧ col < vgaWidth →
      (if v.isPositionProtected row col then v
        else updateCursor ({ v with cursorRow := row, cursorCol := col }.setCell row col
          (vgaCell color 0x20))).OnScreen := by
    intro row col hrow hcol
    split
    · exact ⟨hr, hc, hb⟩
    · exact onScreen_updateCursor ⟨hrow, hcol, hb⟩
  unfold backspace
  simp only
  split
  · exact herase _ _ hr (by omega)
  · split
    · refine herase _ _ (by omega) ?_
      -- the loop looks at columns 79 down to 0
      have hlast := v.lastNonSpace_bounds (v.cursorRow - 1) 79
      have hstep : (v.lastNonSpace (v.cursorRow - 1) vgaWidth.toNat) =
          v.lastNonSpace (v.cursorRow - 1) (79 + 1) := rfl
      rw [hstep]
      unfold lastNonSpace
      split
      · simp only [Option.getD_some]
        omega
      · omega
    · exact ⟨hr, hc, hb⟩

theorem onScreen_putPlain {v : Vga} (h : v.OnScreen) (c color : UInt8) :
    (v.putPlain c color).OnScreen := by
  have hw : vgaWidth = 80 := rfl
  have hh : vgaHeight = 25 := rfl
  obtain ⟨hr, hc, hb⟩ := h
  unfold putPlain
  split
  · exact ⟨hr, hc, hb⟩
  · refine onScreen_updateCursor (onScreen_scroll ?_ ?_ ?_) <;> unfold advance setCell <;>
      simp only <;> split <;> (try split) <;> simp only <;> omega

theorem onScreen_putcharCore {v : Vga} (h : v.OnScreen) (c color : UInt8) :
    (v.putcharCore c color).OnScreen := by
  have hw : vgaWidth = 80 := rfl
  unfold putcharCore
  split
  · unfold newline
    split
    · exact h
    · refine onScreen_updateCursor (onScreen_scroll ?_ ?_ h.boundary) <;> simp only
      · have := h.row
        omega
      · omega
  split
  · unfold carriageReturn
    split
    · exact h
    · refine onScreen_updateCursor (onScreen_scroll h.row.1 ?_ h.boundary)
      simp only
      omega
  split
  · exact onScreen_backspace h color
  split
  · generalize v.tabSpaces = n
    induction n generalizing v with
    | zero => exact h
    | succ n ih => exact ih (onScreen_putPlain h 0x20 color)
  · exact onScreen_putPlain h c color

end Vga

end HaoSys.Driver
