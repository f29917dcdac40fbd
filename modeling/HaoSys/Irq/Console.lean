import HaoSys.Driver.Mouse
import HaoSys.Lib.Critical

/-!
# The interrupt flag under the text screen (`driver/vga.c`)

The routines of `Driver.Vga` and `Driver.Mouse` that lock, with each
`irq_lock`, `irq_unlock` and return where the source has it. What they do to
the screen is what the routines without the flag do (`runText_apply`);
`vga_move_left` and `vga_move_right` return from the upper left and the lower
right corner without `irq_unlock`.
-/

namespace HaoSys.Irq

open HaoSys.Lib HaoSys.Driver Flagged

/-- Routines on screen and pointer; they do not fail. -/
abbrev ConsoleM := Flagged Console Empty

def look : ConsoleM Console := lift get

def act (f : Console → Console) : ConsoleM Unit := lift (modify f)

def actVga (f : Vga → Vga) : ConsoleM Unit := act fun s => { s with vga := f s.vga }

/-! ## `vga.c` -/

def vgaUpdateCursor : ConsoleM Unit := do
  let fl ← enter
  actVga Vga.updateCursor
  leave fl

def mousePointerErase : ConsoleM Unit := do
  let fl ← enter
  let s ← look
  if !s.mouse.pointerActive then leave fl
  else
    act fun s =>
      { vga := s.vga.setCell s.mouse.pointerRow s.mouse.pointerCol s.mouse.pointerUnder
        mouse := { s.mouse with pointerActive := false } }
    leave fl

def vgaClear : ConsoleM Unit := do
  let fl ← enter
  mousePointerErase
  actVga fun v => { v with
    mem := fun i => if 0 ≤ i ∧ i < vgaWidth * vgaHeight then vgaCell v.defaultColor 0x20 else v.mem i
    cursorRow := 0
    cursorCol := 0
    protectionEnabled := false }
  vgaUpdateCursor
  leave fl

def scroll : ConsoleM Unit := do
  let s ← look
  if s.vga.cursorRow < vgaHeight then pure ()
  else
    actVga fun v => { v with
      mem := fun i =>
        if 0 ≤ i ∧ i < (vgaHeight - 1) * vgaWidth then v.mem (i + vgaWidth)
        else if (vgaHeight - 1) * vgaWidth ≤ i ∧ i < vgaHeight * vgaWidth then
          vgaCell v.defaultColor 0x20
        else v.mem i
      protectedRow := if v.protectedRow > 0 then v.protectedRow - 1 else v.protectedRow
      cursorRow := vgaHeight - 1 }
    vgaUpdateCursor

/-! The branches of `putchar_core`. -/

def newline : ConsoleM Unit := do
  let s ← look
  if s.vga.isPositionProtected (s.vga.cursorRow + 1) 0 then pure ()
  else
    actVga fun v => { v with cursorRow := v.cursorRow + 1, cursorCol := 0 }
    scroll
    vgaUpdateCursor

def carriageReturn : ConsoleM Unit := do
  let s ← look
  if s.vga.isPositionProtected s.vga.cursorRow 0 then pure ()
  else
    actVga fun v => { v with cursorCol := 0 }
    scroll
    vgaUpdateCursor

/-- The end of `\b`: put a blank at `(row, col)` and the cursor on it. -/
def eraseAt (color : UInt8) (row col : Int) : ConsoleM Unit := do
  let s ← look
  if s.vga.isPositionProtected row col then pure ()
  else
    actVga fun v => { v with cursorRow := row, cursorCol := col }.setCell row col (vgaCell color 0x20)
    vgaUpdateCursor

def backspace (color : UInt8) : ConsoleM Unit := do
  let s ← look
  let v := s.vga
  if v.cursorCol > 0 then eraseAt color v.cursorRow (v.cursorCol - 1)
  else if v.cursorRow > 0 then
    eraseAt color (v.cursorRow - 1) ((v.lastNonSpace (v.cursorRow - 1) vgaWidth.toNat).getD 0)
  else pure ()

def putPlain (c color : UInt8) : ConsoleM Unit := do
  let s ← look
  if s.vga.isPositionProtected s.vga.cursorRow s.vga.cursorCol then pure ()
  else
    actVga fun v => (v.setCell v.cursorRow v.cursorCol (vgaCell color c)).advance
    scroll
    vgaUpdateCursor

/-- The blanks of a tab, each a call of `putchar_core`. -/
def putBlanks (color : UInt8) : Nat → ConsoleM Unit
  | 0 => pure ()
  | n + 1 => do
    mousePointerErase
    putPlain 0x20 color
    putBlanks color n

def putcharCore (c color : UInt8) : ConsoleM Unit := do
  mousePointerErase
  if c = 0x0A then newline
  else if c = 0x0D then carriageReturn
  else if c = 0x08 then backspace color
  else if c = 0x09 then
    let s ← look
    putBlanks color s.vga.tabSpaces
  else putPlain c color

def vgaPutchar (c : UInt8) : ConsoleM Unit := do
  let fl ← enter
  let s ← look
  putcharCore c s.vga.defaultColor
  leave fl

/-- The loop of `vga_write`. -/
def writeLoop : List UInt8 → ConsoleM Unit
  | [] => pure ()
  | c :: str => do
    let s ← look
    putcharCore c s.vga.defaultColor
    writeLoop str

def vgaWrite (str : List UInt8) : ConsoleM Unit := do
  let fl ← enter
  writeLoop str
  leave fl

/-- The loop of `vga_write_color`. -/
def writeColorLoop (color : UInt8) : List UInt8 → ConsoleM Unit
  | [] => pure ()
  | c :: str => do
    putcharCore c color
    writeColorLoop color str

def vgaWriteColor (str : List UInt8) (color : UInt8) : ConsoleM Unit := do
  let fl ← enter
  writeColorLoop color str
  leave fl

def vgaSetProtectedPosition (row col : Int) : ConsoleM Unit := do
  let fl ← enter
  actVga fun v => { v with
    protectedRow := clampTo vgaHeight row
    protectedCol := clampTo vgaWidth col
    protectionEnabled := true }
  leave fl

def vgaDisableProtection : ConsoleM Unit := do
  let fl ← enter
  actVga fun v => { v with protectionEnabled := false }
  leave fl

def vgaProtectBeforeCursor : ConsoleM Unit := do
  let fl ← enter
  let s ← look
  vgaSetProtectedPosition s.vga.cursorRow s.vga.cursorCol
  leave fl

/-- The end of the routines that move the cursor, with the flag they saved. -/
def moveTo (fl : Bool) (row col : Int) : ConsoleM Unit := do
  let s ← look
  if s.vga.isPositionProtected row col then leave fl
  else
    actVga fun v => { v with cursorRow := row, cursorCol := col }
    vgaUpdateCursor
    leave fl

def vgaMoveLeft : ConsoleM Unit := do
  let fl ← enter
  let s ← look
  if s.vga.cursorCol > 0 then moveTo fl s.vga.cursorRow (s.vga.cursorCol - 1)
  else if s.vga.cursorRow > 0 then moveTo fl (s.vga.cursorRow - 1) (vgaWidth - 1)
  else pure ()  -- `return` without `irq_unlock`

def vgaMoveRight : ConsoleM Unit := do
  let fl ← enter
  let s ← look
  if s.vga.cursorCol < vgaWidth - 1 then moveTo fl s.vga.cursorRow (s.vga.cursorCol + 1)
  else if s.vga.cursorRow < vgaHeight - 1 then moveTo fl (s.vga.cursorRow + 1) 0
  else pure ()  -- here too

def vgaMoveUp : ConsoleM Unit := do
  let fl ← enter
  let s ← look
  if s.vga.cursorRow = 0 then leave fl else moveTo fl (s.vga.cursorRow - 1) s.vga.cursorCol

def vgaMoveDown : ConsoleM Unit := do
  let fl ← enter
  let s ← look
  if s.vga.cursorRow = vgaHeight - 1 then leave fl
  else moveTo fl (s.vga.cursorRow + 1) s.vga.cursorCol

def vgaSetCursor (row col : Int) : ConsoleM Unit := do
  let fl ← enter
  moveTo fl (clampTo vgaHeight row) (clampTo vgaWidth col)

/-! ## Execution -/

section Steps

variable {α : Type} (s : Console) (fl : Bool)

@[simp] theorem enter_apply (k : Bool → ConsoleM α) : (enter >>= k) (s, fl) = k fl (s, false) := rfl

@[simp] theorem leave_apply (fl' : Bool) : (leave fl' : ConsoleM Unit) (s, fl) = .ok ((), (s, fl')) :=
  rfl

@[simp] theorem look_apply (k : Console → ConsoleM α) : (look >>= k) (s, fl) = k s (s, fl) := rfl

@[simp] theorem act_apply (f : Console → Console) : act f (s, fl) = .ok ((), (f s, fl)) := rfl

@[simp] theorem act_bind_apply (f : Console → Console) (k : Unit → ConsoleM α) :
    (act f >>= k) (s, fl) = k () (f s, fl) := rfl

@[simp] theorem actVga_apply (f : Vga → Vga) :
    actVga f (s, fl) = .ok ((), ({ s with vga := f s.vga }, fl)) := rfl

@[simp] theorem actVga_bind_apply (f : Vga → Vga) (k : Unit → ConsoleM α) :
    (actVga f >>= k) (s, fl) = k () ({ s with vga := f s.vga }, fl) := rfl

end Steps

/-! ## The routines are those without the flag -/

@[simp] theorem vgaUpdateCursor_eq : vgaUpdateCursor = actVga Vga.updateCursor := rfl

@[simp] theorem mousePointerErase_eq : mousePointerErase = act Console.mousePointerErase := by
  funext ⟨s, fl⟩
  unfold mousePointerErase Console.mousePointerErase
  simp only [enter_apply, look_apply, act_apply]
  split <;> rfl

@[simp] theorem scroll_eq : scroll = actVga Vga.scroll := by
  funext ⟨s, fl⟩
  unfold scroll Vga.scroll
  simp only [look_apply, actVga_apply]
  split <;> rfl

theorem newline_eq : newline = actVga Vga.newline := by
  funext ⟨s, fl⟩
  unfold newline Vga.newline
  simp only [look_apply, actVga_apply, scroll_eq]
  split <;> rfl

theorem carriageReturn_eq : carriageReturn = actVga Vga.carriageReturn := by
  funext ⟨s, fl⟩
  unfold carriageReturn Vga.carriageReturn
  simp only [look_apply, actVga_apply, scroll_eq]
  split <;> rfl

theorem putPlain_eq (c color : UInt8) : putPlain c color = actVga (Vga.putPlain c color) := by
  funext ⟨s, fl⟩
  unfold putPlain Vga.putPlain
  simp only [look_apply, actVga_apply, scroll_eq]
  split <;> rfl

theorem eraseAt_apply (color : UInt8) (row col : Int) (s : Console) (fl : Bool) :
    eraseAt color row col (s, fl) = .ok ((), ({ s with
      vga := if s.vga.isPositionProtected row col then s.vga
        else Vga.updateCursor ({ s.vga with cursorRow := row, cursorCol := col }.setCell row col
          (vgaCell color 0x20)) }, fl)) := by
  unfold eraseAt
  simp only [look_apply]
  split <;> rfl

theorem backspace_eq (color : UInt8) : backspace color = actVga (Vga.backspace color) := by
  funext ⟨s, fl⟩
  unfold backspace Vga.backspace
  simp only [look_apply, actVga_apply]
  split
  · exact eraseAt_apply ..
  split
  · exact eraseAt_apply ..
  · rfl

theorem putBlanks_eq (color : UInt8) (n : Nat) :
    putBlanks color n = act (Console.putPlain 0x20 color)^[n] := by
  induction n with
  | zero => rfl
  | succ n ih =>
    funext ⟨s, fl⟩
    unfold putBlanks
    rw [ih, putPlain_eq, mousePointerErase_eq]
    rfl

@[simp] theorem putcharCore_eq (c color : UInt8) :
    putcharCore c color = act (Console.putcharCore c color) := by
  funext ⟨s, fl⟩
  unfold putcharCore Console.putcharCore Vga.putcharCore
  simp only [mousePointerErase_eq, act_bind_apply, act_apply, newline_eq, carriageReturn_eq,
    backspace_eq, putBlanks_eq, putPlain_eq]
  split
  · next h =>
    rw [if_neg (by rw [h]; decide)]
    rfl
  split
  · next h =>
    rw [if_neg (by rw [h]; decide)]
    rfl
  split
  · next h =>
    rw [if_neg (by rw [h]; decide)]
    rfl
  split <;> rfl

theorem writeLoop_eq (str : List UInt8) : writeLoop str = act (Console.vgaWrite str) := by
  induction str with
  | nil => rfl
  | cons c str ih =>
    funext ⟨s, fl⟩
    unfold writeLoop
    rw [look_apply, putcharCore_eq, act_bind_apply, ih]
    rfl

theorem writeColorLoop_eq (color : UInt8) (str : List UInt8) :
    writeColorLoop color str = act (Console.vgaWriteColor str color) := by
  induction str with
  | nil => rfl
  | cons c str ih =>
    funext ⟨s, fl⟩
    unfold writeColorLoop
    rw [putcharCore_eq, act_bind_apply, ih]
    rfl

theorem moveTo_apply (fl : Bool) (row col : Int) (s : Console) (i : Bool) :
    moveTo fl row col (s, i) = .ok ((), ({ s with vga := s.vga.moveTo row col }, fl)) := by
  unfold moveTo Vga.moveTo
  simp only [look_apply]
  split <;> rfl

/-! ## Calls -/

/-- `vga_update_cursor`, or one of the other routines. -/
inductive ConsoleCall where
  | updateCursor
  | text (op : TextOp)

def runText : TextOp → ConsoleM Unit
  | .putchar c => vgaPutchar c
  | .write str => vgaWrite str
  | .writeColor str color => vgaWriteColor str color
  | .clear => vgaClear
  | .setCursor row col => vgaSetCursor row col
  | .protectBeforeCursor => vgaProtectBeforeCursor
  | .setProtectedPosition row col => vgaSetProtectedPosition row col
  | .disableProtection => vgaDisableProtection
  | .setDefaultColor color => actVga (Vga.vgaSetDefaultColor color)
  | .moveLeft => vgaMoveLeft
  | .moveRight => vgaMoveRight
  | .moveUp => vgaMoveUp
  | .moveDown => vgaMoveDown

def ConsoleCall.run : ConsoleCall → ConsoleM Unit
  | .updateCursor => vgaUpdateCursor
  | .text op => runText op

/-- The cursor is to leave the screen at the corner it stands in. -/
def cornered (v : Vga) : ConsoleCall → Bool
  | .text .moveLeft => decide (v.cursorCol ≤ 0 ∧ v.cursorRow ≤ 0)
  | .text .moveRight => decide (vgaWidth - 1 ≤ v.cursorCol ∧ vgaHeight - 1 ≤ v.cursorRow)
  | _ => false

/-- The call on a console without a flag. -/
def ConsoleCall.effect : ConsoleCall → Console → Console
  | .updateCursor, s => { s with vga := s.vga.updateCursor }
  | .text op, s => s.runText op

theorem vgaMoveLeft_apply (s : Console) (fl : Bool) :
    vgaMoveLeft (s, fl) = .ok ((), ({ s with vga := s.vga.vgaMoveLeft },
      fl && !cornered s.vga (.text .moveLeft))) := by
  unfold vgaMoveLeft Vga.vgaMoveLeft cornered
  simp only [enter_apply, look_apply]
  split
  · rw [moveTo_apply, decide_eq_false (by omega), Bool.not_false, Bool.and_true]
  split
  · rw [moveTo_apply, decide_eq_false (by omega), Bool.not_false, Bool.and_true]
  · rw [decide_eq_true (by omega), Bool.not_true, Bool.and_false]
    rfl

theorem vgaMoveRight_apply (s : Console) (fl : Bool) :
    vgaMoveRight (s, fl) = .ok ((), ({ s with vga := s.vga.vgaMoveRight },
      fl && !cornered s.vga (.text .moveRight))) := by
  unfold vgaMoveRight Vga.vgaMoveRight cornered
  simp only [enter_apply, look_apply]
  split
  · rw [moveTo_apply, decide_eq_false (by omega), Bool.not_false, Bool.and_true]
  split
  · rw [moveTo_apply, decide_eq_false (by omega), Bool.not_false, Bool.and_true]
  · rw [decide_eq_true (by omega), Bool.not_true, Bool.and_false]
    rfl

theorem vgaMoveUp_apply (s : Console) (fl : Bool) :
    vgaMoveUp (s, fl) = .ok ((), ({ s with vga := s.vga.vgaMoveUp }, fl)) := by
  unfold vgaMoveUp Vga.vgaMoveUp
  simp only [enter_apply, look_apply]
  split
  · rfl
  · exact moveTo_apply ..

theorem vgaMoveDown_apply (s : Console) (fl : Bool) :
    vgaMoveDown (s, fl) = .ok ((), ({ s with vga := s.vga.vgaMoveDown }, fl)) := by
  unfold vgaMoveDown Vga.vgaMoveDown
  simp only [enter_apply, look_apply]
  split
  · rfl
  · exact moveTo_apply ..

/-- Every call does to the console what it does without a flag, and the flag is lost exactly in a
corner. -/
theorem ConsoleCall.run_apply (call : ConsoleCall) (s : Console) (fl : Bool) :
    call.run (s, fl) = .ok ((), (call.effect s, fl && !cornered s.vga call)) := by
  have hnot : ∀ t : Console, (Except.ok ((), (t, fl)) : Except Empty _) =
      .ok ((), (t, fl && !false)) := fun t => by rw [Bool.not_false, Bool.and_true]
  match call with
  | .text .moveLeft => exact vgaMoveLeft_apply s fl
  | .text .moveRight => exact vgaMoveRight_apply s fl
  | .updateCursor => exact hnot _
  | .text (.putchar c) =>
    refine Eq.trans ?_ (hnot _)
    simp only [run, runText, vgaPutchar, enter_apply, look_apply, putcharCore_eq, act_bind_apply,
      leave_apply]
    rfl
  | .text (.write str) =>
    refine Eq.trans ?_ (hnot _)
    simp only [run, runText, vgaWrite, enter_apply, writeLoop_eq, act_bind_apply, leave_apply]
    rfl
  | .text (.writeColor str color) =>
    refine Eq.trans ?_ (hnot _)
    simp only [run, runText, vgaWriteColor, enter_apply, writeColorLoop_eq, act_bind_apply,
      leave_apply]
    rfl
  | .text .clear =>
    refine Eq.trans ?_ (hnot _)
    simp only [run, runText, vgaClear, enter_apply, mousePointerErase_eq, act_bind_apply]
    rfl
  | .text (.setCursor row col) => exact (moveTo_apply ..).trans (hnot _)
  | .text .protectBeforeCursor => exact hnot _
  | .text (.setProtectedPosition row col) => exact hnot _
  | .text .disableProtection => exact hnot _
  | .text (.setDefaultColor color) => exact hnot _
  | .text .moveUp => exact (vgaMoveUp_apply s fl).trans (hnot _)
  | .text .moveDown => exact (vgaMoveDown_apply s fl).trans (hnot _)

/-- A call keeps the flag, except in a corner with interrupts on. -/
theorem ConsoleCall.restores_iff (call : ConsoleCall) (s : Console) (fl : Bool) :
    Restores call.run s fl ↔ (fl = true → cornered s.vga call = false) := by
  unfold Restores
  rw [call.run_apply]
  constructor
  · intro h hfl
    have := h _ _ _ rfl
    rw [hfl] at this
    simpa using this
  · rintro h a t fl' heq
    cases heq
    cases fl
    · rfl
    · rw [h rfl]
      rfl

end HaoSys.Irq
