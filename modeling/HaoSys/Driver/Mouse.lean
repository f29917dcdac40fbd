import HaoSys.Driver.Vga

/-!
# The mouse pointer (`driver/mouse.c`)

The pointer is drawn into VGA memory: the cell it covers is kept in
`pointer_under` and put back before the pointer moves or text is printed. Here
`Console` is the screen and the mouse together. `Console.logical` is the screen
without the pointer, and `pointer_transparent` says that mouse input never
shows in it.

Divisions are C's (towards zero). The interrupt flag leaves no trace.
-/

namespace HaoSys.Driver

/-- The proof behind the literals of `Fin 3`. -/
instance neZero3 : NeZero 3 := ⟨by decide⟩

structure Mouse where
  x : Int
  y : Int
  btn : UInt8
  /-- `ps2_pkt_cycle` and `ps2_pkt`. -/
  pktCycle : Nat
  pkt : Fin 3 → UInt8
  sensitivity : Int
  accX : Int
  accY : Int
  pointerActive : Bool
  pointerRow : Int
  pointerCol : Int
  pointerUnder : UInt16
  pointerGlyph : UInt8

structure Console where
  vga : Vga
  mouse : Mouse

def invertAttr (attr : UInt8) : UInt8 := ((attr &&& 0x0F) <<< 4) ||| ((attr >>> 4) &&& 0x0F)

namespace Console

/-! ## The pointer -/

def mousePointerErase (s : Console) : Console :=
  if !s.mouse.pointerActive then s
  else
    { vga := s.vga.setCell s.mouse.pointerRow s.mouse.pointerCol s.mouse.pointerUnder
      mouse := { s.mouse with pointerActive := false } }

/-- The cell a pointer over `under` shows. -/
def pointerCell (glyph : UInt8) (under : UInt16) : UInt16 :=
  vgaCell (invertAttr (under >>> 8).toUInt8) glyph

def pointerDraw (s : Console) (row col : Int) : Console :=
  if s.mouse.pointerActive ∧ s.mouse.pointerRow = row ∧ s.mouse.pointerCol = col then s
  else
    let vga :=
      if s.mouse.pointerActive then
        s.vga.setCell s.mouse.pointerRow s.mouse.pointerCol s.mouse.pointerUnder
      else s.vga
    let under := vga.mem (row * vgaWidth + col)
    { vga := vga.setCell row col (pointerCell s.mouse.pointerGlyph under)
      mouse := { s.mouse with
        pointerRow := row, pointerCol := col, pointerUnder := under, pointerActive := true } }

/-! ## Input -/

/-- The common part of both back ends: displacement `dx` to the right and `dy` in the direction of
`down`, divided by the sensitivity, and the pointer follows. -/
def moveBy (s : Console) (dx dy down : Int) (btn : UInt8) : Console :=
  let m := s.mouse
  let accX := m.accX + dx
  let accY := m.accY + dy
  let x := clampTo vgaWidth (m.x + accX.tdiv m.sensitivity)
  let y := clampTo vgaHeight (m.y + down * accY.tdiv m.sensitivity)
  pointerDraw
    { s with mouse := { m with
        x, y, btn := btn &&& 0x07
        accX := accX.tmod m.sensitivity, accY := accY.tmod m.sensitivity } } y x

/-- A displacement of 9 bits: `sign` is the top one. -/
def signExtend (sign : Bool) (b : UInt8) : Int := if sign then b.toNat - 256 else b.toNat

/-- The end of `mouse_feed_byte`, with a whole packet at hand: it is valid when bit 3 of the first
byte is set. PS/2 counts `dy` upwards. -/
def takePacket (s : Console) : Console :=
  let pkt := s.mouse.pkt
  let s :=
    if pkt 0 &&& 0x08 ≠ 0 then
      s.moveBy (signExtend (pkt 0 &&& 0x10 ≠ 0) (pkt 1)) (signExtend (pkt 0 &&& 0x20 ≠ 0) (pkt 2))
        (-1) (pkt 0)
    else s
  { s with mouse := { s.mouse with pktCycle := 0 } }

/-- `mouse_feed_byte`. -/
def mouseFeedByte (data : UInt8) (s : Console) : Console :=
  let pkt := fun j : Fin 3 => if j.val = s.mouse.pktCycle then data else s.mouse.pkt j
  let s := { s with mouse := { s.mouse with pkt, pktCycle := s.mouse.pktCycle + 1 } }
  if s.mouse.pktCycle = 3 then s.takePacket else s

/-- `usb_process_report`: a boot protocol report, buttons and two signed bytes. -/
def usbProcessReport (data : List UInt8) (s : Console) : Console :=
  match data with
  | buttons :: dx :: dy :: _ =>
    s.moveBy (signExtend (dx ≥ 0x80) dx) (signExtend (dy ≥ 0x80) dy) 1 buttons
  | _ => s

def mouseSetSensitivity (sens : Int) (s : Console) : Console :=
  let sens := if sens < 1 then 1 else sens
  { s with mouse := { s.mouse with sensitivity := if sens > 16 then 16 else sens } }

def mouseSetPointerGlyph (g : UInt8) (s : Console) : Console :=
  { s with mouse := { s.mouse with pointerGlyph := g } }

/-! ## Text output -/

/-- `putchar_core`: the pointer is erased first. A tab prints blanks through it. -/
def putPlain (c color : UInt8) (s : Console) : Console :=
  let s := s.mousePointerErase
  { s with vga := s.vga.putPlain c color }

def putcharCore (c color : UInt8) (s : Console) : Console :=
  let s := s.mousePointerErase
  if c = 0x09 then (putPlain 0x20 color)^[s.vga.tabSpaces] s
  else { s with vga := s.vga.putcharCore c color }

def vgaPutchar (c : UInt8) (s : Console) : Console := s.putcharCore c s.vga.defaultColor

def vgaWriteColor (str : List UInt8) (color : UInt8) (s : Console) : Console :=
  str.foldl (fun s c => s.putcharCore c color) s

def vgaWrite (str : List UInt8) (s : Console) : Console :=
  str.foldl (fun s c => s.vgaPutchar c) s

def vgaClear (s : Console) : Console :=
  let s := s.mousePointerErase
  { s with vga := s.vga.clear }

end Console

/-! ## Runs -/

inductive TextOp where
  | putchar (c : UInt8)
  | write (str : List UInt8)
  | writeColor (str : List UInt8) (color : UInt8)
  | clear
  | setCursor (row col : Int)
  | protectBeforeCursor
  | setProtectedPosition (row col : Int)
  | disableProtection
  | setDefaultColor (color : UInt8)
  | moveLeft
  | moveRight
  | moveUp
  | moveDown

inductive MouseOp where
  | feedByte (data : UInt8)
  | report (data : List UInt8)
  | setSensitivity (sens : Int)
  | setPointerGlyph (g : UInt8)

inductive ConsoleOp where
  | text (op : TextOp)
  | input (op : MouseOp)

/-- What a text operation does to a screen without a pointer. -/
def TextOp.onScreen : TextOp → Vga → Vga
  | .putchar c, v => v.putcharCore c v.defaultColor
  | .write str, v => str.foldl (fun v c => v.putcharCore c v.defaultColor) v
  | .writeColor str color, v => str.foldl (fun v c => v.putcharCore c color) v
  | .clear, v => v.clear
  | .setCursor row col, v => v.vgaSetCursor row col
  | .protectBeforeCursor, v => v.vgaProtectBeforeCursor
  | .setProtectedPosition row col, v => v.vgaSetProtectedPosition row col
  | .disableProtection, v => v.vgaDisableProtection
  | .setDefaultColor color, v => v.vgaSetDefaultColor color
  | .moveLeft, v => v.vgaMoveLeft
  | .moveRight, v => v.vgaMoveRight
  | .moveUp, v => v.vgaMoveUp
  | .moveDown, v => v.vgaMoveDown

namespace Console

def runText (s : Console) : TextOp → Console
  | .putchar c => s.vgaPutchar c
  | .write str => s.vgaWrite str
  | .writeColor str color => s.vgaWriteColor str color
  | .clear => s.vgaClear
  | .setCursor row col => { s with vga := s.vga.vgaSetCursor row col }
  | .protectBeforeCursor => { s with vga := s.vga.vgaProtectBeforeCursor }
  | .setProtectedPosition row col => { s with vga := s.vga.vgaSetProtectedPosition row col }
  | .disableProtection => { s with vga := s.vga.vgaDisableProtection }
  | .setDefaultColor color => { s with vga := s.vga.vgaSetDefaultColor color }
  | .moveLeft => { s with vga := s.vga.vgaMoveLeft }
  | .moveRight => { s with vga := s.vga.vgaMoveRight }
  | .moveUp => { s with vga := s.vga.vgaMoveUp }
  | .moveDown => { s with vga := s.vga.vgaMoveDown }

def runInput (s : Console) : MouseOp → Console
  | .feedByte data => s.mouseFeedByte data
  | .report data => s.usbProcessReport data
  | .setSensitivity sens => s.mouseSetSensitivity sens
  | .setPointerGlyph g => s.mouseSetPointerGlyph g

def step (s : Console) : ConsoleOp → Console
  | .text op => s.runText op
  | .input op => s.runInput op

def run (s : Console) (ops : List ConsoleOp) : Console := ops.foldl step s

/-- The state at boot, over any content of the VGA memory. -/
def boot (mem : Int → UInt16) : Console where
  vga := ⟨mem, 0, 0, 0x0F, false, 0, 0, 0⟩
  mouse := ⟨0, 0, 0, 0, fun _ => 0, 8, 0, 0, false, 0, 0, 0x0F20, 0x1E⟩

/-- The logical screen: the cell under an active pointer is the one it covers. -/
def logical (s : Console) : Vga :=
  if s.mouse.pointerActive then
    s.vga.setCell s.mouse.pointerRow s.mouse.pointerCol s.mouse.pointerUnder
  else s.vga

/-! ## Text output on the logical screen -/

theorem logical_of_inactive {s : Console} (h : s.mouse.pointerActive = false) :
    s.logical = s.vga := by
  unfold logical
  rw [h]
  rfl

theorem mousePointerErase_inactive (s : Console) :
    s.mousePointerErase.mouse.pointerActive = false := by
  unfold mousePointerErase
  split
  · next h => simpa using h
  · rfl

/-- Erasing the pointer uncovers the logical screen. -/
theorem mousePointerErase_vga (s : Console) : s.mousePointerErase.vga = s.logical := by
  unfold mousePointerErase logical
  cases s.mouse.pointerActive <;> rfl

theorem putPlain_vga (c color : UInt8) (s : Console) :
    (s.putPlain c color).vga = s.logical.putPlain c color ∧
      (s.putPlain c color).mouse.pointerActive = false := by
  unfold putPlain
  simp only
  exact ⟨by rw [mousePointerErase_vga], mousePointerErase_inactive s⟩

theorem putPlain_iterate (c color : UInt8) (n : Nat) {s : Console}
    (h : s.mouse.pointerActive = false) :
    ((putPlain c color)^[n] s).vga = (Vga.putPlain c color)^[n] s.vga ∧
      ((putPlain c color)^[n] s).mouse.pointerActive = false := by
  induction n generalizing s with
  | zero => exact ⟨rfl, h⟩
  | succ n ih =>
    obtain ⟨hvga, hinactive⟩ := putPlain_vga c color s
    rw [Function.iterate_succ_apply, Function.iterate_succ_apply, ← logical_of_inactive h, ← hvga]
    exact ih hinactive

/-- **`putchar_core` prints on the logical screen** and leaves no pointer. -/
theorem putcharCore_vga (c color : UInt8) (s : Console) :
    (s.putcharCore c color).vga = s.logical.putcharCore c color ∧
      (s.putcharCore c color).mouse.pointerActive = false := by
  have hvga := mousePointerErase_vga s
  have hinactive := mousePointerErase_inactive s
  unfold putcharCore
  simp only
  split
  · next hc =>
    obtain ⟨hiter, hoff⟩ := putPlain_iterate 0x20 color s.mousePointerErase.vga.tabSpaces hinactive
    refine ⟨?_, hoff⟩
    rw [hiter, hvga, hc]
    rfl
  · exact ⟨by rw [hvga], hinactive⟩

theorem putcharCore_logical (c color : UInt8) (s : Console) :
    (s.putcharCore c color).logical = s.logical.putcharCore c color := by
  obtain ⟨hvga, hinactive⟩ := putcharCore_vga c color s
  rw [logical_of_inactive hinactive, hvga]

theorem logical_defaultColor (s : Console) : s.logical.defaultColor = s.vga.defaultColor := by
  unfold logical
  split <;> rfl

/-- A routine that leaves the memory alone commutes with the pointer. -/
theorem logical_onVga {f : Vga → Vga} (hf : Vga.IgnoresMem f) (s : Console) :
    logical { s with vga := f s.vga } = f s.logical := by
  have hmem := congrArg Vga.mem (hf s.vga s.vga.mem)
  change (f s.vga).mem = s.vga.mem at hmem
  unfold logical
  simp only
  split
  · unfold Vga.setCell
    rw [hmem]
    exact (hf s.vga _).symm
  · rfl

theorem logical_foldl {f : UInt8 → Console → Console} {g : UInt8 → Vga → Vga}
    (hf : ∀ c s, (f c s).logical = g c s.logical) (str : List UInt8) (s : Console) :
    (str.foldl (fun s c => f c s) s).logical = str.foldl (fun v c => g c v) s.logical := by
  induction str generalizing s with
  | nil => rfl
  | cons c str ih =>
    rw [List.foldl_cons, List.foldl_cons, ih, hf]

/-- **A text operation acts on the logical screen.** -/
theorem runText_logical (s : Console) (op : TextOp) :
    (s.runText op).logical = op.onScreen s.logical := by
  have hput : ∀ c s, (vgaPutchar c s).logical = s.logical.putcharCore c s.logical.defaultColor := by
    intro c s
    unfold vgaPutchar
    rw [putcharCore_logical, logical_defaultColor]
  cases op with
  | putchar c => exact hput c s
  | write str => exact logical_foldl hput str s
  | writeColor str color => exact logical_foldl (fun c s => putcharCore_logical c color s) str s
  | clear =>
    change (vgaClear s).logical = s.logical.clear
    unfold vgaClear
    simp only
    rw [mousePointerErase_vga]
    exact logical_of_inactive (mousePointerErase_inactive s)
  | setCursor row col => exact logical_onVga (Vga.ignoresMem_moveTo _ _) s
  | protectBeforeCursor => exact logical_onVga (fun _ _ => rfl) s
  | setProtectedPosition row col => exact logical_onVga (fun _ _ => rfl) s
  | disableProtection => exact logical_onVga (fun _ _ => rfl) s
  | setDefaultColor color => exact logical_onVga (fun _ _ => rfl) s
  | moveLeft => exact logical_onVga Vga.ignoresMem_vgaMoveLeft s
  | moveRight => exact logical_onVga Vga.ignoresMem_vgaMoveRight s
  | moveUp => exact logical_onVga Vga.ignoresMem_vgaMoveUp s
  | moveDown => exact logical_onVga Vga.ignoresMem_vgaMoveDown s

/-! ## Mouse input on the logical screen -/

/-- Writing a cell back as it is read. -/
theorem setCell_self (v : Vga) (row col : Int) :
    v.setCell row col (v.mem (row * vgaWidth + col)) = v := by
  unfold Vga.setCell
  rw [Function.update_eq_self]

theorem setCell_setCell (v : Vga) (row col : Int) (a b : UInt16) :
    (v.setCell row col a).setCell row col b = v.setCell row col b := by
  unfold Vga.setCell
  rw [Function.update_idem]

/-- Drawing the pointer anywhere keeps the logical screen. -/
theorem pointerDraw_logical (s : Console) (row col : Int) :
    (s.pointerDraw row col).logical = s.logical := by
  unfold pointerDraw
  split
  · rfl
  · -- the old cell is restored first, and the new one is kept in `pointer_under`
    change ((s.logical.setCell row col _).setCell row col
      (s.logical.mem (row * vgaWidth + col))) = s.logical
    rw [setCell_setCell, setCell_self]

theorem moveBy_logical (s : Console) (dx dy down : Int) (btn : UInt8) :
    (s.moveBy dx dy down btn).logical = s.logical := by
  unfold moveBy
  rw [pointerDraw_logical]
  rfl

theorem takePacket_logical (s : Console) : s.takePacket.logical = s.logical := by
  unfold takePacket
  simp only
  split
  · exact moveBy_logical s _ _ _ _
  · rfl

/-- **Mouse input never shows on the logical screen.** -/
theorem runInput_logical (s : Console) (op : MouseOp) : (s.runInput op).logical = s.logical := by
  cases op with
  | feedByte data =>
    change (mouseFeedByte data s).logical = s.logical
    unfold mouseFeedByte
    simp only
    split
    · exact takePacket_logical _
    · rfl
  | report data =>
    change (usbProcessReport data s).logical = s.logical
    unfold usbProcessReport
    split
    · exact moveBy_logical _ _ _ _ _
    · rfl
  | setSensitivity sens => rfl
  | setPointerGlyph g => rfl

end Console

/-- The text operations of a run. -/
def ConsoleOp.text? : ConsoleOp → Option TextOp
  | .text op => some op
  | .input _ => none

/-- The run without its mouse input. -/
def textOnly (ops : List ConsoleOp) : List ConsoleOp := (ops.filterMap ConsoleOp.text?).map .text

namespace Console

/-- The logical screen after a run is that of its text operations alone. -/
theorem run_logical (s : Console) (ops : List ConsoleOp) :
    (s.run ops).logical =
      (ops.filterMap ConsoleOp.text?).foldl (fun v op => op.onScreen v) s.logical := by
  unfold run
  induction ops generalizing s with
  | nil => rfl
  | cons op ops ih =>
    rw [List.foldl_cons, ih]
    cases op with
    | text op =>
      change List.foldl _ (s.runText op).logical _ = _
      rw [runText_logical]
      rfl
    | input op =>
      change List.foldl _ (s.runInput op).logical _ = _
      rw [runInput_logical]
      rfl

theorem filterMap_textOnly (ops : List ConsoleOp) :
    (textOnly ops).filterMap ConsoleOp.text? = ops.filterMap ConsoleOp.text? := by
  unfold textOnly
  rw [List.filterMap_map]
  exact List.filterMap_some

end Console

/-- **The pointer is transparent.** In every state a run from boot reaches, whatever mouse input
is interleaved with text operations, the logical screen, the text cursor and the protection
boundary are the same as after the text operations alone. -/
theorem pointer_transparent (mem : Int → UInt16) (before ops : List ConsoleOp) :
    (((Console.boot mem).run before).run ops).logical =
      (((Console.boot mem).run before).run (textOnly ops)).logical := by
  rw [Console.run_logical _ ops, Console.run_logical _ (textOnly ops), Console.filterMap_textOnly]

/-! ## The drivers stay well formed

No division by zero, no index outside the packet and no cell outside the screen, so the C
expressions mean what they mean here. -/

structure Mouse.Ok (m : Mouse) : Prop where
  sensitivity : 1 ≤ m.sensitivity ∧ m.sensitivity ≤ 16
  acc : |m.accX| ≤ 16 ∧ |m.accY| ≤ 16
  position : (0 ≤ m.x ∧ m.x < vgaWidth) ∧ 0 ≤ m.y ∧ m.y < vgaHeight
  pointer : (0 ≤ m.pointerRow ∧ m.pointerRow < vgaHeight) ∧
    0 ≤ m.pointerCol ∧ m.pointerCol < vgaWidth

structure Console.Ok (s : Console) : Prop where
  vga : s.vga.OnScreen
  mouse : s.mouse.Ok
  cycle : s.mouse.pktCycle < 3

namespace Console

theorem ok_mousePointerErase {s : Console} (h : s.Ok) : s.mousePointerErase.Ok := by
  unfold mousePointerErase
  split
  · exact h
  · exact ⟨⟨h.vga.row, h.vga.col, h.vga.boundary⟩,
      ⟨h.mouse.sensitivity, h.mouse.acc, h.mouse.position, h.mouse.pointer⟩, h.cycle⟩

theorem pointerDraw_onScreen {s : Console} (h : s.vga.OnScreen) (row col : Int) :
    (s.pointerDraw row col).vga.OnScreen := by
  unfold pointerDraw
  split
  · exact h
  · simp only
    split <;> exact ⟨h.row, h.col, h.boundary⟩

theorem pointerDraw_mouse {s : Console} (h : s.mouse.Ok) {row col : Int}
    (hrow : 0 ≤ row ∧ row < vgaHeight) (hcol : 0 ≤ col ∧ col < vgaWidth) :
    (s.pointerDraw row col).mouse.Ok ∧
      (s.pointerDraw row col).mouse.pktCycle = s.mouse.pktCycle := by
  unfold pointerDraw
  split
  · exact ⟨h, rfl⟩
  · exact ⟨⟨h.sensitivity, h.acc, h.position, hrow, hcol⟩, rfl⟩

theorem abs_tmod_le {a n : Int} (hn : 1 ≤ n ∧ n ≤ 16) : |a.tmod n| ≤ 16 := by
  have h1 := Int.tmod_lt_of_pos a (show 0 < n by omega)
  have h2 := Int.lt_tmod_of_pos a (show 0 < n by omega)
  rw [abs_le]
  omega

/-- The packet index does not matter to a movement. -/
theorem moveBy_ok {s : Console} (hv : s.vga.OnScreen) (h : s.mouse.Ok) (dx dy down : Int)
    (btn : UInt8) : (s.moveBy dx dy down btn).vga.OnScreen ∧ (s.moveBy dx dy down btn).mouse.Ok ∧
      (s.moveBy dx dy down btn).mouse.pktCycle = s.mouse.pktCycle := by
  have hx := Vga.clampTo_bounds (n := vgaWidth) (by decide)
  have hy := Vga.clampTo_bounds (n := vgaHeight) (by decide)
  unfold moveBy
  simp only
  refine ⟨?_, pointerDraw_mouse ?_ (hy _) (hx _)⟩
  · apply pointerDraw_onScreen
    exact hv
  · exact ⟨h.sensitivity, ⟨abs_tmod_le h.sensitivity, abs_tmod_le h.sensitivity⟩,
      ⟨hx _, hy _⟩, h.pointer⟩

theorem takePacket_ok {s : Console} (hv : s.vga.OnScreen) (h : s.mouse.Ok) : s.takePacket.Ok := by
  unfold takePacket
  simp only
  split
  · obtain ⟨hv', h', -⟩ := moveBy_ok hv h (signExtend (s.mouse.pkt 0 &&& 0x10 ≠ 0) (s.mouse.pkt 1))
      (signExtend (s.mouse.pkt 0 &&& 0x20 ≠ 0) (s.mouse.pkt 2)) (-1) (s.mouse.pkt 0)
    exact ⟨hv', ⟨h'.sensitivity, h'.acc, h'.position, h'.pointer⟩, Nat.zero_lt_succ 2⟩
  · exact ⟨hv, ⟨h.sensitivity, h.acc, h.position, h.pointer⟩, Nat.zero_lt_succ 2⟩

theorem runInput_ok {s : Console} (h : s.Ok) (op : MouseOp) : (s.runInput op).Ok := by
  obtain ⟨hv, hm, hc⟩ := h
  have hm' := hm
  obtain ⟨hs, ha, hp, hq⟩ := hm
  cases op with
  | feedByte data =>
    change (mouseFeedByte data s).Ok
    unfold mouseFeedByte
    simp only
    split
    · exact takePacket_ok hv ⟨hs, ha, hp, hq⟩
    · next h3 => exact ⟨hv, ⟨hs, ha, hp, hq⟩, by simp only; omega⟩
  | report data =>
    change (usbProcessReport data s).Ok
    unfold usbProcessReport
    split
    · next buttons dx dy _ =>
      obtain ⟨hv', h', hcycle⟩ := moveBy_ok hv hm' (signExtend (dx ≥ 0x80) dx)
        (signExtend (dy ≥ 0x80) dy) 1 buttons
      exact ⟨hv', h', hcycle ▸ hc⟩
    · exact ⟨hv, hm', hc⟩
  | setSensitivity sens =>
    refine ⟨hv, ⟨?_, ha, hp, hq⟩, hc⟩
    change 1 ≤ (if (if sens < 1 then 1 else sens) > 16 then 16 else if sens < 1 then 1 else sens) ∧
      (if (if sens < 1 then 1 else sens) > 16 then 16 else if sens < 1 then 1 else sens) ≤ 16
    split <;> split <;> omega
  | setPointerGlyph g => exact ⟨hv, ⟨hs, ha, hp, hq⟩, hc⟩

theorem putcharCore_ok {s : Console} (h : s.Ok) (c color : UInt8) : (s.putcharCore c color).Ok := by
  have he := ok_mousePointerErase h
  unfold putcharCore
  simp only
  split
  · generalize s.mousePointerErase.vga.tabSpaces = n
    generalize s.mousePointerErase = t at he
    induction n generalizing t with
    | zero => exact he
    | succ n ih =>
      have ht := ok_mousePointerErase he
      exact ih _ ⟨Vga.onScreen_putPlain ht.vga 0x20 color, ht.mouse, ht.cycle⟩
  · exact ⟨Vga.onScreen_putcharCore he.vga c color, he.mouse, he.cycle⟩

theorem foldl_ok {f : UInt8 → Console → Console} (hf : ∀ c s, s.Ok → (f c s).Ok)
    (str : List UInt8) {s : Console} (h : s.Ok) : (str.foldl (fun s c => f c s) s).Ok := by
  induction str generalizing s with
  | nil => exact h
  | cons c str ih => exact ih (hf c s h)

theorem runText_ok {s : Console} (h : s.Ok) (op : TextOp) : (s.runText op).Ok := by
  have hx := Vga.clampTo_bounds (n := vgaWidth) (by decide)
  have hy := Vga.clampTo_bounds (n := vgaHeight) (by decide)
  have hw : vgaWidth = 80 := rfl
  have hh : vgaHeight = 25 := rfl
  have hr := h.vga.row
  have hc := h.vga.col
  cases op with
  | putchar c => exact putcharCore_ok h c _
  | write str => exact foldl_ok (fun c s hs => putcharCore_ok hs c s.vga.defaultColor) str h
  | writeColor str color => exact foldl_ok (fun c s hs => putcharCore_ok hs c color) str h
  | clear =>
    have he := ok_mousePointerErase h
    have hzero : (0 : Int) < 25 ∧ (0 : Int) < 80 := by decide
    exact ⟨Vga.onScreen_updateCursor ⟨⟨Int.le_refl 0, hzero.1⟩, ⟨Int.le_refl 0, hzero.2⟩,
      he.vga.boundary⟩, he.mouse, he.cycle⟩
  | setCursor row col =>
    exact ⟨Vga.onScreen_moveTo h.vga (hy row) (hx col), h.mouse, h.cycle⟩
  | protectBeforeCursor => exact ⟨⟨hr, hc, hy _⟩, h.mouse, h.cycle⟩
  | setProtectedPosition row col => exact ⟨⟨hr, hc, hy _⟩, h.mouse, h.cycle⟩
  | disableProtection => exact ⟨⟨hr, hc, h.vga.boundary⟩, h.mouse, h.cycle⟩
  | setDefaultColor color => exact ⟨⟨hr, hc, h.vga.boundary⟩, h.mouse, h.cycle⟩
  | moveLeft =>
    refine ⟨?_, h.mouse, h.cycle⟩
    change s.vga.vgaMoveLeft.OnScreen
    unfold Vga.vgaMoveLeft
    split
    · exact Vga.onScreen_moveTo h.vga hr (by omega)
    · split
      · exact Vga.onScreen_moveTo h.vga (by omega) (by omega)
      · exact h.vga
  | moveRight =>
    refine ⟨?_, h.mouse, h.cycle⟩
    change s.vga.vgaMoveRight.OnScreen
    unfold Vga.vgaMoveRight
    split
    · exact Vga.onScreen_moveTo h.vga hr (by omega)
    · split
      · exact Vga.onScreen_moveTo h.vga (by omega) (by omega)
      · exact h.vga
  | moveUp =>
    refine ⟨?_, h.mouse, h.cycle⟩
    change s.vga.vgaMoveUp.OnScreen
    unfold Vga.vgaMoveUp
    split
    · exact h.vga
    · exact Vga.onScreen_moveTo h.vga (by omega) hc
  | moveDown =>
    refine ⟨?_, h.mouse, h.cycle⟩
    change s.vga.vgaMoveDown.OnScreen
    unfold Vga.vgaMoveDown
    split
    · exact h.vga
    · exact Vga.onScreen_moveTo h.vga (by omega) hc

/-- **Every run stays on the screen.** -/
theorem run_ok {s : Console} (h : s.Ok) (ops : List ConsoleOp) : (s.run ops).Ok := by
  unfold run
  induction ops generalizing s with
  | nil => exact h
  | cons op ops ih =>
    cases op with
    | text op => exact ih (runText_ok h op)
    | input op => exact ih (runInput_ok h op)

theorem boot_ok (mem : Int → UInt16) : (boot mem).Ok := by
  refine ⟨⟨?_, ?_, ?_⟩, ⟨?_, ?_, ⟨?_, ?_⟩, ?_, ?_⟩, ?_⟩ <;> unfold boot <;> simp [vgaHeight, vgaWidth]

end Console

end HaoSys.Driver
