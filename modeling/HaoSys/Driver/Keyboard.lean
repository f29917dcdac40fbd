import Mathlib

/-!
# The keyboard (`driver/keyboard.c`)

Scancodes of set 1 come from the PS/2 controller, which delivers mouse bytes at
the same port. The keyboard's interrupt is masked, so the bytes are read by the
two functions that return a key: `keyboard_get_char` waits for one and reads
the controller empty into a ring, `keyboard_get_char_nb` looks once. The
controller is the list of what the successive looks at its status register see:
nothing, or the byte at its head.

Without a USB keyboard its ring stays empty, so `usb_keyboard_has_char` is
false; the branches behind it are left out.
-/

namespace HaoSys.Driver

/-! ## Scancodes -/

/-- `normal_map` up to its last entry; what follows is 0. -/
def normalMap : List UInt8 :=
  [0x00, 0x1B, 0x31, 0x32, 0x33, 0x34, 0x35, 0x36, 0x37, 0x38, 0x39, 0x30, 0x2D, 0x3D, 0x08, 0x09,
    -- 0x10: the row from Q, Enter, Ctrl
    0x71, 0x77, 0x65, 0x72, 0x74, 0x79, 0x75, 0x69, 0x6F, 0x70, 0x5B, 0x5D, 0x0A, 0x00,
    -- 0x1E: the row from A
    0x61, 0x73, 0x64, 0x66, 0x67, 0x68, 0x6A, 0x6B, 0x6C, 0x3B, 0x27, 0x60,
    -- 0x2A: left Shift, backslash, the row from Z, right Shift
    0x00, 0x5C, 0x7A, 0x78, 0x63, 0x76, 0x62, 0x6E, 0x6D, 0x2C, 0x2E, 0x2F, 0x00,
    -- 0x37: PrtSc, Alt, space
    0x2A, 0x00, 0x20]

/-- `shift_map`. -/
def shiftMap : List UInt8 :=
  [0x00, 0x1B, 0x21, 0x40, 0x23, 0x24, 0x25, 0x5E, 0x26, 0x2A, 0x28, 0x29, 0x5F, 0x2B, 0x08, 0x09,
    0x51, 0x57, 0x45, 0x52, 0x54, 0x59, 0x55, 0x49, 0x4F, 0x50, 0x7B, 0x7D, 0x0A, 0x00,
    0x41, 0x53, 0x44, 0x46, 0x47, 0x48, 0x4A, 0x4B, 0x4C, 0x3A, 0x22, 0x7E,
    0x00, 0x7C, 0x5A, 0x58, 0x43, 0x56, 0x42, 0x4E, 0x4D, 0x3C, 0x3E, 0x3F, 0x00,
    0x2A, 0x00, 0x20]

/-- `shift_pressed` and `caps_lock`. -/
structure Modifiers where
  shiftPressed : Bool
  capsLock : Bool
  deriving DecidableEq, Repr

def isLower (c : UInt8) : Bool := 0x61 ≤ c ∧ c ≤ 0x7A

def isUpper (c : UInt8) : Bool := 0x41 ≤ c ∧ c ≤ 0x5A

/-- `apply_caps_lock`. -/
def applyCapsLock (m : Modifiers) (c : UInt8) : UInt8 :=
  if isLower c ∨ isUpper c then
    if m.shiftPressed ^^ m.capsLock then if isLower c then c - 0x61 + 0x41 else c
    else if isUpper c then c - 0x41 + 0x61 else c
  else c

/-- `ps2_scancode_to_ascii`; 0 is no character. -/
def ps2ScancodeToAscii (sc : UInt8) (m : Modifiers) : UInt8 × Modifiers :=
  if sc &&& 0x80 ≠ 0 then
    let key := sc &&& 0x7F
    (0, if key = 0x2A ∨ key = 0x36 then { m with shiftPressed := false } else m)
  else if sc = 0x2A ∨ sc = 0x36 then (0, { m with shiftPressed := true })
  else if sc = 0x3A then (0, { m with capsLock := !m.capsLock })
  else
    let map := if m.shiftPressed then shiftMap else normalMap
    let c := if sc.toNat < 128 then map.getD sc.toNat 0 else 0
    (if c ≠ 0 then applyCapsLock m c else c, m)

/-- The `switch` over the arrow keys. -/
def arrowCode : UInt8 → Option UInt8
  | 0x48 => some 0x01
  | 0x50 => some 0x02
  | 0x4B => some 0x03
  | 0x4D => some 0x04
  | _ => none

/-- A property of all bytes, checked one by one. -/
theorem forall_byte {P : UInt8 → Prop} (h : ∀ n < 256, P (UInt8.ofNat n)) (b : UInt8) : P b := by
  have := h b.toNat b.toNat_lt
  rwa [UInt8.ofNat_toNat] at this

/-! ## The ring -/

/-- The proof behind the literals of `Fin 64`. -/
instance neZero64 : NeZero 64 := ⟨by decide⟩

/-- The `static` variables; the indices are below `PS2_BUFFER_SIZE` and wrap around there. -/
structure Keyboard where
  mods : Modifiers
  ps2Buffer : Fin 64 → UInt8
  ps2Head : Fin 64
  ps2Tail : Fin 64

namespace Keyboard

/-- A scancode goes into the ring if there is room. -/
def enqueue (sc : UInt8) (k : Keyboard) : Keyboard :=
  let nextTail := k.ps2Tail + 1
  if nextTail ≠ k.ps2Head then
    { k with ps2Buffer := Function.update k.ps2Buffer k.ps2Tail sc, ps2Tail := nextTail }
  else k

/-- The scancode at the head, and the ring without it. -/
def dequeue (k : Keyboard) : UInt8 × Keyboard :=
  (k.ps2Buffer k.ps2Head, { k with ps2Head := k.ps2Head + 1 })

/-- The scancodes in the ring, the oldest first. -/
def pending (k : Keyboard) : List UInt8 :=
  (List.range (k.ps2Tail - k.ps2Head).val).map fun i => k.ps2Buffer (k.ps2Head + Fin.ofNat 64 i)

end Keyboard

/-! ## The controller -/

/-- A byte in the output buffer, with the AUX bit of the status register. -/
inductive PortByte where
  | key (sc : UInt8)
  | mouse (data : UInt8)

/-- The keyboard and the looks at the controller to come; `fed` is what has been passed to
`mouse_feed_byte`. -/
structure Ps2 where
  kbd : Keyboard
  port : List (Option PortByte)
  fed : List UInt8

namespace Ps2

/-- `(char)-1`. -/
def noChar : UInt8 := 0xFF

/-- `keyboard_get_char_nb`. -/
def keyboardGetCharNb (s : Ps2) : UInt8 × Ps2 :=
  if s.kbd.ps2Head ≠ s.kbd.ps2Tail then
    let (sc, kbd) := s.kbd.dequeue
    match if sc &&& 0x80 = 0 then arrowCode sc else none with
    | some c => (c, { s with kbd })
    | none =>
      let (c, mods) := ps2ScancodeToAscii sc kbd.mods
      (if c ≠ 0 then c else noChar, { s with kbd := { kbd with mods } })
  else
    match s.port with
    | [] => (noChar, s)
    | none :: port => (noChar, { s with port })
    | some (.mouse data) :: port => (noChar, { s with port, fed := s.fed ++ [data] })
    | some (.key sc) :: port =>
      match if sc &&& 0x80 = 0 then arrowCode sc else none with
      | some c => (c, { s with port })
      | none =>
        let (c, mods) := ps2ScancodeToAscii sc s.kbd.mods
        (if c ≠ 0 then c else noChar, { s with port, kbd := { s.kbd with mods } })

/-- `while (!(inb(0x64) & 0x21))`: the looks that see nothing. -/
def waitForData (port : List (Option PortByte)) : List (Option PortByte) :=
  port.dropWhile Option.isNone

/-- `for (;;)`: everything there is, until a look sees nothing. -/
def drain (kbd : Keyboard) (fed : List UInt8) : List (Option PortByte) → Ps2
  | some (.mouse data) :: port => drain kbd (fed ++ [data]) port
  | some (.key sc) :: port => drain (kbd.enqueue sc) fed port
  | none :: port => ⟨kbd, port, fed⟩
  | [] => ⟨kbd, [], fed⟩

theorem length_waitForData (port : List (Option PortByte)) :
    (waitForData port).length ≤ port.length := (List.dropWhile_sublist _).length_le

theorem length_drain (kbd : Keyboard) (fed : List UInt8) (port : List (Option PortByte)) :
    (drain kbd fed port).port.length ≤ port.length - 1 := by
  induction port generalizing kbd fed with
  | nil => exact Nat.zero_le _
  | cons b port ih =>
    rcases b with _ | sc | data
    · exact Nat.le_refl _
    · exact (ih _ _).trans (Nat.sub_le _ _)
    · exact (ih _ _).trans (Nat.sub_le _ _)

theorem size_dequeue {k : Keyboard} (h : k.ps2Head ≠ k.ps2Tail) :
    (k.ps2Tail - (k.ps2Head + 1)).val + 1 = (k.ps2Tail - k.ps2Head).val := by
  have := k.ps2Head.isLt
  have := k.ps2Tail.isLt
  rw [Ne, Fin.ext_iff] at h
  simp only [Fin.sub_def, Fin.add_def, Fin.val_one]
  omega

/-- `keyboard_get_char`; `none` is a call that still waits. -/
def keyboardGetChar (s : Ps2) : Option UInt8 × Ps2 :=
  if s.kbd.ps2Head ≠ s.kbd.ps2Tail then
    let sc := s.kbd.dequeue.1
    let kbd := s.kbd.dequeue.2
    match if sc &&& 0x80 = 0 then arrowCode sc else none with
    | some c => (some c, { s with kbd })
    | none =>
      let (c, mods) := ps2ScancodeToAscii sc kbd.mods
      if c ≠ 0 then (some c, { s with kbd := { kbd with mods } })
      else keyboardGetChar { s with kbd := { kbd with mods } }
  else
    match _h : waitForData s.port with
    | [] => (none, { s with port := [] })
    | b :: port => keyboardGetChar (drain s.kbd s.fed (b :: port))
termination_by (s.port.length, (s.kbd.ps2Tail - s.kbd.ps2Head).val)
decreasing_by
  · rename_i h
    have := size_dequeue h
    exact .right _ (Nat.lt_of_succ_le (Nat.le_of_eq this))
  · have h1 := length_waitForData s.port
    have h2 := length_drain s.kbd s.fed (b :: port)
    rw [_h] at h1
    simp only [List.length_cons] at h1 h2
    exact .left _ _ (by omega)

/-- Calls of `keyboard_get_char`, `n` at most, up to one that still waits: the characters. -/
def getChars : Nat → Ps2 → List UInt8 × Ps2
  | 0, s => ([], s)
  | n + 1, s =>
    match s.keyboardGetChar with
    | (none, s) => ([], s)
    | (some c, s) =>
      let (cs, s) := getChars n s
      (c :: cs, s)

/-- `n` calls of `keyboard_get_char_nb`: what they return. -/
def getCharsNb : Nat → Ps2 → List UInt8 × Ps2
  | 0, s => ([], s)
  | n + 1, s =>
    let (c, s) := s.keyboardGetCharNb
    let (cs, s) := getCharsNb n s
    (c :: cs, s)

end Ps2

end HaoSys.Driver
