import HaoSys.Driver.UhciPool

/-!
# Interrupt transfers of keyboard and mouse

`usb_poll` (`driver/usb_controller.c`) looks for finished interrupt transfers and
calls the callback of each: `usb_kb_callback` (`driver/usb_hid.c`) or
`usb_mouse_urb_callback` (`driver/mouse.c`), which take the report and submit the
transfer again. A transfer that failed is submitted again by `usb_poll` itself.

`UsbWorld` is the controller with the two drivers. The bytes of a buffer are what
the devices last wrote there. A printed diagnosis leaves no trace on the console.
-/

namespace HaoSys.Driver

/-! ## The drivers -/

/-- The variables of `usb_hid.c`. -/
structure UsbKeyboard where
  present : Bool
  hc : Bool
  addr : UInt8
  ep : UInt8
  report : UInt32
  prev : List UInt8
  firstReport : Bool
  buf : Fin 32 → UInt8
  head : Fin 32
  tail : Fin 32

inductive Backend where
  | none
  | ps2
  | usb
  deriving DecidableEq

/-- The variables of `mouse.c` for USB: `dev` is the address of `usb_dev`, `epIn` the address byte
and the packet size of `usb_ep_in`, as they were when it was set: the source keeps a pointer into the
buffer of `usb_mouse_probe`. -/
structure UsbMouse where
  present : Bool
  dev : Option UInt8
  epIn : Option (UInt8 × UInt16)
  hc : Bool
  reportBuf : UInt32
  backend : Backend
  ps2Initialized : Bool
  available : Bool

structure UsbWorld where
  uhci : Uhci
  mem : UInt32 → UInt8
  kb : UsbKeyboard
  mouse : UsbMouse
  console : Console

/-- The variables at boot, after `uhci_init`. The two buffers lie where the linker put them. -/
def UsbWorld.boot (tdPool : Nat → Td) (intUrbs : Nat → IntUrb) (mem : UInt32 → UInt8)
    (kbReport reportBuf : UInt32) (console : Console) : UsbWorld where
  uhci := Uhci.boot tdPool intUrbs
  mem := mem
  kb := ⟨false, false, 0, 0, kbReport, List.replicate 8 0, true, fun _ => 0, 0, 0⟩
  mouse := ⟨false, none, none, false, reportBuf, .none, false, false⟩
  console := console

/-- Some bytes from address `a` on. -/
def UsbWorld.bytes (w : UsbWorld) (a : UInt32) (n : Nat) : List UInt8 :=
  (List.range n).map fun k => w.mem (a + UInt32.ofNat k)

/-! ## The keyboard -/

namespace UsbKeyboard

def push (c : UInt8) (kb : UsbKeyboard) : UsbKeyboard :=
  let next := kb.tail + 1
  if next ≠ kb.head then { kb with buf := Function.update kb.buf kb.tail c, tail := next } else kb

/-- `usb_kb_map`: 0 for a key without a character. -/
def map (usage : UInt8) (shift : Bool) : UInt8 :=
  if usage ≥ 0x04 ∧ usage ≤ 0x1D then (if shift then 0x41 else 0x61) + (usage - 0x04)
  else if usage ≥ 0x1E ∧ usage ≤ 0x27 then
    let row : List UInt8 :=
      if shift then [0x21, 0x40, 0x23, 0x24, 0x25, 0x5E, 0x26, 0x2A, 0x28, 0x29]
      else [0x31, 0x32, 0x33, 0x34, 0x35, 0x36, 0x37, 0x38, 0x39, 0x30]
    row.getD (usage - 0x1E).toNat 0
  else
    match usage with
    | 0x28 => 0x0A
    | 0x29 => 0x1B
    | 0x2A => 0x08
    | 0x2B => 0x09
    | 0x2C => 0x20
    | 0x2D => if shift then 0x5F else 0x2D
    | 0x2E => if shift then 0x2B else 0x3D
    | 0x2F => if shift then 0x7B else 0x5B
    | 0x30 => if shift then 0x7D else 0x5D
    | 0x31 => if shift then 0x7C else 0x5C
    | 0x33 => if shift then 0x3A else 0x3B
    | 0x34 => if shift then 0x22 else 0x27
    | 0x35 => if shift then 0x7E else 0x60
    | 0x36 => if shift then 0x3C else 0x2C
    | 0x37 => if shift then 0x3E else 0x2E
    | 0x38 => if shift then 0x3F else 0x2F
    | 0x52 => 0x01
    | 0x51 => 0x02
    | _ => 0

def hasKey (r : List UInt8) (usage : UInt8) : Bool := (r.drop 2).contains usage

/-- The report half of `usb_kb_callback`: keys that the last report did not have are pressed. -/
def takeReport (r : List UInt8) (kb : UsbKeyboard) : UsbKeyboard :=
  let mods := r.getD 0 0
  let shift : Bool := mods &&& 0x02 ≠ 0 ∨ mods &&& 0x20 ≠ 0
  let kb :=
    if !kb.firstReport then
      (r.drop 2).foldl (fun kb k =>
        if k ≠ 0 ∧ !hasKey kb.prev k then
          let c := map k shift
          if c ≠ 0 then kb.push c else kb
        else kb) kb
    else { kb with firstReport := false }
  { kb with prev := r }

/-- The transfer that it submits again. -/
def urb (kb : UsbKeyboard) : Urb :=
  ⟨.interrupt, kb.addr, kb.ep, 1, 8, kb.report, some .keyboard, 0, 0, 0, 0⟩

end UsbKeyboard

namespace UsbWorld

def usbKbCallback (urb : Urb) (hw : Hw) (w : UsbWorld) : UsbWorld :=
  let w := { w with kb := w.kb.takeReport (w.bytes urb.buffer 8) }
  if w.kb.present ∧ w.kb.hc then { w with uhci := (w.uhci.submitUrb w.kb.hc w.kb.urb hw).2 } else w

end UsbWorld

/-! ## The mouse -/

namespace UsbMouse

/-- The mouse is gone: the PS/2 mouse takes over if there is one. -/
def disconnect (m : UsbMouse) : UsbMouse :=
  let m := { m with present := false }
  if m.backend = .usb then
    if m.ps2Initialized then { m with backend := .ps2, available := true }
    else { m with backend := .none, available := false }
  else m

/-- The transfer that it submits again. -/
def urb (reportBuf : UInt32) (dev : UInt8) (epIn : UInt8 × UInt16) : Urb :=
  ⟨.interrupt, dev, epIn.1 &&& 0x0F, 1, epIn.2, reportBuf, some .mouse, 0, 0, 0, 0⟩

end UsbMouse

namespace UsbWorld

def usbMouseUrbCallback (urb : Urb) (hw : Hw) (w : UsbWorld) : UsbWorld :=
  if urb.length < 3 then { w with mouse := w.mouse.disconnect }
  else
    let w := { w with
      console := w.console.usbProcessReport (w.bytes urb.buffer urb.length.toNat) }
    match w.mouse.present, w.mouse.dev, w.mouse.epIn with
    | true, some dev, some epIn =>
      let (ok, uhci) := w.uhci.submitUrb w.mouse.hc (UsbMouse.urb w.mouse.reportBuf dev epIn) hw
      let w := { w with uhci }
      if ok then w else { w with mouse := w.mouse.disconnect }
    | _, _, _ => w

/-! ## `usb_poll` -/

def runCallback (callback : Callback) (urb : Urb) (hw : Hw) (w : UsbWorld) : UsbWorld :=
  match callback with
  | .keyboard => w.usbKbCallback urb hw
  | .mouse => w.usbMouseUrbCallback urb hw

def setIntUrb (i : Nat) (iu : IntUrb) (w : UsbWorld) : UsbWorld :=
  { w with uhci := { w.uhci with intUrbs := Function.update w.uhci.intUrbs i iu } }

/-- The error bits that `usb_poll` looks at: all but `NAK`. -/
def pollErrors : UInt32 :=
  tdCtrlStall ||| tdCtrlDbuf ||| tdCtrlBabble ||| tdCtrlCrctimeo ||| tdCtrlBitstuff ||| tdCtrlLenerr

/-- The length that `usb_poll` takes from a status word. -/
def pollLength (status : UInt32) : UInt16 := ((status >>> 16) &&& 0x7FF : UInt32).toUInt16

/-- A transfer that failed, again. -/
def resubmitted (urb : Urb) : Urb :=
  ⟨.interrupt, urb.devAddr, urb.endpoint, urb.direction, urb.length, urb.buffer, urb.callback,
    0, 0, 0, 0⟩

/-- The status word of the transfer of entry `i`. -/
def status (w : UsbWorld) (i : Nat) : UInt32 := (w.uhci.tdPool (w.uhci.intUrbs i).td).ctrlStatus

/-- One turn of the loop. -/
def pollEntry (hw : Hw) (i : Nat) (w : UsbWorld) : UsbWorld :=
  let iu := w.uhci.intUrbs i
  if !iu.active then w
  else
    let status := w.status i
    if status &&& tdCtrlActive ≠ 0 then w
    else
      let w := w.setIntUrb i { iu with active := false }
      if status &&& pollErrors = 0 then
        match iu.urb.callback with
        | none => w
        | some callback =>
          let urb := { iu.urb with length := pollLength status }
          runCallback callback urb hw (w.setIntUrb i { iu with active := false, urb })
      else { w with uhci := (w.uhci.submitUrb iu.hc (resubmitted iu.urb) hw).2 }

/-- The loop: the number of entries is read again in each turn. -/
def pollFrom (hw : Nat → Hw) : Nat → Nat → UsbWorld → UsbWorld
  | 0, _, w => w
  | fuel + 1, i, w =>
    if i < w.uhci.intUrbCount then pollFrom hw fuel (i + 1) (w.pollEntry (hw i) i) else w

/-- `usb_poll`. There are four entries at most. -/
def usbPoll (hw : Nat → Hw) (w : UsbWorld) : UsbWorld := pollFrom hw 4 0 w

end UsbWorld

/-! ## Runs -/

/-- What happens to the world. -/
inductive UsbEvent where
  /-- The devices write status words and buffers. -/
  | hardware (status : Nat → UInt32) (mem : UInt32 → UInt8)
  /-- A driver submits a transfer. -/
  | submit (hc : Bool) (urb : Urb) (hw : Hw)
  | transfer (t : Transfer) (hw : Hw)
  | poll (hw : Nat → Hw)
  /-- Initialization code sets the drivers' variables. -/
  | setup (kb : UsbKeyboard) (mouse : UsbMouse)

namespace UsbWorld

def step (w : UsbWorld) : UsbEvent → UsbWorld
  | .hardware status mem => { w with uhci := w.uhci.complete status, mem }
  | .submit hc urb hw => { w with uhci := (w.uhci.submitUrb hc urb hw).2 }
  | .transfer t hw => { w with uhci := (t.run hw w.uhci).2 }
  | .poll hw => w.usbPoll hw
  | .setup kb mouse => { w with kb, mouse }

def run (w : UsbWorld) (es : List UsbEvent) : UsbWorld := es.foldl step w

end UsbWorld

end HaoSys.Driver
