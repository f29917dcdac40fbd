import HaoSys.Driver.Mouse

/-!
# The UHCI controller (`driver/usb_controller.c`)

Transfer descriptors (TDs) come from a pool of 64 that is used as a stack. The
schedule's queue head points to a chain of TDs: `elLink` is what the driver last
wrote there. The hardware writes the status words of the TDs and the buffers,
at any time and anything: an `Hw` is what it does during one call.

Pointers to TDs are their indices in the pool. A printed diagnosis leaves no
trace. A `Bool` result is `true` for 0 and `false` for -1.
-/

namespace HaoSys.Driver

def maxTds : Nat := 64

def tdCtrlActive : UInt32 := (1 : UInt32) <<< 23
def tdCtrlStall : UInt32 := (1 : UInt32) <<< 22
def tdCtrlDbuf : UInt32 := (1 : UInt32) <<< 21
def tdCtrlBabble : UInt32 := (1 : UInt32) <<< 20
def tdCtrlNak : UInt32 := (1 : UInt32) <<< 19
def tdCtrlCrctimeo : UInt32 := (1 : UInt32) <<< 18
def tdCtrlBitstuff : UInt32 := (1 : UInt32) <<< 17
def tdCtrlLenerr : UInt32 := (1 : UInt32) <<< 16
def tdCtrlIoc : UInt32 := (1 : UInt32) <<< 7

def tdTokenPidSetup : UInt32 := 0x2D
def tdTokenPidOut : UInt32 := 0xE1
def tdTokenPidIn : UInt32 := 0x69

/-- A link pointer: 0, the terminator `0x01`, or a TD. -/
inductive Link where
  | zero
  | terminate
  | td (i : Nat)
  deriving DecidableEq, Inhabited

/-- A buffer: an address, or a packet that lies on the driver's stack. -/
inductive Buffer where
  | addr (a : UInt32)
  | packet (bytes : List UInt8)
  deriving DecidableEq, Inhabited

/-- `uhci_td_t`. -/
structure Td where
  link : Link
  ctrlStatus : UInt32
  token : UInt32
  buffer : Buffer
  deriving Inhabited

inductive UrbType where
  | control
  | interrupt
  | bulk
  | iso
  deriving DecidableEq, Inhabited

/-- The completion callbacks of the kernel. -/
inductive Callback where
  | keyboard
  | mouse
  deriving DecidableEq

/-- `usb_urb_t`. -/
structure Urb where
  type : UrbType
  devAddr : UInt8
  endpoint : UInt8
  direction : UInt8
  length : UInt16
  buffer : UInt32
  callback : Option Callback
  reqType : UInt8
  request : UInt8
  value : UInt16
  index : UInt16
  deriving Inhabited

/-- `uhci_int_urb_t`. `hc` says whether the pointer names a controller. -/
structure IntUrb where
  urb : Urb
  td : Nat
  active : Bool
  dt : Bool
  hc : Bool
  deriving Inhabited

/-- `uhci_priv`, the queue head's `el_link` and the interrupt transfers. -/
structure Uhci where
  tdPool : Nat → Td
  tdUsed : Nat
  elLink : Link
  intUrbs : Nat → IntUrb
  intUrbCount : Nat

/-- What happens around the driver during a call: the status words it sees while it waits for a
TD, the status words of all TDs afterwards, and whether `pmm_alloc_page` has a page. -/
structure Hw where
  seen : Nat → UInt32
  status : Nat → UInt32
  page : Bool

namespace Uhci

/-- What `uhci_init` leaves: no TD in use, nothing scheduled. -/
def boot (tdPool : Nat → Td) (intUrbs : Nat → IntUrb) : Uhci := ⟨tdPool, 0, .terminate, intUrbs, 0⟩

/-- The hardware writes the status words. -/
def complete (status : Nat → UInt32) (s : Uhci) : Uhci :=
  { s with tdPool := fun i => { s.tdPool i with ctrlStatus := status i } }

/-! ## Transfer descriptors -/

def allocTd (s : Uhci) : Option Nat × Uhci :=
  if s.tdUsed ≥ maxTds then (none, s) else (some s.tdUsed, { s with tdUsed := s.tdUsed + 1 })

/-- The last TD goes back, whichever is given. -/
def freeTd (td : Nat) (s : Uhci) : Uhci :=
  if td < s.tdUsed then { s with tdUsed := s.tdUsed - 1 } else s

def setupTd (td : Nat) (link : Link) (ctrlStatus token : UInt32) (buffer : Buffer) (s : Uhci) :
    Uhci :=
  { s with tdPool := Function.update s.tdPool td ⟨link, ctrlStatus ||| tdCtrlActive, token, buffer⟩ }

def setLink (td : Nat) (link : Link) (s : Uhci) : Uhci :=
  { s with tdPool := Function.update s.tdPool td { s.tdPool td with link } }

/-- A token: the length field is the length less one. -/
def token (devAddr endpoint : UInt8) (toggle field pid : UInt32) : UInt32 :=
  (devAddr.toUInt32 <<< 8) ||| (endpoint.toUInt32 <<< 15) ||| (toggle <<< 19) |||
    (field <<< 21) ||| pid

/-- `uhci_wait_td`: 110 looks at the status word. -/
def waitTd (seen : Nat → UInt32) : Bool :=
  let rec poll : Nat → Nat → Bool
    | 0, _ => false
    | n + 1, i =>
      if seen i &&& tdCtrlActive = 0 then
        seen i &&& (tdCtrlStall ||| tdCtrlDbuf ||| tdCtrlBabble ||| tdCtrlNak |||
          tdCtrlCrctimeo ||| tdCtrlBitstuff ||| tdCtrlLenerr) = 0
      else poll n (i + 1)
  poll 110 0

/-! ## Bulk and control transfers -/

/-- The end of both: the chain is hung from the queue head, and what was saved is put back. -/
def runChain (td savedTdUsed : Nat) (savedEl : Link) (hw : Hw) (s : Uhci) : Bool × Uhci :=
  let s := { s with elLink := .td td }
  let ok := waitTd hw.seen
  (ok, { s.complete hw.status with elLink := savedEl, tdUsed := savedTdUsed })

/-- `usb_bulk_bot`. -/
def usbBulkBot (devAddr epOut epIn : UInt8) (cbw : UInt32) (cbwLen : UInt16) (data dataLen : UInt32)
    (dir : Bool) (csw : UInt32) (cswLen : UInt16) (hw : Hw) (s : Uhci) : Bool × Uhci :=
  let savedTdUsed := s.tdUsed
  let savedEl := s.elLink
  let (tdCbw, s) := s.allocTd
  let (tdCsw, s) := s.allocTd
  match tdCbw, tdCsw with
  | some tdCbw, some tdCsw =>
    let s := s.setupTd tdCbw .zero 0
      (token devAddr epOut 0 (cbwLen.toUInt32 - 1) tdTokenPidOut) (.addr cbw)
    let setupCsw (s : Uhci) : Uhci :=
      s.setupTd tdCsw .terminate tdCtrlIoc
        (token devAddr epIn 1 (cswLen.toUInt32 - 1) tdTokenPidIn) (.addr csw)
    if dataLen > 0 then
      match s.allocTd with
      | (some tdData, s) =>
        let s := s.setupTd tdData .zero 0
          (token devAddr (if dir then epIn else epOut) 1 (dataLen - 1)
            (if dir then tdTokenPidIn else tdTokenPidOut)) (.addr data)
        runChain tdCbw savedTdUsed savedEl hw
          (((setupCsw s).setLink tdCbw (.td tdData)).setLink tdData (.td tdCsw))
      | (none, s) => (false, { s with tdUsed := savedTdUsed })
    else runChain tdCbw savedTdUsed savedEl hw ((setupCsw s).setLink tdCbw (.td tdCsw))
  | _, _ => (false, { s with tdUsed := savedTdUsed })

/-- The request of a control transfer. -/
def setupPacket (reqType request : UInt8) (value index length : UInt16) : List UInt8 :=
  [reqType, request, (value &&& 0xFF).toUInt8, (value >>> 8).toUInt8, (index &&& 0xFF).toUInt8,
    (index >>> 8).toUInt8, (length &&& 0xFF).toUInt8, (length >>> 8).toUInt8]

/-- `uhci_control_transfer`. Two of its exits keep the TDs taken so far. -/
def controlTransfer (devAddr reqType request : UInt8) (value index : UInt16) (data : UInt32)
    (length : UInt16) (hw : Hw) (s : Uhci) : Bool × Uhci :=
  let savedTdUsed := s.tdUsed
  let savedEl := s.elLink
  let (tdSetup, s) := s.allocTd
  let (tdStatus, s) := s.allocTd
  match tdSetup, tdStatus with
  | some tdSetup, some tdStatus =>
    let s := s.setupTd tdSetup .zero 0 (token devAddr 0 0 7 tdTokenPidSetup)
      (.packet (setupPacket reqType request value index length))
    let toHost : Bool := reqType &&& 0x80 ≠ 0
    let setupStatus (s : Uhci) : Uhci :=
      s.setupTd tdStatus .terminate tdCtrlIoc
        (token devAddr 0 1 0x7FF (if toHost then tdTokenPidOut else tdTokenPidIn)) (.addr 0)
    if length > 0 then
      match s.allocTd with
      | (some tdData, s) =>
        let s := s.setupTd tdData .zero 0
          (token devAddr 0 1 (length.toUInt32 - 1) (if toHost then tdTokenPidIn else tdTokenPidOut))
          (.addr data)
        runChain tdSetup savedTdUsed savedEl hw
          (setupStatus ((s.setLink tdSetup (.td tdData)).setLink tdData (.td tdStatus)))
      | (none, s) => (false, s)
    else runChain tdSetup savedTdUsed savedEl hw (setupStatus (s.setLink tdSetup (.td tdStatus)))
  | _, _ => (false, s)

/-! ## Interrupt transfers -/

/-- The first entry of the endpoint that is not active. -/
def reusable (s : Uhci) (devAddr ep : UInt8) : Option Nat :=
  (List.range s.intUrbCount).find? fun i =>
    !(s.intUrbs i).active && (s.intUrbs i).urb.devAddr == devAddr &&
      (s.intUrbs i).urb.endpoint == ep

/-- `uhci_interrupt_transfer`. -/
def interruptTransfer (hc : Bool) (devAddr ep : UInt8) (buffer : UInt32) (len : UInt16)
    (callback : Option Callback) (page : Bool) (s : Uhci) : Bool × Uhci :=
  let field := len.toUInt32 - 1
  match s.reusable devAddr ep with
  | some i =>
    let iu := s.intUrbs i
    let dt := !iu.dt
    let s := s.setupTd iu.td .terminate tdCtrlIoc
      (token devAddr ep (if dt then 1 else 0) field tdTokenPidIn) (.addr buffer)
    let s := { s with elLink := .td iu.td }
    let iu := { iu with
      dt, active := true, urb := { iu.urb with buffer, length := len, callback } }
    (true, { s with intUrbs := Function.update s.intUrbs i iu })
  | none =>
    if s.intUrbCount ≥ 4 then (false, s)
    else
      match s.allocTd with
      | (none, s) => (false, s)
      | (some td, s) =>
        let s := s.setupTd td .terminate tdCtrlIoc (token devAddr ep 0 field tdTokenPidIn)
          (.addr buffer)
        let s := { s with elLink := .td td }
        if !page then (false, s.freeTd td)
        else
          -- the rest of the page is what it was; a control request never reads it
          let urb := ⟨.interrupt, devAddr, ep, 1, len, buffer, callback, 0, 0, 0, 0⟩
          let iu := ⟨urb, td, true, false, hc⟩
          (true, { s with
            intUrbs := Function.update s.intUrbs s.intUrbCount iu
            intUrbCount := s.intUrbCount + 1 })

/-- `usb_submit_urb`, which calls `uhci_submit_urb`. -/
def submitUrb (hc : Bool) (urb : Urb) (hw : Hw) (s : Uhci) : Bool × Uhci :=
  if !hc then (false, s)
  else
    match urb.type with
    | .control =>
      controlTransfer urb.devAddr urb.reqType urb.request urb.value urb.index urb.buffer urb.length
        hw s
    | .interrupt =>
      interruptTransfer hc urb.devAddr urb.endpoint urb.buffer urb.length urb.callback hw.page s
    | _ => (false, s)

end Uhci

end HaoSys.Driver
