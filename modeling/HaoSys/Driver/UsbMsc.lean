import HaoSys.Driver.Uhci
import HaoSys.Lib.LittleEndian
import HaoSys.Lib.Store

/-!
# USB mass storage (`driver/usb_mass_storage.c`)

A command goes out in a CBW of 31 bytes, its data follow, and a CSW of 13 bytes
comes back. `usb_bulk_bot` returns when the CBW is through, so the driver then
looks at the CSW's buffer until the signature and the tag of this attempt stand
there. The buffer is a local variable: before that it shows some earlier CSW, or
what was on the stack.

`MscDevice` is the other side: it takes the bytes of a CBW apart and carries the
command out. A `Fate` is what happens around one attempt. Messages are not
modelled, and a `Bool` result is `true` for 0 and `false` for -1.
-/

namespace HaoSys.Driver

open HaoSys.Lib

/-! ## Wrappers -/

/-- `msc_cbw_t`. -/
structure Cbw where
  signature : UInt32
  tag : UInt32
  dataTransferLength : UInt32
  flags : UInt8
  lun : UInt8
  cbLength : UInt8
  cb : List UInt8
  deriving DecidableEq

/-- `msc_csw_t`. -/
structure Csw where
  signature : UInt32
  tag : UInt32
  dataResidue : UInt32
  status : UInt8

def cbwSignature : UInt32 := 0x43425355
def cswSignature : UInt32 := 0x53425355

def le32Bytes (v : UInt32) : List UInt8 :=
  [byte v.toNat 0, byte v.toNat 1, byte v.toNat 2, byte v.toNat 3]

/-- The packed structure in memory. -/
def Cbw.bytes (c : Cbw) : List UInt8 :=
  le32Bytes c.signature ++ (le32Bytes c.tag ++ (le32Bytes c.dataTransferLength ++
    (c.flags :: c.lun :: c.cbLength :: c.cb)))

/-! ## The device -/

/-- A CBW as the device reads it. -/
def Cbw.ofBytes : List UInt8 → Option Cbw
  | s0 :: s1 :: s2 :: s3 :: t0 :: t1 :: t2 :: t3 :: l0 :: l1 :: l2 :: l3 :: flags :: lun :: len :: cb =>
    if le32 s0 s1 s2 s3 = cbwSignature ∧ cb.length = 16 then
      some ⟨le32 s0 s1 s2 s3, le32 t0 t1 t2 t3, le32 l0 l1 l2 l3, flags, lun, len, cb⟩
    else none
  | _ => none

/-- The commands of the device. -/
inductive Scsi where
  | testUnitReady
  | inquiry (len : UInt8)
  | readCapacity
  | read (lba : UInt32) (blocks : Nat)
  | write (lba : UInt32) (blocks : Nat)
  deriving DecidableEq

/-- A command block: numbers are big-endian. -/
def Scsi.ofBlock : List UInt8 → Option Scsi
  | op :: _ :: b2 :: b3 :: b4 :: b5 :: _ :: b7 :: b8 :: _ =>
    if op = 0x00 then some .testUnitReady
    else if op = 0x12 then some (.inquiry b4)
    else if op = 0x25 then some .readCapacity
    else if op = 0x28 then some (.read (le32 b5 b4 b3 b2) (le16 b8 b7).toNat)
    else if op = 0x2A then some (.write (le32 b5 b4 b3 b2) (le16 b8 b7).toNat)
    else none
  | _ => none

def Scsi.toHost : Scsi → Bool
  | .write .. => false
  | _ => true

structure MscDevice where
  blockSize : UInt32
  lastLba : UInt32
  medium : UInt32 → List UInt8
  inquiry : List UInt8

/-- How the device ends a command: its status, the bytes it left out, and what a failed write leaves
in a block. -/
structure Ending where
  status : UInt8
  residue : UInt32
  torn : List UInt8

/-- `want` arrives over `old`, without its last `residue` bytes. -/
def arrives (want old : List UInt8) (residue : UInt32) : List UInt8 :=
  if residue = 0 then want
  else want.take (want.length - residue.toNat) ++ old.drop (want.length - residue.toNat)

namespace MscDevice

/-- The bytes a command asks for; `none`: the device has no such blocks. -/
def want (d : MscDevice) : Scsi → Option (List UInt8)
  | .testUnitReady => some []
  | .inquiry len => some (d.inquiry.take len.toNat)
  | .readCapacity => some ((le32Bytes d.lastLba).reverse ++ (le32Bytes d.blockSize).reverse)
  | .read lba n =>
    if lba.toNat + n ≤ d.lastLba.toNat + 1 then
      some ((List.range n).flatMap fun i => d.medium (lba + UInt32.ofNat i))
    else none
  | .write lba n => if lba.toNat + n ≤ d.lastLba.toNat + 1 then some [] else none

/-- The number of bytes that a command moves. -/
def moves (d : MscDevice) : Scsi → Nat
  | .testUnitReady => 0
  | .inquiry len => len.toNat
  | .readCapacity => 8
  | .read _ n => d.blockSize.toNat * n
  | .write _ n => d.blockSize.toNat * n

/-- The wrapper announces the length and the direction of its command. -/
def agrees (d : MscDevice) (c : Cbw) (cmd : Scsi) : Bool :=
  c.dataTransferLength.toNat = d.moves cmd ∧
    (d.moves cmd = 0 ∨ (c.flags == 0x80) = cmd.toHost)

/-- The blocks a write command is about hold what `f` gives for each. -/
def store (d : MscDevice) (lba : UInt32) (n : Nat) (f : Nat → List UInt8) : MscDevice :=
  { d with medium := fun l => if (l - lba).toNat < n then f (l - lba).toNat else d.medium l }

/-- A write command has ended. -/
def written (d : MscDevice) (ok : Bool) (e : Ending) (out : List UInt8) : Scsi → MscDevice
  | .write lba n => d.store lba n fun i =>
      if ok then
        arrives ((out.drop (i * d.blockSize.toNat)).take d.blockSize.toNat)
          (d.medium (lba + UInt32.ofNat i)) e.residue
      else e.torn
  | _ => d

/-- What the device sends back: a status and the data for the host, if there are any. -/
structure Answer where
  tag : UInt32
  status : UInt8
  data : Option (List UInt8)

/-- The device carries out the command in a CBW. A wrapper that it cannot read has no answer. -/
def exec (d : MscDevice) (e : Ending) (cbw out : List UInt8) : Option Answer × MscDevice :=
  match Cbw.ofBytes cbw with
  | none => (none, d)
  | some c =>
    match Scsi.ofBlock c.cb with
    | none => (some ⟨c.tag, 1, none⟩, d)
    | some cmd =>
      if !d.agrees c cmd then (some ⟨c.tag, 2, none⟩, d)
      else
        match d.want cmd with
        | none => (some ⟨c.tag, 1, none⟩, d)
        | some want =>
          if e.status = 0 then (some ⟨c.tag, 0, some want⟩, d.written true e out cmd)
          else (some ⟨c.tag, e.status, none⟩, d.written false e out cmd)

end MscDevice

open MscDevice (Answer)

/-! ## The driver -/

/-- What happens around one attempt: what the controller does during the transfer and the reset,
whether the CBW reaches the device, how the device ends the command, how many looks it takes until
its CSW is there, which earlier CSW the buffer shows until then, and what a failed read leaves in
the buffer. -/
structure Fate where
  hw : Hw
  resetHw : Nat → Hw
  delivered : Bool
  ending : Ending
  after : Option Nat
  seen : Nat → Nat
  scribble : List UInt8

/-- The driver's variables, the controller and the device. `sent` holds the CSWs of the device so
far, the last first, and then what was in the CSW's buffer at first. -/
structure Msc where
  present : Bool
  addr : UInt8
  epIn : UInt8
  epOut : UInt8
  sectorCount : UInt32
  sectorSize : UInt32
  cbwTag : UInt32
  cbwAddr : UInt32
  cswAddr : UInt32
  uhci : Uhci
  device : MscDevice
  sent : List Csw
  fates : Nat → Fate
  attempts : Nat

namespace Msc

/-- `msc_bot_reset`. -/
def botReset (f : Fate) (s : Msc) : Msc :=
  let (_, u) := s.uhci.controlTransfer s.addr 0x21 0xFF 0 0 0 0 (f.resetHw 0)
  let (_, u) := u.controlTransfer s.addr 0x02 0x01 0 s.epOut.toUInt16 0 0 (f.resetHw 1)
  let (_, u) := u.controlTransfer s.addr 0x82 0x01 0 s.epIn.toUInt16 0 0 (f.resetHw 2)
  { s with uhci := u }

/-- The looks at the CSW: 200 in the loop, and the one behind it. -/
def cswLooks : Nat := 201

/-- The CSW's buffer at look `i`, when the device's own CSW is `csw`. -/
def look (f : Fate) (csw : Option Csw) (sent : List Csw) (i : Nat) : Option Csw :=
  if f.after.any (· ≤ i) ∧ csw.isSome then csw else sent[f.seen i]?

/-- The CSW that the driver takes: the first with the signature and the tag. -/
def takeCsw (f : Fate) (tag : UInt32) (csw : Option Csw) (sent : List Csw) : Option Csw :=
  ((List.range cswLooks).filterMap (look f csw sent)).find? fun c =>
    c.signature == cswSignature && c.tag == tag

/-- The wrapper of an attempt. -/
def wrap (tag dataLen : UInt32) (dir : Bool) (cb : List UInt8) : Cbw :=
  ⟨cbwSignature, tag, dataLen, if dir then 0x80 else 0x00, 0, UInt8.ofNat cb.length,
    cb ++ List.replicate (16 - cb.length) 0⟩

/-- One turn of the loop of `msc_bot_command`: the status of the CSW, if one came, and the data
buffer. -/
def attempt (cb : List UInt8) (dir : Bool) (dataAddr dataLen : UInt32) (data : List UInt8)
    (s : Msc) : Option UInt8 × List UInt8 × Msc :=
  let f := s.fates s.attempts
  let (ret, uhci) := s.uhci.usbBulkBot s.addr s.epOut s.epIn s.cbwAddr 31 dataAddr dataLen dir
    s.cswAddr 13 f.hw
  let (answer, device) :=
    if f.delivered then s.device.exec f.ending (wrap s.cbwTag dataLen dir cb).bytes data
    else (none, s.device)
  let csw := answer.map fun a => ⟨cswSignature, a.tag, f.ending.residue, a.status⟩
  let data :=
    if dir then
      match answer.bind Answer.data with
      | some want => arrives want data f.ending.residue
      | none => f.scribble
    else data
  let taken := if ret then takeCsw f s.cbwTag csw s.sent else none
  (taken.map Csw.status, data, { s with
    cbwTag := s.cbwTag + 1, uhci, device, sent := csw.toList ++ s.sent
    attempts := s.attempts + 1 })

/-- The loop of `msc_bot_command`. -/
def tries (cb : List UInt8) (dir : Bool) (dataAddr dataLen : UInt32) :
    Nat → List UInt8 → Msc → Bool × List UInt8 × Msc
  | 0, data, s => (false, data, s)
  | n + 1, data, s =>
    match attempt cb dir dataAddr dataLen data s with
    | (some status, data, t) => (status = 0, data, t)
    | (none, data, t) => tries cb dir dataAddr dataLen n data (t.botReset (s.fates s.attempts))

/-- `msc_bot_command`: the result and the data buffer. -/
def botCommand (cb : List UInt8) (dir : Bool) (dataAddr dataLen : UInt32) (data : List UInt8)
    (s : Msc) : Bool × List UInt8 × Msc :=
  if !s.present then (false, data, s) else tries cb dir dataAddr dataLen 3 data s

/-- `msc_test_unit_ready`. -/
def testUnitReady (s : Msc) : Bool × Msc :=
  match botCommand [0x00, 0, 0, 0, 0, 0] false 0 0 [] s with
  | (ok, _, s) => (ok, s)

/-- `msc_inquiry`, with its answer. -/
def inquiry (dataAddr : UInt32) (s : Msc) : Bool × List UInt8 × Msc :=
  botCommand [0x12, 0, 0, 0, 36, 0] true dataAddr 36 (List.replicate 36 0) s

/-- `msc_read_capacity`. -/
def readCapacity (dataAddr : UInt32) (s : Msc) : Bool × Msc :=
  match botCommand [0x25, 0, 0, 0, 0, 0, 0, 0, 0, 0] true dataAddr 8 (List.replicate 8 0) s with
  | (true, data, s) =>
    (true, { s with
      sectorCount := le32 (data.getD 3 0) (data.getD 2 0) (data.getD 1 0) (data.getD 0 0) + 1
      sectorSize := le32 (data.getD 7 0) (data.getD 6 0) (data.getD 5 0) (data.getD 4 0) })
  | (false, _, s) => (false, s)

/-- The command block of READ10 and WRITE10 for one sector. -/
def block10 (op : UInt8) (lba : UInt32) : List UInt8 :=
  [op, 0, (lba >>> 24).toUInt8, (lba >>> 16).toUInt8, (lba >>> 8).toUInt8, lba.toUInt8, 0, 0, 1, 0]

/-- `usb_msc_read_sector`: the result and the bytes at `buf`. -/
def usbMscReadSector (lba buf : UInt32) (data : List UInt8) (s : Msc) : Bool × List UInt8 × Msc :=
  if !s.present then (false, data, s)
  else botCommand (block10 0x28 lba) true buf s.sectorSize data s

/-- `usb_msc_write_sector`. -/
def usbMscWriteSector (lba buf : UInt32) (data : List UInt8) (s : Msc) : Bool × Msc :=
  if !s.present then (false, s)
  else
    match botCommand (block10 0x2A lba) false buf s.sectorSize data s with
    | (ok, _, s) => (ok, s)

end Msc

end HaoSys.Driver
