import HaoSys.Fs.Disk
import HaoSys.Lib.Store

/-!
# The ATA driver (`driver/ata.c`)

Programmed input and output on the primary channel with 28-bit sector numbers.
`Channel` is the other side of the ports: the registers the driver writes and
the two drives that share them. A drive is busy for some looks at its status
after a command and after the last word of its data, and a command may be
rejected: a `Response` says so for each command, and the responses to come are
part of the channel. A drive that rejected its last command shows ERR until the
next one.

The driver's wait loops look at most 100000 times. The messages of `ata_init`
are not modelled.
-/

namespace HaoSys.Driver

open HaoSys.Lib HaoSys.Fs

/-! ## Sectors as words -/

/-- The 256 words that cross the data port. -/
def sectorWords (s : Sector) : List UInt16 := (List.range 256).map fun i => s.get16 (2 * i)

/-- `((uint16_t*)buffer)[i] = words[i]` for all `i`. -/
def ofWords (words : List UInt16) : Sector := fun k =>
  byte (words.getD (k.val / 2) 0).toNat (k.val % 2)

/-! ## The channel -/

inductive Drive where
  | master
  | slave
  deriving DecidableEq

/-- How a drive carries out one command: the looks at its status until it is ready and until it
has finished, whether it accepts the command, whether a write reaches the medium, and what the
sector holds if it does not. -/
structure Response where
  delay : Nat
  finish : Nat
  accepts : Bool
  stores : Bool
  torn : Sector

/-- What a drive is doing. -/
inductive Phase where
  | idle (err : Bool)
  /-- the host has still to read these words -/
  | dataIn (words : List UInt16) (finish : Nat)
  /-- the host has written `words` of sector `lba`, and `left` sectors are to come -/
  | dataOut (lba left : Nat) (words : List UInt16) (r : Response)

structure Channel where
  sectorCount : UInt8
  lbaLow : UInt8
  lbaMid : UInt8
  lbaHigh : UInt8
  device : UInt8
  connected : Drive → Bool
  capacity : Drive → Nat
  identify : Drive → List UInt16
  medium : Drive → Nat → Sector
  phase : Drive → Phase
  busy : Drive → Nat
  responses : Nat → Response
  accepted : Nat

namespace Channel

/-- Bit 4 of the device register. -/
def selected (c : Channel) : Drive := if c.device &&& 0x10 = 0 then .master else .slave

/-- The sector number in the registers. -/
def lba (c : Channel) : Nat :=
  c.lbaLow.toNat + 256 * c.lbaMid.toNat + 65536 * c.lbaHigh.toNat +
    16777216 * (c.device &&& 0x0F).toNat

/-- The number of sectors; 0 stands for 256. -/
def count (c : Channel) : Nat := if c.sectorCount = 0 then 256 else c.sectorCount.toNat

def setPhase (d : Drive) (p : Phase) (c : Channel) : Channel :=
  { c with phase := Function.update c.phase d p }

def setBusy (d : Drive) (n : Nat) (c : Channel) : Channel :=
  { c with busy := Function.update c.busy d n }

def setSector (d : Drive) (lba : Nat) (sector : Sector) (c : Channel) : Channel :=
  { c with medium := Function.update c.medium d (Function.update (c.medium d) lba sector) }

/-- `inb(ATA_STATUS)`: the status of the selected drive. -/
def status (c : Channel) : UInt8 × Channel :=
  if !c.connected c.selected then (0, c)
  else if 0 < c.busy c.selected then (0x80, c.setBusy c.selected (c.busy c.selected - 1))
  else
    match c.phase c.selected with
    | .idle err => (if err then 0x51 else 0x50, c)
    | _ => (0x58, c)

/-- What a drive does on an accepted command. -/
def start (cmd : UInt8) (r : Response) (c : Channel) : Phase :=
  if cmd = 0xEC then .dataIn (c.identify c.selected) r.finish
  else if c.lba + c.count ≤ c.capacity c.selected then
    if cmd = 0x20 then
      .dataIn ((List.range c.count).flatMap fun i => sectorWords (c.medium c.selected (c.lba + i)))
        r.finish
    else if cmd = 0x30 then .dataOut c.lba c.count [] r
    else .idle true
  else .idle true

/-- `outb(ATA_CMD, cmd)`. A drive that is busy or in a transfer does not take it. -/
def command (cmd : UInt8) (c : Channel) : Channel :=
  if c.connected c.selected ∧ c.busy c.selected = 0 then
    match c.phase c.selected with
    | .idle _ =>
      let r := c.responses c.accepted
      let p := if r.accepts then c.start cmd r else .idle true
      { (c.setPhase c.selected p).setBusy c.selected r.delay with accepted := c.accepted + 1 }
    | _ => c
  else c

/-- `inw(ATA_DATA)`. -/
def readData (c : Channel) : UInt16 × Channel :=
  match c.phase c.selected with
  | .dataIn (w :: words) finish =>
    if words = [] then (w, (c.setPhase c.selected (.idle false)).setBusy c.selected finish)
    else (w, c.setPhase c.selected (.dataIn words finish))
  | _ => (0xFFFF, c)

/-- `outw(ATA_DATA, w)`. The 256th word completes a sector. -/
def writeData (c : Channel) (w : UInt16) : Channel :=
  match c.phase c.selected with
  | .dataOut lba left words r =>
    if words.length + 1 < 256 then c.setPhase c.selected (.dataOut lba left (words ++ [w]) r)
    else
      let sector := if r.stores then ofWords (words ++ [w]) else r.torn
      let c := c.setSector c.selected lba sector
      if r.stores ∧ 1 < left then c.setPhase c.selected (.dataOut (lba + 1) (left - 1) [] r)
      else (c.setPhase c.selected (.idle !r.stores)).setBusy c.selected r.finish
  | _ => c

end Channel

/-! ## The driver -/

def driveMaster : UInt8 := 0xE0
def driveSlave : UInt8 := 0xF0

/-- The looks of one wait loop. -/
def ataPolls : Nat := 100000

/-- The loop of `wait_bsy` and of `wait_complete`. -/
def pollReady : Nat → Channel → Bool × Channel
  | 0, c => (false, c)
  | n + 1, c =>
    let (st, c) := c.status
    if st &&& 0x80 = 0 then (st &&& 0x01 = 0, c) else pollReady n c

def waitBsy (c : Channel) : Bool × Channel := pollReady ataPolls c

def waitComplete (c : Channel) : Bool × Channel := pollReady ataPolls c

/-- The loop of `wait_drq`. -/
def pollDrq : Nat → Channel → Bool × Channel
  | 0, c => (false, c)
  | n + 1, c =>
    let (st, c) := c.status
    if st &&& 0x80 ≠ 0 then pollDrq n c
    else if st &&& 0x08 ≠ 0 then (true, c)
    else if st &&& 0x01 ≠ 0 then (false, c)
    else pollDrq n c

def waitDrq (c : Channel) : Bool × Channel := pollDrq ataPolls c

/-- `for (i = 0; i < n; i++) inw(ATA_DATA)`. -/
def inWords : Nat → Channel → List UInt16 × Channel
  | 0, c => ([], c)
  | n + 1, c =>
    let (w, c) := c.readData
    let (words, c) := inWords n c
    (w :: words, c)

/-- The five register writes before a command. -/
def setTask (count low mid high device : UInt8) (c : Channel) : Channel :=
  { c with sectorCount := count, lbaLow := low, lbaMid := mid, lbaHigh := high, device := device }

/-- The registers for sector `lba`. -/
def setLba (select : UInt8) (lba : UInt32) (c : Channel) : Channel :=
  setTask 1 (lba &&& 0xFF).toUInt8 ((lba >>> 8) &&& 0xFF).toUInt8 ((lba >>> 16) &&& 0xFF).toUInt8
    (select ||| ((lba >>> 24) &&& 0x0F).toUInt8) c

/-- Words 60 and 61 of the IDENTIFY data; 0 stands for the largest number of 28 bits. -/
def identifySectors (id : List UInt16) : UInt32 :=
  let sectors := (id.getD 60 0).toUInt32 ||| (id.getD 61 0).toUInt32 <<< 16
  if sectors = 0 then 0x0FFFFFFF else sectors

/-- `ata_identify`: the result and `*out_sectors`, if it is written. -/
def ataIdentify (select : UInt8) (c : Channel) : Bool × Option UInt32 × Channel :=
  match waitBsy c with
  | (false, c) => (false, none, c)
  | (true, c) =>
    match waitDrq ((setTask 0 0 0 0 select c).command 0xEC) with
    | (false, c) => (false, none, c)
    | (true, c) =>
      let (id, c) := inWords 256 c
      let (ok, c) := waitComplete c
      (ok, some (identifySectors id), c)

/-- `ata_read_sector_dev`: the result and the buffer. -/
def ataReadSectorDev (select : UInt8) (lba : UInt32) (buffer : Sector) (c : Channel) :
    Bool × Sector × Channel :=
  match waitBsy c with
  | (false, c) => (false, buffer, c)
  | (true, c) =>
    match waitDrq ((setLba select lba c).command 0x20) with
    | (false, c) => (false, buffer, c)
    | (true, c) =>
      let (words, c) := inWords 256 c
      let (ok, c) := waitComplete c
      (ok, ofWords words, c)

/-- `ata_write_sector_dev`. -/
def ataWriteSectorDev (select : UInt8) (lba : UInt32) (buffer : Sector) (c : Channel) :
    Bool × Channel :=
  match waitBsy c with
  | (false, c) => (false, c)
  | (true, c) =>
    match waitDrq ((setLba select lba c).command 0x30) with
    | (false, c) => (false, c)
    | (true, c) => waitComplete ((sectorWords buffer).foldl Channel.writeData c)

/-- The driver's variables and the channel. -/
structure Ata where
  present : Bool
  sectorCount : UInt32
  slavePresent : Bool
  slaveSectorCount : UInt32
  chan : Channel

/-- `ata_init`, on the variables as they are at boot. -/
def ataInit (c : Channel) : Bool × Ata :=
  let (present, sectors, c) := ataIdentify driveMaster c
  let (slavePresent, slaveSectors, c) := ataIdentify driveSlave c
  (present, ⟨present, sectors.getD 0, slavePresent, slaveSectors.getD 0, c⟩)

namespace Ata

def detected (s : Ata) : Drive → Bool
  | .master => s.present
  | .slave => s.slavePresent

/-- The code that selects a drive. -/
def selector : Drive → UInt8
  | .master => driveMaster
  | .slave => driveSlave

/-- `ata_read_sector` and `ata_read_sector_slave`. -/
def readSector (d : Drive) (lba : UInt32) (buffer : Sector) (s : Ata) : Bool × Sector × Ata :=
  if !s.detected d then (false, buffer, s)
  else
    let (ok, buffer, c) := ataReadSectorDev (selector d) lba buffer s.chan
    (ok, buffer, { s with chan := c })

/-- `ata_write_sector` and `ata_write_sector_slave`. -/
def writeSector (d : Drive) (lba : UInt32) (buffer : Sector) (s : Ata) : Bool × Ata :=
  if !s.detected d then (false, s)
  else
    let (ok, c) := ataWriteSectorDev (selector d) lba buffer s.chan
    (ok, { s with chan := c })

end Ata

end HaoSys.Driver
