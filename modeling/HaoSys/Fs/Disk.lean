import HaoSys.Lib.LittleEndian
import HaoSys.Lib.Prog

/-!
# Block devices and the sector buffer

A `Disk` gives the contents of every sector of a block device, which sectors
can be read, and which of the coming writes succeed. `FatM` is the monad of
the FAT driver: its state is the device and the instance's `sector_buffer`,
the 512 bytes that every routine reads into and writes from. An access outside
the buffer, a division by zero and a loop that is still running when its fuel
is used up are faults.
-/

namespace HaoSys.Fs

open HaoSys.Lib

/-- The contents of one sector. -/
abbrev Sector := Fin 512 → UInt8

namespace Sector

def zero : Sector := fun _ => 0

def get (s : Sector) (o : Nat) : UInt8 := if h : o < 512 then s ⟨o, h⟩ else 0

def set (s : Sector) (o : Nat) (b : UInt8) : Sector := fun i => if i.val = o then b else s i

def get16 (s : Sector) (o : Nat) : UInt16 := le16 (s.get o) (s.get (o + 1))

def get32 (s : Sector) (o : Nat) : UInt32 :=
  le32 (s.get o) (s.get (o + 1)) (s.get (o + 2)) (s.get (o + 3))

def set16 (s : Sector) (o : Nat) (v : UInt16) : Sector :=
  (s.set o (byte v.toNat 0)).set (o + 1) (byte v.toNat 1)

def set32 (s : Sector) (o : Nat) (v : UInt32) : Sector :=
  (((s.set o (byte v.toNat 0)).set (o + 1) (byte v.toNat 1)).set (o + 2) (byte v.toNat 2)).set
    (o + 3) (byte v.toNat 3)

end Sector

/-- A directory entry (`fat_dirent_t`), as its 32 bytes. -/
abbrev Dirent := Fin 32 → UInt8

/-- The proof behind the literals of `Fin 32`. -/
instance neZero32 : NeZero 32 := ⟨by decide⟩

namespace Dirent

def attributes (e : Dirent) : UInt8 := e 11

/-- `(cluster_high << 16) | cluster_low`. -/
def firstCluster (e : Dirent) : UInt32 := le32 (e 26) (e 27) (e 20) (e 21)

def fileSize (e : Dirent) : UInt32 := le32 (e 28) (e 29) (e 30) (e 31)

def creationTime (e : Dirent) : UInt16 := le16 (e 14) (e 15)

/-- The entry has the directory attribute. -/
def isDir (e : Dirent) : Bool := e.attributes &&& 0x10 != 0

end Dirent

/-- `*(fat_dirent_t*)(sector_buffer + o)`. -/
def Sector.dirent (s : Sector) (o : Nat) : Dirent := fun j => s.get (o + j.val)

/-- Overwrite the entry at offset `o`. -/
def Sector.setDirent (s : Sector) (o : Nat) (e : Dirent) : Sector := fun k =>
  if h : o ≤ k.val ∧ k.val < o + 32 then e ⟨k.val - o, by omega⟩ else s k

/-- A block device. `writes` counts the writes so far; the `n`-th write, to sector `lba`,
succeeds when `writable n lba`. -/
structure Disk where
  sector : UInt32 → Sector
  readable : UInt32 → Bool
  writable : Nat → UInt32 → Bool
  writes : Nat

/-- Every read returns the last write and nothing fails. -/
structure Disk.Reliable (d : Disk) : Prop where
  readable : ∀ lba, d.readable lba = true
  writable : ∀ n lba, d.writable n lba = true

inductive Fault where
  | divByZero
  | outOfBounds
  | noReturn
  deriving DecidableEq, Repr

/-- The mutable part of `fat_fs_t` and the device behind it. -/
structure FatState where
  buf : Sector
  disk : Disk

abbrev FatM := Prog FatState Fault

/-! ## The sector buffer -/

/-- `sector_buffer[o]`, `*(uint16_t*)(sector_buffer + o)`, … for `w` bytes at `o`. -/
def bufRead {α : Type} (o w : Nat) (f : Sector → α) : FatM α := fun s =>
  if o + w ≤ 512 then .ok (f s.buf, s) else .error .outOfBounds

/-- A store of `w` bytes at offset `o`. -/
def bufWrite (o w : Nat) (f : Sector → Sector) : FatM Unit := fun s =>
  if o + w ≤ 512 then .ok ((), { s with buf := f s.buf }) else .error .outOfBounds

/-- `a / b` for `uint32_t`. -/
def udiv (a b : UInt32) : FatM UInt32 := if b = 0 then Prog.fault .divByZero else pure (a / b)

end HaoSys.Fs
