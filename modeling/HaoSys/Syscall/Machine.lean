import HaoSys.Fs.Dir
import HaoSys.Syscall.Syscall

/-!
# Machines with one volume

Kernel states built from a volume, a path in user memory and a caller. The
failing inputs of this directory are states of this kind.
-/

namespace HaoSys.Fs

/-- A reliable device with the given sectors. -/
def Disk.ofSectors (f : UInt32 → Sector) : Disk := ⟨f, fun _ => true, fun _ _ => true, 0⟩

theorem Disk.ofSectors_reliable (f : UInt32 → Sector) : (Disk.ofSectors f).Reliable :=
  ⟨fun _ => rfl, fun _ _ => rfl⟩

/-- A directory entry with an owner and a mode. -/
def ownedDirent (name : List UInt8) (attributes : UInt8) (cluster : UInt32) (m : UnixMeta) :
    Dirent :=
  (newDirent (makeName83 name) attributes cluster 0).setUnixMeta m

end HaoSys.Fs

namespace HaoSys.Syscall

open HaoSys.Lib HaoSys.Mm HaoSys.Fs

/-- User memory that holds a string at `p`. -/
def stringMem (p : UInt32) (s : List UInt8) (a : UInt32) : UInt8 := s.getD (a - p).toNat 0

/-- Page tables that make every address accessible: every word of memory is a present user entry. -/
def openVmm : Vmm := ⟨⟨fun _ => 7, 0, 0, 0, 0, 0⟩, 4096, 4096⟩

/-- One volume, mounted at "/". -/
def singleVfs (fs : FatFs) (d : Disk) : Vfs where
  mounts i := if i = 0 then some ⟨Vfs.rootPoint, fs, Sector.zero, 0⟩ else none
  devs := []
  disks _ := d

/-- A caller with the credentials `c` and the string `path` at 0x1000. -/
def machine (v : Vmm) (fs : FatFs) (d : Disk) (c : Creds) (path : List UInt8) : Kernel where
  vmm := v
  user := stringMem 0x1000 path
  vfs := singleVfs fs d
  task := some c
  mouse := (0, 0, 0)

/-- A user without privileges. -/
def plainUser : Creds := ⟨1, 1, 1, 1⟩

/-- What a call that returned has put into `eax`. -/
def eaxOf (r : Except Fault SysResult) : Option UInt32 :=
  match r with
  | .ok r => some r.eax
  | .error _ => none

theorem exists_of_eaxOf {r : Except Fault SysResult} {v : UInt32} (h : eaxOf r = some v) :
    ∃ x, r = .ok x ∧ x.eax = v := by
  unfold eaxOf at h
  split at h
  · next x => exact ⟨x, rfl, Option.some.inj h⟩
  · cases h

end HaoSys.Syscall
