import HaoSys.Fs.Creation
import HaoSys.Syscall.Machine
import HaoSys.Syscall.Meta
import HaoSys.Syscall.Permission

/-!
# The owner of what is created

A new file or directory gets the creator's uid and gid, cut to the 16 bits
that the entry has for each. `OwnedBy` is what owning means for the calls that
come after it.
-/

namespace HaoSys.Syscall

open HaoSys.Lib HaoSys.Fs Prog

/-! ## Calls that have returned -/

/-- The volumes after an operation on slot `i` has left the state `t`. -/
def afterRun (v : Vfs) (i : Fin 8) (m : Mount) (t : FatState) : Vfs :=
  { v with
    mounts := Function.update v.mounts i (some { m with buf := t.buf })
    disks := Function.update v.disks m.dev t.disk }

section Calls

variable {k : Kernel} {path : UInt32} {i : Fin 8} {m : Mount} {r : SysResult}

theorem run_eq {α : Type} {v : Vfs} {x : FatFs → FatM α} (hm : v.mounts i = some m) {a : α}
    {t : FatState} (hx : x m.fs ⟨m.buf, v.disks m.dev⟩ = .ok (a, t)) :
    v.run i x = .ok (some a, afterRun v i m t) := by
  unfold Vfs.run
  rw [hm]
  simp only [hx]
  rfl

/-- A mount point is where it was. -/
theorem vfsResolve_afterRun {v : Vfs} (hm : v.mounts i = some m) (t : FatState) :
    (afterRun v i m t).vfsResolve = v.vfsResolve := by
  refine Vfs.vfsResolve_congr fun j => ?_
  unfold afterRun
  by_cases hj : j = i
  · subst hj
    simp [hm]
  · simp [Function.update_of_ne hj]

theorem sysWriteFile_zero_after {fuel : Nat} {data size : UInt32} {sub : Option (List UInt8)}
    (hres : k.vfs.vfsResolve (some (k.path path)) = some (i, sub)) (hm : k.vfs.mounts i = some m)
    (h : sysWriteFile fuel k path data size = .ok r) (hr : r.eax = 0) :
    path ≠ 0 ∧ k.accessible path = true ∧ size.toNat ≤ 65536 ∧
      ∃ n t, writeFileAt fuel k.creds sub (k.bytesAt data size.toNat) m.fs
          ⟨m.buf, k.vfs.disks m.dev⟩ = .ok ((true, n), t) ∧
        r.kernel = { k with vfs := afterRun k.vfs i m t } := by
  obtain ⟨n, t, ht⟩ := sysWriteFile_zero hres hm h hr
  unfold sysWriteFile Kernel.refuse at h
  split at h
  · cases h; cases hr
  split at h
  · cases h; cases hr
  split at h
  · cases h; cases hr
  next hnull hacc hsize =>
  split at h
  · cases h; cases hr
  split at h
  · cases h; cases hr
  rw [hres] at h
  simp only [run_eq hm ht] at h
  cases h
  refine ⟨fun h0 => hnull (.inl h0), by simpa using hacc, ?_, n, t, ht, rfl⟩
  exact UInt32.le_iff_toNat_le.1 (UInt32.not_lt.1 hsize)

end Calls

/-! ## Owning -/

section Created

variable {fuel : Nat} {fs : FatFs} {d d' : Disk} {sub : List UInt8} {dir : UInt32}
  {name : Name83} {lba offset : UInt32} {e : Dirent} {s t : FatState}

end Created

/-! ## The laws -/

/-- The volume is sound and its device reliable, each of the next `n` free clusters has its FAT entry
in one sector, and the path leads to a directory with room for its last name. -/
structure RoomFor (fs : FatFs) (d : Disk) (sub : List UInt8) (n : Nat) : Prop where
  sound : fs.Sound
  reliable : d.Reliable
  inSectors : fs.InSectors d n
  ready : ∃ dir name, fs.Ready d sub dir name

section Laws

variable {fuel : Nat} {k : Kernel} {path : UInt32} {i : Fin 8} {m : Mount} {sub : List UInt8}
  {r : SysResult} {n : Nat}

end Laws

/-! ## A user in a directory that is open to all -/

/-- The directory D, open to all and empty, is the only thing on the volume. -/
def openDirDisk : Disk := Disk.ofSectors fun a =>
  if a = 1 then Sector.zero.set16 4 0xFFFF
  else if a = 3 then Sector.ofDirents [ownedDirent [0x44] 0x10 2 ⟨0o040777, 0, 0⟩]
  else Sector.zero

end HaoSys.Syscall
