import HaoSys.Syscall.Syscall

/-!
# Metadata, credentials and raw sectors (`syscall/syscall.c`)

`stat`, `chmod` and `chown` on the metadata that a directory entry carries,
`setuid` and `setgid` on the caller's credentials, and `SYS_READ_SECT`, which
reads the ATA master past the file system.
-/

namespace HaoSys.Syscall

open HaoSys.Lib HaoSys.Mm HaoSys.Fs

/-! ## Credentials -/

/-- `sys_setuid`: what it returns and the credentials it leaves. -/
def sysSetuid (task : Option Creds) (uid : UInt32) : UInt32 × Option Creds :=
  match task with
  | none => (sysError, none)
  | some c =>
    if c.euid = 0 then (0, some { c with uid := uid, euid := uid })
    else if uid = c.uid then (0, some { c with euid := uid })
    else (sysError, some c)

/-- `sys_setgid`. -/
def sysSetgid (task : Option Creds) (gid : UInt32) : UInt32 × Option Creds :=
  match task with
  | none => (sysError, none)
  | some c =>
    if c.euid = 0 then (0, some { c with gid := gid, egid := gid })
    else if gid = c.gid then (0, some { c with egid := gid })
    else (sysError, some c)

/-! ## Metadata -/

/-- `S_IFMT`. -/
def sIfmt : UInt16 := 0o170000

/-- The bytes of a `stat_info_t`; the two bytes of padding before the size are shown as 0. -/
def statBytes (m : UnixMeta) (size : UInt32) : List UInt8 :=
  let half (v : UInt16) : List UInt8 := (List.range 2).map (byte v.toNat)
  half m.mode ++ half m.uid ++ half m.gid ++ [0, 0] ++ (List.range 4).map (byte size.toNat)

/-- `sys_stat`. -/
def sysStat (fuel : Nat) (k : Kernel) (path buf : UInt32) : Except Fault SysResult :=
  if path = 0 ∨ buf = 0 then k.refuse
  else if !k.accessible path then k.refuse
  else if !k.accessible buf ∨ !k.accessible (buf + 15) then k.refuse
  else if isVirtualDir (k.path path) [0x44, 0x45, 0x56] ∨
      isVirtualDir (k.path path) [0x4D, 0x4E, 0x54] then
    .ok ⟨0, k.copyOut buf (statBytes ⟨sIfdir ||| 0o755, 0, 0⟩ 0), 12⟩
  else match k.vfs.vfsResolve (some (k.path path)) with
    | none => k.refuse
    | some (i, sub) => do
      let (r, vfs) ← k.vfs.run i fun fs => fatFindFile fuel fs sub
      match r.join with
      | none => pure ⟨sysError, { k with vfs }, 0⟩
      | some e =>
        pure ⟨0, ({ k with vfs } : Kernel).copyOut buf (statBytes e.unixMeta e.fileSize), 12⟩

/-- The part of `sys_chmod` behind the path: only the owner and root may. -/
def chmodAt (fuel : Nat) (c : Creds) (mode : UInt32) (sub : Option (List UInt8)) (fs : FatFs) :
    FatM Bool := do
  match ← fatFindFile fuel fs sub with
  | none => pure false
  | some e =>
    let m := e.unixMeta
    let newMode := (m.mode &&& sIfmt) ||| (mode &&& 0o7777).toUInt16
    if c.euid ≠ 0 ∧ c.euid ≠ m.uid.toUInt32 then pure false
    else fatSetFileMeta fuel fs sub { m with mode := newMode }

/-- `sys_chmod`. -/
def sysChmod (fuel : Nat) (k : Kernel) (path mode : UInt32) : Except Fault SysResult :=
  pathCall k path (chmodAt fuel k.creds mode)

/-- The part of `sys_chown` behind the path; 0xFFFF keeps an id. -/
def chownAt (fuel : Nat) (uid gid : UInt32) (sub : Option (List UInt8)) (fs : FatFs) :
    FatM Bool := do
  match ← fatFindFile fuel fs sub with
  | none => pure false
  | some e =>
    let m := e.unixMeta
    fatSetFileMeta fuel fs sub { m with
      uid := if uid ≠ 0xFFFF then uid.toUInt16 else m.uid
      gid := if gid ≠ 0xFFFF then gid.toUInt16 else m.gid }

/-- There is a current task and it is root. -/
def Kernel.isRoot (k : Kernel) : Bool := k.task.any fun c => c.euid = 0

/-- `sys_chown`. -/
def sysChown (fuel : Nat) (k : Kernel) (path uid gid : UInt32) : Except Fault SysResult :=
  if path = 0 then k.refuse
  else if !k.accessible path then k.refuse
  else if !k.isRoot then k.refuse
  else pathCall k path (chownAt fuel uid gid)

/-! ## Raw sectors -/

/-- "/dev/ata0". -/
def ataName : List UInt8 := [0x2F, 0x64, 0x65, 0x76, 0x2F, 0x61, 0x74, 0x61, 0x30]

/-- The ATA master, registered at boot if it is there. -/
def ataDev (v : Vfs) : Option Nat := v.devs.findIdx? fun d => d.name = ataName

/-- `ata_read_sector`: the controller is given 28 bits of the address. -/
def ataReadSector (v : Vfs) (lba : UInt32) : Option (List UInt8) :=
  match ataDev v with
  | none => none
  | some i =>
    let a := lba &&& 0x0FFFFFFF
    if (v.disks i).readable a then some (List.ofFn ((v.disks i).sector a)) else none

/-- `sys_read_sector`; no permission is asked for. -/
def sysReadSector (k : Kernel) (lba buffer : UInt32) : SysResult :=
  if buffer = 0 then ⟨1, k, 0⟩
  else if !k.accessible buffer then ⟨1, k, 0⟩
  else if !k.accessible (buffer + 511) then ⟨1, k, 0⟩
  else match ataReadSector k.vfs lba with
    | none => ⟨1, k, 0⟩
    | some bytes => ⟨0, k.copyOut buffer bytes, 512⟩

/-! ## No file system call changes the caller -/

variable {k : Kernel} {r : SysResult}

theorem refuse_task (h : k.refuse = .ok r) : r.kernel.task = k.task := by
  cases h
  rfl

/-- A call that ends in one operation on a volume and keeps the credentials whatever that gives. -/
theorem run_task {α : Type} {i : Fin 8} {x : FatFs → FatM α}
    {f : Option α × Vfs → Except Fault SysResult}
    (h : (k.vfs.run i x >>= f) = .ok r)
    (hf : ∀ p r, f p = .ok r → r.kernel.task = k.task) : r.kernel.task = k.task := by
  cases hx : k.vfs.run i x with
  | error e =>
    rw [hx] at h
    cases h
  | ok p =>
    rw [hx] at h
    exact hf p r h

theorem pathCall_task {path : UInt32} {x : Option (List UInt8) → FatFs → FatM Bool}
    (h : pathCall k path x = .ok r) : r.kernel.task = k.task := by
  unfold pathCall at h
  split at h
  · exact refuse_task h
  split at h
  · exact refuse_task h
  split at h
  · exact refuse_task h
  · refine run_task h fun p r hp => ?_
    cases hp
    rfl

theorem sysWriteFile_task {fuel : Nat} {filename data size : UInt32}
    (h : sysWriteFile fuel k filename data size = .ok r) : r.kernel.task = k.task := by
  unfold sysWriteFile at h
  repeat' split at h
  all_goals first
    | exact refuse_task h
    | refine run_task h fun p r hp => ?_
      cases hp
      rfl

theorem readFileWith_task {fuel : Nat} {filename buf maxSize : UInt32}
    {load : FatFs → Dirent → FatM (List UInt8)}
    (h : readFileWith fuel k filename buf maxSize load = .ok r) : r.kernel.task = k.task := by
  unfold readFileWith at h
  repeat' split at h
  all_goals first
    | exact refuse_task h
    | refine run_task h fun p r hp => ?_
      simp only at hp
      split at hp <;> cases hp <;> rfl

theorem sysList_task {fuel : Nat} {path buf max : UInt32}
    (h : sysList fuel k path buf max = .ok r) : r.kernel.task = k.task := by
  unfold sysList at h
  generalize (if path = 0 then none else some (k.path path)) = p at h
  simp only at h
  split at h
  · exact refuse_task h
  split at h
  · exact refuse_task h
  split at h
  · exact refuse_task h
  split at h
  · exact refuse_task h
  split at h
  · cases h
    rfl
  split at h
  · cases h
    rfl
  split at h
  · exact refuse_task h
  · refine run_task h fun p r hp => ?_
    split at hp <;> cases hp <;> rfl

theorem sysGetmouse_task {buf : UInt32} (h : sysGetmouse k buf = .ok r) :
    r.kernel.task = k.task := by
  unfold sysGetmouse at h
  repeat' split at h
  all_goals first
    | exact refuse_task h
    | cases h
      rfl

theorem sysStat_task {fuel : Nat} {path buf : UInt32} (h : sysStat fuel k path buf = .ok r) :
    r.kernel.task = k.task := by
  unfold sysStat at h
  split at h
  · exact refuse_task h
  split at h
  · exact refuse_task h
  split at h
  · exact refuse_task h
  split at h
  · cases h
    rfl
  split at h
  · exact refuse_task h
  · refine run_task h fun p r hp => ?_
    simp only at hp
    split at hp <;> cases hp <;> rfl

theorem sysChown_task {fuel : Nat} {path uid gid : UInt32}
    (h : sysChown fuel k path uid gid = .ok r) : r.kernel.task = k.task := by
  unfold sysChown at h
  repeat' split at h
  all_goals first
    | exact refuse_task h
    | exact pathCall_task h

theorem sysReadSector_task (k : Kernel) (lba buffer : UInt32) :
    (sysReadSector k lba buffer).kernel.task = k.task := by
  unfold sysReadSector
  repeat' split
  all_goals rfl

end HaoSys.Syscall
