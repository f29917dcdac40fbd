import HaoSys.Fs.Vfs
import HaoSys.Mm.Vmm

/-!
# File system calls (`syscall/syscall.c`)

`Kernel` holds what these calls read and change: the page tables, the bytes at
virtual addresses, the mount table, the credentials of the current task and
the mouse. A call returns the value of `eax`, the kernel afterwards, and how
many bytes of the caller's data buffer it has read or written, counted from
the start of the buffer. -1 is 0xFFFFFFFF.
-/

namespace HaoSys.Syscall

open HaoSys.Lib HaoSys.Mm HaoSys.Fs

/-- `uid`, `gid`, `euid` and `egid` of a task. -/
structure Creds where
  uid : UInt32
  gid : UInt32
  euid : UInt32
  egid : UInt32

/-- The credentials used when there is no current task. -/
def Creds.root : Creds := ⟨0, 0, 0, 0⟩

structure Kernel where
  vmm : Vmm
  user : UInt32 → UInt8
  vfs : Vfs
  task : Option Creds
  mouse : UInt32 × UInt32 × UInt32

structure SysResult where
  eax : UInt32
  kernel : Kernel
  touched : Nat

def sysError : UInt32 := 0xFFFFFFFF

namespace Kernel

def creds (k : Kernel) : Creds := k.task.getD .root

/-- A refused call. -/
def refuse (k : Kernel) : Except Fault SysResult := .ok ⟨sysError, k, 0⟩

def accessible (k : Kernel) (a : UInt32) : Bool := k.vmm.vmmIsUserAccessible a

/-- The string at `a`: the bytes before the first NUL of at most `n`. -/
def stringAt (m : UInt32 → UInt8) : Nat → UInt32 → List UInt8
  | 0, _ => []
  | n + 1, a => if m a = 0 then [] else m a :: stringAt m n (a + 1)

/-- The path a pointer gives. -/
def path (k : Kernel) (a : UInt32) : List UInt8 := stringAt k.user (2 ^ 32) a

/-- The `n` bytes at `a`. -/
def bytesAt (k : Kernel) (a : UInt32) (n : Nat) : List UInt8 :=
  (List.range n).map fun j => k.user (a + UInt32.ofNat j)

/-- Store bytes at `a` and up. -/
def storeBytes : (UInt32 → UInt8) → UInt32 → List UInt8 → UInt32 → UInt8
  | m, _, [] => m
  | m, a, b :: rest => storeBytes (Function.update m a b) (a + 1) rest

/-- Put bytes into the caller's buffer. -/
def copyOut (k : Kernel) (buf : UInt32) (bytes : List UInt8) : Kernel :=
  { k with user := storeBytes k.user buf bytes }

end Kernel

/-! ## Permissions -/

/-- `sys_parent_sub` with a buffer of 64 bytes. -/
def sysParentSub (sub : Option (List UInt8)) : Option (List UInt8) :=
  match sub with
  | none => none
  | some s =>
    -- the length of the part before the last slash
    let len := s.length - 1 - (s.reverse.takeWhile (· ≠ 0x2F)).length
    if 0x2F ∈ s ∧ len ≠ 0 then some (s.take (if len ≥ 64 then 63 else len)) else none

/-- `sys_root_entry`. -/
def sysRootEntry : Dirent := fun j => if j.val = 11 then 0x10 else 0

/-- `sys_check_entry` returns 0. -/
def sysCheckEntry (c : Creds) (e : Dirent) (mask : UInt16) : Bool :=
  let m := e.unixMeta
  if c.euid = 0 then true
  else
    let shift : UInt16 :=
      if c.euid = m.uid.toUInt32 then 6 else if c.egid = m.gid.toUInt32 then 3 else 0
    (m.mode >>> shift) &&& 7 &&& mask = mask

/-- `sys_check_parent_writable` returns 0. -/
def sysCheckParentWritable (fuel : Nat) (c : Creds) (fs : FatFs) (sub : Option (List UInt8)) :
    FatM Bool :=
  match sysParentSub sub with
  | none => pure (sysCheckEntry c sysRootEntry 2)
  | some p => do
    match ← fatFindFile fuel fs (some p) with
    | none => pure false
    | some pe => pure (sysCheckEntry c pe 2)

/-! ## Files and directories -/

/-- The part of `sys_write_file` behind the path: whether it returns 0, and the bytes taken. -/
def writeFileAt (fuel : Nat) (c : Creds) (sub : Option (List UInt8)) (data : List UInt8)
    (fs : FatFs) : FatM (Bool × Nat) := do
  match ← fatFindFile fuel fs sub with
  | some entry =>
    if sysCheckEntry c entry 2 then
      let (ok, taken) ← fatWriteFileImpl fuel fs sub data
      if ok then
        -- overwriting rebuilds the entry, so its metadata is put back
        let _ ← fatSetFileMeta fuel fs sub entry.unixMeta
        pure (true, taken)
      else pure (false, taken)
    else pure (false, 0)
  | none =>
    if ← sysCheckParentWritable fuel c fs sub then
      let (ok, taken) ← fatWriteFileImpl fuel fs sub data
      if ok then
        let _ ← fatSetFileMeta fuel fs sub ⟨sIfreg ||| 0o644, c.uid.toUInt16, c.gid.toUInt16⟩
        pure (true, taken)
      else pure (false, taken)
    else pure (false, 0)

/-- The value of `eax` for a call that returns 0 or -1. -/
def statusOf (ok : Bool) : UInt32 := if ok then 0 else sysError

/-- `sys_write_file`. -/
def sysWriteFile (fuel : Nat) (k : Kernel) (filename data size : UInt32) :
    Except Fault SysResult :=
  if filename = 0 ∨ data = 0 then k.refuse
  else if !k.accessible filename then k.refuse
  else if size > 65536 then k.refuse
  else if !k.accessible data then k.refuse
  else if size > 0 ∧ !k.accessible (data + size - 1) then k.refuse
  else match k.vfs.vfsResolve (some (k.path filename)) with
    | none => k.refuse
    | some (i, sub) => do
      let (r, vfs) ← k.vfs.run i (writeFileAt fuel k.creds sub (k.bytesAt data size.toNat))
      let (ok, taken) := r.getD (false, 0)
      pure ⟨statusOf ok, { k with vfs }, taken⟩

/-- The part of `sys_read_file` and `sys_read_file_off` behind the path: the bytes loaded. -/
def readFileAt (fuel : Nat) (c : Creds) (sub : Option (List UInt8))
    (load : FatFs → Dirent → FatM (List UInt8)) (fs : FatFs) : FatM (Option (List UInt8)) := do
  match ← fatFindFile fuel fs sub with
  | none => pure none
  | some entry =>
    if sysCheckEntry c entry 4 then
      let bytes ← load fs entry
      pure (some bytes)
    else pure none

/-- The checks and the copy that `sys_read_file` and `sys_read_file_off` share. -/
def readFileWith (fuel : Nat) (k : Kernel) (filename buf maxSize : UInt32)
    (load : FatFs → Dirent → FatM (List UInt8)) : Except Fault SysResult :=
  if filename = 0 ∨ buf = 0 then k.refuse
  else if !k.accessible filename then k.refuse
  else if maxSize = 0 then k.refuse
  else if !k.accessible buf then k.refuse
  else if !k.accessible (buf + maxSize - 1) then k.refuse
  else match k.vfs.vfsResolve (some (k.path filename)) with
    | none => k.refuse
    | some (i, sub) => do
      let (r, vfs) ← k.vfs.run i (readFileAt fuel k.creds sub load)
      match r.join with
      | none => pure ⟨sysError, { k with vfs }, 0⟩
      | some bytes =>
        pure ⟨UInt32.ofNat bytes.length, ({ k with vfs } : Kernel).copyOut buf bytes, bytes.length⟩

/-- `sys_read_file`. -/
def sysReadFile (fuel : Nat) (k : Kernel) (filename buf maxSize : UInt32) :
    Except Fault SysResult :=
  readFileWith fuel k filename buf maxSize fun fs e => fatLoadFile fuel fs e maxSize

/-- `sys_read_file_off`. -/
def sysReadFileOff (fuel : Nat) (k : Kernel) (filename offset buf maxSize : UInt32) :
    Except Fault SysResult :=
  readFileWith fuel k filename buf maxSize fun fs e => fatLoadFileOff fuel fs e offset maxSize

/-- The part of `sys_delete_file` behind the path. -/
def deleteFileAt (fuel : Nat) (c : Creds) (sub : Option (List UInt8)) (fs : FatFs) :
    FatM Bool := do
  if ← sysCheckParentWritable fuel c fs sub then fatDeleteFile fuel fs sub else pure false

/-- The part of `sys_mkdir` behind the path. -/
def mkdirAt (fuel : Nat) (c : Creds) (sub : Option (List UInt8)) (fs : FatFs) : FatM Bool := do
  if ← sysCheckParentWritable fuel c fs sub then
    if ← fatMkdir fuel fs sub then
      let _ ← fatSetFileMeta fuel fs sub ⟨sIfdir ||| 0o755, c.uid.toUInt16, c.gid.toUInt16⟩
      pure true
    else pure false
  else pure false

/-- The calls that take a path and return 0 or -1. -/
def pathCall (k : Kernel) (path : UInt32) (x : Option (List UInt8) → FatFs → FatM Bool) :
    Except Fault SysResult :=
  if path = 0 then k.refuse
  else if !k.accessible path then k.refuse
  else match k.vfs.vfsResolve (some (k.path path)) with
    | none => k.refuse
    | some (i, sub) => do
      let (r, vfs) ← k.vfs.run i (x sub)
      pure ⟨statusOf (r.getD false), { k with vfs }, 0⟩

/-- `sys_delete_file`. -/
def sysDeleteFile (fuel : Nat) (k : Kernel) (filename : UInt32) : Except Fault SysResult :=
  pathCall k filename (deleteFileAt fuel k.creds)

/-- `sys_mkdir`. -/
def sysMkdir (fuel : Nat) (k : Kernel) (path : UInt32) : Except Fault SysResult :=
  pathCall k path (mkdirAt fuel k.creds)

/-! ## Listing and the mouse -/

/-- `path` is "/" and `name`, in any case. -/
def isVirtualDir (path name : List UInt8) : Bool :=
  path.head? = some 0x2F ∧ path.tail.map toUpper = name

/-- `(int)max`. -/
def signed (v : UInt32) : Int := if v.toNat < 2 ^ 31 then v.toNat else (v.toNat : Int) - 2 ^ 32

/-- The virtual entries DEV and MNT behind the root directory's own. -/
def withVirtual (entries : List Dirent) (max : UInt32) : List Dirent :=
  let add (es : List Dirent) (name : List UInt8) : List Dirent :=
    if (es.length : Int) < signed max then es ++ [newDirent (Vfs.paddedName name) 0x10 0 0] else es
  add (add entries [0x44, 0x45, 0x56]) [0x4D, 0x4E, 0x54]

/-- The part of `sys_list` behind the path: the directory's entries. -/
def listAt (fuel : Nat) (c : Creds) (sub : Option (List UInt8)) (max : UInt32) (fs : FatFs) :
    FatM (Option (List Dirent)) := do
  let dirEntry ← if sub.getD [] ≠ [] then fatFindFile fuel fs sub else pure (some sysRootEntry)
  match dirEntry with
  | none => pure none
  | some de =>
    if sysCheckEntry c de 4 then
      let dirCluster ← fatOpenDir fuel fs sub
      if dirCluster = 0xFFFFFFFF then pure none
      else
        let entries ← fatReadDir fuel fs dirCluster max
        pure (some entries)
    else pure none

/-- The bytes of an array of entries. -/
def direntBytes (entries : List Dirent) : List UInt8 := entries.flatMap List.ofFn

/-- Entries put into the caller's buffer. -/
def listed (k : Kernel) (buf : UInt32) (entries : List Dirent) : SysResult :=
  ⟨UInt32.ofNat entries.length, k.copyOut buf (direntBytes entries), 32 * entries.length⟩

/-- `sys_list`; `path` may be `NULL`. -/
def sysList (fuel : Nat) (k : Kernel) (path buf max : UInt32) : Except Fault SysResult :=
  if buf = 0 ∨ max = 0 then k.refuse
  else if path ≠ 0 ∧ !k.accessible path then k.refuse
  else if !k.accessible buf then k.refuse
  else if !k.accessible (buf + (max - 1) * 32) then k.refuse
  else
    let p := if path = 0 then none else some (k.path path)
    if isVirtualDir (p.getD []) [0x44, 0x45, 0x56] then
      .ok (listed k buf (k.vfs.vfsListDevices max))
    else if isVirtualDir (p.getD []) [0x4D, 0x4E, 0x54] then
      .ok (listed k buf (k.vfs.vfsListMountPoints max))
    else match k.vfs.vfsResolve p with
      | none => k.refuse
      | some (i, sub) => do
        let (r, vfs) ← k.vfs.run i (listAt fuel k.creds sub max)
        match r.join with
        | none => pure ⟨sysError, { k with vfs }, 0⟩
        | some entries =>
          -- the root directory also shows the virtual ones; by now the entries may have overwritten
          -- the path that is looked at
          let q := if path = 0 then none
            else some ((k.copyOut buf (direntBytes entries)).path path)
          let entries := if 0 ≤ signed (UInt32.ofNat entries.length) ∧
            (q = none ∨ q = some [0x2F]) then withVirtual entries max else entries
          pure (listed { k with vfs } buf entries)

/-- `sys_getmouse`: three `int32` at `buf`. -/
def sysGetmouse (k : Kernel) (buf : UInt32) : Except Fault SysResult :=
  if buf = 0 then k.refuse
  else if !k.accessible buf then k.refuse
  else if !k.accessible (buf + 8) then k.refuse
  else
    let word (v : UInt32) : List UInt8 := (List.range 4).map (byte v.toNat)
    let (x, y, buttons) := k.mouse
    .ok ⟨0, k.copyOut buf (word x ++ word y ++ word buttons), 12⟩

end HaoSys.Syscall
