import HaoSys.Driver.Protect
import HaoSys.Fs.MountTable
import HaoSys.Syscall.Meta

/-!
# The dispatcher (`syscall_dispatcher`)

`System` is what a system call sees: memory, mount table, console and the
credentials of the calling task. `syscallDispatcher` is the `switch` over
`eax`. `SYS_EXIT`, `SYS_POWEROFF` and `SYS_REBOOT` do not return to the caller.
What the keyboard, the clock and the tables printed by other parts of the
kernel contribute to a call is in `Env`.
-/

namespace HaoSys.Fs

/-- The table after an operation on one of its volumes: the buffers and the devices changed. -/
def MountTable.afterVfs (t : MountTable) (v : Vfs) : MountTable where
  slots i := match v.mounts i with
    | some m => { t.slots i with buf := m.buf }
    | none => t.slots i
  devs := t.devs
  disks := v.disks

end HaoSys.Fs

namespace HaoSys.Syscall

open HaoSys.Lib HaoSys.Mm HaoSys.Fs HaoSys.Driver

/-- The registers a call is made with. -/
structure Regs where
  eax : UInt32
  ebx : UInt32
  ecx : UInt32
  edx : UInt32
  esi : UInt32

/-- What a call is told by devices, and the text that `task_dump_all`, `usb_get_device_list`,
`vfs_print_devices` and `vfs_mount` print. -/
structure Env where
  key : UInt32
  time : UInt32
  date : UInt32
  uptime : UInt32
  report : List UInt8

structure System where
  vmm : Vmm
  user : UInt32 → UInt8
  table : MountTable
  console : Console
  /-- The credentials of `current_task`. -/
  task : Option Creds

namespace System

/-- The part of the system that the file system calls work on. -/
def kernel (s : System) : Kernel :=
  ⟨s.vmm, s.user, s.table.toVfs, s.task,
    (UInt32.ofInt s.console.mouse.x, UInt32.ofInt s.console.mouse.y, s.console.mouse.btn.toUInt32)⟩

/-- The system after a file system call. -/
def withKernel (s : System) (k : Kernel) : System :=
  { s with vmm := k.vmm, user := k.user, table := s.table.afterVfs k.vfs, task := k.task }

def print (s : System) (text : List UInt8) : System :=
  { s with console := s.console.vgaWrite text }

/-- A text operation on the screen. -/
def onScreen (s : System) (op : TextOp) : System := { s with console := s.console.runText op }

def onMouse (s : System) (op : MouseOp) : System := { s with console := s.console.runInput op }

/-- The string at a user address. -/
def text (s : System) (a : UInt32) : List UInt8 := s.kernel.path a

end System

/-- The characters of a text. -/
def chars (s : String) : List UInt8 := s.toList.map fun c => c.val.toUInt8

/-- The digits of `vga_write_hex`. -/
def hexText (v : UInt32) : List UInt8 :=
  chars "0x" ++ ((List.range 8).reverse.map fun i =>
    let nibble := v.toNat / 16 ^ i % 16
    UInt8.ofNat (if nibble < 10 then 0x30 + nibble else 0x41 + (nibble - 10)))

/-- How a call ends: `none` when it does not return to the caller. -/
abbrev Return := Except Fault (Option UInt32 × System)

namespace System

def ret (s : System) (eax : UInt32) : Return := .ok (some eax, s)

/-- A file system call. -/
def fileCall (s : System) (f : Kernel → Except Fault SysResult) : Return :=
  match f s.kernel with
  | .error e => .error e
  | .ok r => (s.withKernel r.kernel).ret r.eax

/-- `sys_write`: the string has to end within 4096 bytes. Its other pages are never checked, since
the loop ends before `i` reaches 4096. -/
def sysWrite (s : System) (str : UInt32) : Return :=
  if str = 0 then s.ret sysError
  else if !s.kernel.accessible str then s.ret sysError
  else
    let text := Kernel.stringAt s.user 4096 str
    if text.length = 4096 then s.ret sysError else (s.print text).ret 0

/-- `sys_mount`: only root may. -/
def sysMount (s : System) (env : Env) (devName point : UInt32) : Return :=
  if !s.kernel.isRoot then s.ret sysError
  else if devName = 0 ∨ point = 0 then s.ret sysError
  else if !s.kernel.accessible devName ∨ !s.kernel.accessible point then s.ret sysError
  else match s.table.vfsMount (some (s.text point)) (some (s.text devName)) with
    | .error e => .error e
    | .ok (ok, table) => ({ s with table }.print env.report).ret (statusOf ok)

/-- `sys_umount`. -/
def sysUmount (s : System) (point : UInt32) : Return :=
  if !s.kernel.isRoot then s.ret sysError
  else if point = 0 then s.ret sysError
  else if !s.kernel.accessible point then s.ret sysError
  else
    let (ok, table) := s.table.vfsUmount (some (s.text point))
    { s with table }.ret (statusOf ok)

/-- The cursor's place as `(row << 16) | col`. -/
def cursorPos (s : System) : UInt32 :=
  UInt32.ofInt s.console.vga.cursorRow <<< 16 ||| UInt32.ofInt s.console.vga.cursorCol

/-- `syscall_dispatcher`. The screen's cursor shape (37) is not part of the state, and a task that
yields (26) comes back after other tasks have run. -/
def syscallDispatcher (fuel : Nat) (env : Env) (s : System) (regs : Regs) : Return :=
  match regs.eax.toNat with
  | 1 => (s.onScreen (.putchar (regs.ebx &&& 0xFF).toUInt8)).ret 0
  | 2 => s.ret env.key
  | 3 => s.sysWrite regs.ebx
  | 4 => .ok (none, s.print (chars "[Syscall] Task exiting, status: " ++ hexText regs.ebx ++ [0x0A]))
  | 5 => s.fileCall fun k => .ok (sysReadSector k regs.ebx regs.ecx)
  | 6 => s.fileCall fun k => sysGetmouse k regs.ebx
  | 7 => (s.onScreen (.setCursor (signed regs.ebx) (signed regs.ecx))).ret 0
  | 8 => s.ret s.cursorPos
  | 9 => (s.onScreen .clear).ret 0
  | 10 => s.ret (UInt32.ofInt s.console.mouse.sensitivity)
  | 11 => (s.onMouse (.setSensitivity (signed regs.ebx))).ret 0
  | 12 => s.ret s.console.vga.defaultColor.toUInt32
  | 13 => (s.onScreen (.setDefaultColor regs.ebx.toUInt8)).ret 0
  | 14 => (s.onScreen .protectBeforeCursor).ret 0
  | 15 => s.ret s.console.mouse.pointerGlyph.toUInt32
  | 16 => (s.onMouse (.setPointerGlyph regs.ebx.toUInt8)).ret 0
  | 17 => s.fileCall fun k => sysWriteFile fuel k regs.ebx regs.ecx regs.edx
  | 18 => s.fileCall fun k => sysReadFile fuel k regs.ebx regs.ecx regs.edx
  | 19 => (s.print env.report).ret 0
  | 20 => s.ret env.time
  | 21 => s.ret env.date
  | 22 => s.fileCall fun k => sysDeleteFile fuel k regs.ebx
  | 23 => s.ret env.uptime
  | 24 => s.fileCall fun k => sysMkdir fuel k regs.ebx
  | 25 => s.fileCall fun k => sysList fuel k regs.ebx regs.ecx regs.edx
  | 26 => s.ret 0
  | 27 => (s.print env.report).ret 0
  | 28 => s.sysMount env regs.ebx regs.ecx
  | 29 => s.sysUmount regs.ebx
  | 30 => (s.print env.report).ret 0
  | 31 => s.ret env.key
  | 36 => s.fileCall fun k => sysReadFileOff fuel k regs.ebx regs.ecx regs.edx regs.esi
  | 37 => s.ret 0
  | 38 => s.ret s.kernel.creds.uid
  | 39 => s.ret s.kernel.creds.gid
  | 40 => s.ret s.kernel.creds.euid
  | 41 => s.ret s.kernel.creds.egid
  | 42 => { s with task := (sysSetuid s.task regs.ebx).2 }.ret (sysSetuid s.task regs.ebx).1
  | 43 => { s with task := (sysSetgid s.task regs.ebx).2 }.ret (sysSetgid s.task regs.ebx).1
  | 44 => s.fileCall fun k => sysStat fuel k regs.ebx regs.ecx
  | 45 => s.fileCall fun k => sysChmod fuel k regs.ebx regs.ecx
  | 46 => s.fileCall fun k => sysChown fuel k regs.ebx regs.ecx regs.edx
  | 47 => .ok (none, s)
  | 48 => .ok (none, s)
  | _ => (s.print (chars "[Syscall] Unknown number: " ++ hexText regs.eax ++ [0x0A])).ret sysError

/-! ## What a call does to the credentials -/

theorem fileCall_task {s t : System} {v : Option UInt32} {f : Kernel → Except Fault SysResult}
    (h : s.fileCall f = .ok (v, t)) (hf : ∀ r, f s.kernel = .ok r → r.kernel.task = s.task) :
    t.task = s.task := by
  unfold fileCall at h
  split at h
  · cases h
  · next r hr =>
    cases h
    exact hf r hr

theorem sysMount_task {s t : System} {env : Env} {v : Option UInt32} {a b : UInt32}
    (h : s.sysMount env a b = .ok (v, t)) : t.task = s.task := by
  unfold sysMount at h
  split at h
  · cases h
    rfl
  split at h
  · cases h
    rfl
  split at h
  · cases h
    rfl
  split at h
  · cases h
  · cases h
    rfl

theorem sysUmount_task {s t : System} {v : Option UInt32} {a : UInt32}
    (h : s.sysUmount a = .ok (v, t)) : t.task = s.task := by
  unfold sysUmount at h
  split at h
  · cases h
    rfl
  split at h
  · cases h
    rfl
  split at h
  · cases h
    rfl
  · cases h
    rfl

theorem sysWrite_task {s t : System} {v : Option UInt32} {a : UInt32}
    (h : s.sysWrite a = .ok (v, t)) : t.task = s.task := by
  unfold sysWrite at h
  split at h
  · cases h
    rfl
  split at h
  · cases h
    rfl
  · simp only at h
    split at h <;> cases h <;> rfl

/-- Only `setuid` and `setgid` change them. -/
theorem syscallDispatcher_task {fuel : Nat} {env : Env} {s t : System} {regs : Regs}
    {v : Option UInt32} (h : s.syscallDispatcher fuel env regs = .ok (v, t)) :
    t.task = s.task ∨ t.task = (sysSetuid s.task regs.ebx).2 ∨
      t.task = (sysSetgid s.task regs.ebx).2 := by
  unfold syscallDispatcher at h
  split at h
  all_goals first
    | exact .inl (by cases h; rfl)
    | exact .inl (sysWrite_task h)
    | exact .inl (sysMount_task h)
    | exact .inl (sysUmount_task h)
    | exact .inl (fileCall_task h fun r hr => pathCall_task hr)
    | exact .inl (fileCall_task h fun r hr => sysWriteFile_task hr)
    | exact .inl (fileCall_task h fun r hr => readFileWith_task hr)
    | exact .inl (fileCall_task h fun r hr => sysList_task hr)
    | exact .inl (fileCall_task h fun r hr => sysGetmouse_task hr)
    | exact .inl (fileCall_task h fun r hr => sysStat_task hr)
    | exact .inl (fileCall_task h fun r hr => sysChown_task hr)
    | exact .inl (fileCall_task h fun r hr => by cases hr; exact sysReadSector_task _ _ _)
    | exact .inr (.inl (by cases h; rfl))
    | exact .inr (.inr (by cases h; rfl))

end System

end HaoSys.Syscall
