import HaoSys.Proc.Task

/-!
# The shell loader (`load_and_run_shell` in `kmain.c`)

The loader takes pages, makes the task, maps the pages in the task's directory
and, through a window at `load_virt`, fills them from SHELL.BIN; every exit
undoes by hand what it has done. `file` is what `fat_find_file` and
`fat_load_file` make of SHELL.BIN. The loops are over the lists of pages they
run through.
-/

namespace HaoSys.Proc

open HaoSys.Mm

/-- SHELL.BIN: the size in its directory entry and the bytes `fat_load_file` finds, which are no
more than that. -/
structure ShellFile where
  fileSize : UInt32
  content : List UInt8
  content_le : content.length ≤ fileSize.toNat

/-- `BSS_PAGES`. -/
def bssPages : UInt32 := 24

def filePages (fileSize : UInt32) : UInt32 := (fileSize + 4095) / 4096

def codePages (fileSize : UInt32) : UInt32 := filePages fileSize + bssPages

/-- The elements of `extra_phys`. -/
def extraSize : Nat := 80

def codeVirt : UInt32 := 0x10000000

def loadVirt : UInt32 := 0x20000000

def stackVirt (fileSize : UInt32) : UInt32 := codeVirt + codePages fileSize * 0x1000

/-- `virt + i * 4096` for `i` up to `n`. -/
def pagesFrom (virt : UInt32) (n : Nat) : List UInt32 :=
  (List.range n).map fun i => virt + UInt32.ofNat i * 4096

/-- Where the loader ends. -/
inductive ShellEnd where
  /-- Back in `kmain`. -/
  | returned (s : Sched)
  /-- In ring 3. -/
  | running (s : Sched)
  /-- In the `hlt` loop behind `Load failed!`. -/
  | halted (s : Sched)
  /-- A store behind `extra_phys`. -/
  | overrun
  /-- A store to an address that is not mapped. -/
  | pageFault

namespace Sched

def allocPage (s : Sched) : UInt32 × Sched :=
  let (p, pmm) := s.vmm.pmm.pmmAllocPage
  (p, { s with vmm := { s.vmm with pmm := pmm } })

def freePage (s : Sched) (a : UInt32) : Sched := { s with vmm := s.vmm.freePage a }

def freePages (s : Sched) (ps : List UInt32) : Sched := ps.foldl freePage s

def mapPage (s : Sched) (dir virt phys flags : UInt32) : Bool × Sched :=
  let (ok, vmm) := s.vmm.vmmMapPage dir virt phys flags
  (ok, { s with vmm := vmm })

def unmapPage (s : Sched) (dir virt : UInt32) : Sched :=
  { s with vmm := (s.vmm.vmmUnmapPage dir virt).2 }

/-! ## The loops -/

/-- Allocate `n` more extra pages: all of them, or those there were when an allocation failed. -/
def takeExtra : Nat → List UInt32 → Sched → Option (Bool × List UInt32 × Sched)
  | 0, extra, s => some (true, extra, s)
  | n + 1, extra, s =>
    if extra.length < extraSize then
      let (p, s) := s.allocPage
      if p = 0 then some (false, extra, s) else takeExtra n (extra ++ [p]) s
    else none

/-- Map the pages for the user, up to the first that fails. -/
def mapPages (dir : UInt32) : List (UInt32 × UInt32) → Sched → Bool × Sched
  | [], s => (true, s)
  | (virt, phys) :: rest, s =>
    match s.mapPage dir virt phys (pageWrite ||| pageUser) with
    | (false, s) => (false, s)
    | (true, s) => mapPages dir rest s

/-- Unmap those pages of the list that are mapped. -/
def unmapMapped (s : Sched) (dir : UInt32) (virts : List UInt32) : Sched :=
  virts.foldl (fun s v => if s.vmm.vmmGetPhysAddr dir v ≠ 0 then s.unmapPage dir v else s) s

/-- The window, in the current directory; the results are not looked at. -/
def mapWindow (ps : List (UInt32 × UInt32)) (s : Sched) : Sched :=
  ps.foldl (fun s p => (s.mapPage s.vmm.currentDirectory p.1 p.2 pageWrite).2) s

def unmapWindow (virts : List UInt32) (s : Sched) : Sched :=
  virts.foldl (fun s v => s.unmapPage s.vmm.currentDirectory v) s

/-- Store the bytes from `virt` on; `none` at the first that is not mapped. -/
def storeBytes : UInt32 → List UInt8 → Sched → Option Sched
  | _, [], s => some s
  | virt, b :: bs, s =>
    match s.vmm.translate s.vmm.currentDirectory virt with
    | none => none
    | some a => storeBytes (virt + 1) bs { s with vmm := s.vmm.setMem (store8 s.vmm.mem a b) }

/-- `memset` to 0, page by page. -/
def clearPages (virts : List UInt32) (s : Sched) : Option Sched :=
  virts.foldlM (fun s v => storeBytes v (List.replicate 4096 0) s) s

/-- Enter a page in `user_virt_pages`, if there is room. -/
def registerPage (task : UInt32) (s : Sched) (virt : UInt32) : Sched :=
  let count := s.get task .userVirtCount
  if h : count.toNat < 96 then
    (s.set task (.userVirtPage ⟨count.toNat, h⟩) virt).set task .userVirtCount (count + 1)
  else s

def registerPages (task : UInt32) (virts : List UInt32) (s : Sched) : Sched :=
  virts.foldl (registerPage task) s

/-! ## The loader -/

/-- From the user's stack on. -/
def loadStack (f : ShellFile) (task dir codePhys : UInt32) (s : Sched) : ShellEnd :=
  let flags := pageWrite ||| pageUser
  let stack := stackVirt f.fileSize
  let (stackPhys, s) := s.allocPage
  let (stackPhys2, s) := s.allocPage
  if stackPhys = 0 ∨ stackPhys2 = 0 then
    let s := if stackPhys ≠ 0 then s.freePage stackPhys else s
    let s := if stackPhys2 ≠ 0 then s.freePage stackPhys2 else s
    .returned ((s.unmapPage dir codeVirt).freePage codePhys)
  else
    match s.mapPage dir stack stackPhys flags with
    | (false, s) =>
      let s := (s.freePage stackPhys).freePage stackPhys2
      .returned ((s.unmapPage dir codeVirt).freePage codePhys)
    | (true, s) =>
      match s.mapPage dir (stack + 0x1000) stackPhys2 flags with
      | (false, s) =>
        let s := (s.freePage stackPhys).freePage stackPhys2
        .returned (((s.unmapPage dir stack).unmapPage dir codeVirt).freePage codePhys)
      | (true, s) =>
        let s := registerPages task (pagesFrom codeVirt (codePages f.fileSize).toNat)
          (s.set task .userVirtCount 0)
        let s := (s.registerPage task stack).registerPage task (stack + 0x1000)
        .running (s.launch task)

/-- From the window on; `pages` are the code pages. -/
def loadCode (f : ShellFile) (task dir codePhys : UInt32) (extra : List UInt32) (s : Sched) :
    ShellEnd :=
  let window := pagesFrom loadVirt (codePages f.fileSize).toNat
  let s := mapWindow (window.zip (codePhys :: extra)) s
  match s.storeBytes loadVirt f.content with
  | none => .pageFault
  | some s =>
    match s.clearPages (window.drop (filePages f.fileSize).toNat) with
    | none => .pageFault
    | some s =>
      let s := unmapWindow window s
      if f.content.length ≠ f.fileSize.toNat then .halted s
      else loadStack f task dir codePhys s

/-- From the task on. -/
def loadTask (f : ShellFile) (task codePhys : UInt32) (s : Sched) : ShellEnd :=
  let dir := s.get task .pageDirectory
  let code := pagesFrom codeVirt (codePages f.fileSize).toNat
  if dir = 0 then .returned (s.freePage codePhys)
  else
    match s.mapPage dir codeVirt codePhys (pageWrite ||| pageUser) with
    | (false, s) => .returned (s.freePage codePhys)
    | (true, s) =>
      match takeExtra (codePages f.fileSize - 1).toNat [] s with
      | none => .overrun
      | some (false, extra, s) =>
        .returned (((s.freePages extra).unmapPage dir codeVirt).freePage codePhys)
      | some (true, extra, s) =>
        match mapPages dir (code.tail.zip extra) s with
        | (false, s) => .returned (((s.unmapMapped dir code).freePages extra).freePage codePhys)
        | (true, s) => loadCode f task dir codePhys extra s

/-- `load_and_run_shell`. -/
def loadAndRunShell (file : Option ShellFile) (s : Sched) : ShellEnd :=
  match file with
  | none => .returned s
  | some f =>
    if filePages f.fileSize > 64 then .returned s
    else
      let (codePhys, s) := s.allocPage
      if codePhys = 0 then .returned s
      else
        let (task, s) := s.taskCreateUser codeVirt (stackVirt f.fileSize)
        if task = 0 then .returned (s.freePage codePhys) else loadTask f task codePhys s

end Sched

end HaoSys.Proc
