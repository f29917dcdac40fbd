import HaoSys.Mm.Vmm

/-!
# Tasks and the scheduler (`proc/task.c`)

A task is a page from the physical memory manager that holds its `task_t`;
`get` and `set` are the accesses to its words. The state is the memory with
its two managers and the `static` variables of `task.c`: the two lists, which
share the `next` word, the current task and `tss.esp0`. `NULL` is 0.

`free_task` and what calls it return the addresses they pass to
`pmm_free_page`, task by task. The walks along a list take fuel, `none` is a
walk that has not ended; a switch of stacks is the end of `schedule` here, and
`sp` is the stack pointer that `switch_to` saves. The name of a task, which is
only printed, and its credentials are left out.
-/

namespace HaoSys.Proc

open HaoSys.Mm

/-- `task_state_t`. -/
inductive TaskState where
  | running
  | ready
  | blocked
  | terminated
  deriving DecidableEq, Repr

namespace TaskState

def code : TaskState → UInt32
  | running => 0
  | ready => 1
  | blocked => 2
  | terminated => 3

end TaskState

/-- The words of `task_t`; `is_user` is taken with its padding, which stays 0. -/
inductive Field where
  | esp
  | eip
  | pid
  | state
  | ticksUsed
  | kernelEsp0
  | isUser
  | pageDirectory
  | userVirtPage (i : Fin 96)
  | userVirtCount
  | next
  deriving DecidableEq

/-- A field's offset in words. -/
def Field.index : Field → UInt32
  | esp => 0
  | eip => 1
  | pid => 2
  | state => 3
  | ticksUsed => 4
  | kernelEsp0 => 5
  | isUser => 10
  | pageDirectory => 11
  | userVirtPage i => UInt32.ofNat (12 + i.val)
  | userVirtCount => 108
  | next => 109

structure Sched where
  vmm : Vmm
  taskList : UInt32
  currentTask : UInt32
  idleTask : UInt32
  zombieList : UInt32
  nextPid : UInt32
  esp0 : UInt32

def maxTasks : Nat := 32

namespace Sched

def get (s : Sched) (t : UInt32) (f : Field) : UInt32 := entryAt s.vmm.mem t f.index

def set (s : Sched) (t : UInt32) (f : Field) (x : UInt32) : Sched :=
  { s with vmm := s.vmm.setMem (storeEntry s.vmm.mem t f.index x) }

def hasState (s : Sched) (t : UInt32) (st : TaskState) : Bool := s.get t .state = st.code

def isUserTask (s : Sched) (t : UInt32) : Bool := s.get t .isUser ≠ 0

/-- `t->next`, or the head of the list behind the last task. -/
def nextOf (s : Sched) (t : UInt32) : UInt32 :=
  if s.get t .next = 0 then s.taskList else s.get t .next

/-! ## Creating tasks -/

/-- `*--frame = w` for each of the words, down from word `i` of a stack page. -/
def layWords (stack : UInt32) : UInt32 → List UInt32 → Mem → Mem
  | _, [], m => m
  | i, w :: ws, m => layWords stack (i - 1) ws (storeEntry m stack i w)

/-- The frame `switch_to` pops from a new kernel task: registers, EBP, entry. -/
def kernelFrame (entry : UInt32) : List UInt32 := entry :: List.replicate 9 0

/-- The frame `switch_to_user` pops from a new user task: registers below SS, ESP, EFLAGS, CS and
EIP. -/
def userFrame (entry stack : UInt32) : List UInt32 :=
  [0x23, stack + 4096, 0x200, 0x1B, entry] ++ List.replicate 8 0

/-- The fields both ways of creating a task fill in, with the task put in front of the list. -/
def fillTask (s : Sched) (task esp eip kernelEsp0 isUser pageDirectory : UInt32) : Sched :=
  let s := (s.set task .esp esp).set task .eip eip
  let s := { s.set task .pid s.nextPid with nextPid := s.nextPid + 1 }
  let s := (s.set task .state TaskState.ready.code).set task .kernelEsp0 kernelEsp0
  let s := (s.set task .isUser isUser).set task .pageDirectory pageDirectory
  { s.set task .next s.taskList with taskList := task }

/-- `task_create`: the task, or `NULL`. -/
def taskCreate (s : Sched) (entry : UInt32) : UInt32 × Sched :=
  if entry = 0 then (0, s)
  else
    let (task, vmm) := s.vmm.allocatePt
    if task = 0 then (0, { s with vmm := vmm })
    else
      let (stack, pmm) := vmm.pmm.pmmAllocPage
      let vmm := { vmm with pmm := pmm }
      if stack = 0 then (0, { s with vmm := vmm.freePage task })
      else
        let frame := kernelFrame entry
        let vmm := vmm.setMem (layWords stack 1023 frame vmm.mem)
        (task, fillTask { s with vmm := vmm } task (stack + 4096 - 4 * UInt32.ofNat frame.length)
          entry (stack + 4096) 0 vmm.currentDirectory)

/-- `task_create_user`. -/
def taskCreateUser (s : Sched) (entry stack : UInt32) : UInt32 × Sched :=
  if entry = 0 ∨ stack = 0 then (0, s)
  else
    let (task, vmm) := s.vmm.allocatePt
    if task = 0 then (0, { s with vmm := vmm })
    else
      let (kstack, pmm) := vmm.pmm.pmmAllocPage
      let vmm := { vmm with pmm := pmm }
      if kstack = 0 then (0, { s with vmm := vmm.freePage task })
      else
        let (dir, vmm) := vmm.vmmCreateDirectory
        if dir = 0 then (0, { s with vmm := (vmm.freePage kstack).freePage task })
        else
          let frame := userFrame entry stack
          let vmm := vmm.setMem (layWords kstack 1023 frame vmm.mem)
          (task, fillTask { s with vmm := vmm } task
            (kstack + 4096 - 4 * UInt32.ofNat frame.length) entry (kstack + 4096) 1 dir)

/-- `task_init`, after the GDT and the TSS; `idle_loop` is the entry of the idle task. -/
def taskInit (s : Sched) (idleLoop : UInt32) : Sched :=
  let s := { s with esp0 := 0 }
  let (idle, s) := s.taskCreate idleLoop
  if idle = 0 then s
  else
    let s := s.set idle .state TaskState.running.code
    let s := (s.set idle .kernelEsp0 0).set idle .next 0
    { s with taskList := idle, currentTask := idle, idleTask := idle }

/-- One page of `load_and_run_shell`: a page is taken, mapped for the user in the task's directory
and entered in `user_virt_pages` if there is room. The source does this in three loops. -/
def loadPage (s : Sched) (task virt : UInt32) : Sched :=
  let (phys, pmm) := s.vmm.pmm.pmmAllocPage
  let vmm := { s.vmm with pmm := pmm }
  if phys = 0 then { s with vmm := vmm }
  else
    match vmm.vmmMapPage (entryAt vmm.mem task Field.pageDirectory.index) virt phys
      (pageWrite ||| pageUser) with
    | (false, vmm) => { s with vmm := vmm.freePage phys }
    | (true, vmm) =>
      let s := { s with vmm := vmm }
      let count := s.get task .userVirtCount
      if h : count.toNat < 96 then
        (s.set task (.userVirtPage ⟨count.toNat, h⟩) virt).set task .userVirtCount (count + 1)
      else s

/-- The end of `load_and_run_shell`: the shell becomes current, and the idle task stays running. -/
def launch (s : Sched) (task : UInt32) : Sched :=
  let s := { s.set task .state TaskState.running.code with currentTask := task }
  let s := { s with esp0 := s.get task .kernelEsp0 }
  { s with vmm := s.vmm.vmmSwitchDirectory (s.get task .pageDirectory) }

/-! ## Freeing tasks -/

/-- The loop of `free_task` over `user_virt_pages`, from entry `i` on. -/
def freeUserPages (task dir : UInt32) : Nat → Nat → Vmm → List UInt32 × Vmm
  | 0, _, v => ([], v)
  | n + 1, i, v =>
    if h : i < (entryAt v.mem task Field.userVirtCount.index).toNat ∧ i < 96 then
      let virt := entryAt v.mem task (Field.userVirtPage ⟨i, h.2⟩).index
      let phys := v.vmmGetPhysAddr dir virt
      if phys = 0 then freeUserPages task dir n (i + 1) v
      else
        let (_, v) := v.vmmUnmapPage dir virt
        let (freed, v) := freeUserPages task dir n (i + 1) (v.freePage phys)
        (phys :: freed, v)
    else ([], v)

/-- `free_task`. -/
def freeTask (s : Sched) (task : UInt32) : List UInt32 × Sched :=
  if task = 0 then ([], s)
  else
    let pd := s.get task .pageDirectory
    let dir := if pd ≠ 0 then pd else s.vmm.currentDirectory
    let (pages, vmm) := freeUserPages task dir 96 0 s.vmm
    let s := { s with vmm := vmm }
    let esp0 := s.get task .kernelEsp0
    let (stack, s) : List UInt32 × Sched := if esp0 ≠ 0 then
        ([esp0 - 4096], { s with vmm := s.vmm.freePage (esp0 - 4096) })
      else ([], s)
    let pd := s.get task .pageDirectory
    let (dirPages, s) : List UInt32 × Sched := if pd ≠ 0 ∧ pd ≠ s.vmm.currentDirectory then
        let (freed, vmm) := s.vmm.vmmDestroyDirectory pd
        (freed, { s with vmm := vmm })
      else ([], s)
    (pages ++ stack ++ dirPages ++ [task], { s with vmm := s.vmm.freePage task })

/-- `free_task_later`. -/
def freeTaskLater (s : Sched) (task : UInt32) : Sched :=
  { s.set task .next s.zombieList with zombieList := task }

/-- `reap_zombies`, with each task and what freeing it passed to `pmm_free_page`. -/
def reapZombies : Nat → Sched → Option (List (UInt32 × List UInt32) × Sched)
  | 0, s => if s.zombieList = 0 then some ([], s) else none
  | n + 1, s =>
    if s.zombieList = 0 then some ([], s)
    else
      let z := s.zombieList
      let (freed, s) := freeTask { s with zombieList := s.get z .next } z
      (reapZombies n s).map fun (log, s) => ((z, freed) :: log, s)

/-! ## Scheduling -/

/-- The walk to the current task: the task before it (0 for none), if it is on the list. -/
def findCurrent (s : Sched) : Nat → UInt32 → UInt32 → Option (UInt32 × UInt32)
  | 0, _, _ => none
  | n + 1, prev, t =>
    if t = 0 ∨ t = s.currentTask then some (prev, t)
    else s.findCurrent n t (s.get t .next)

/-- Take the current task off the list. -/
def unlinkCurrent (s : Sched) (fuel : Nat) : Option Sched :=
  (s.findCurrent fuel 0 s.taskList).map fun (prev, t) =>
    if t = s.currentTask then
      if prev ≠ 0 then s.set prev .next (s.get s.currentTask .next)
      else { s with taskList := s.get s.currentTask .next }
    else s

/-- The search of the terminated branch, `n` tries long. -/
def pickReady (s : Sched) : Nat → UInt32 → UInt32
  | 0, pick => pick
  | n + 1, pick => if s.hasState pick .ready then pick else s.pickReady n (s.nextOf pick)

/-- The search of the normal branch; `none` when it comes back to the current task or gives up. -/
def searchReady (s : Sched) : Nat → UInt32 → Option UInt32
  | 0, next => if s.hasState next .ready then some next else none
  | n + 1, next =>
    if s.hasState next .ready then some next
    else if s.nextOf next = s.currentTask then none
    else s.searchReady n (s.nextOf next)

/-- The task the normal branch switches to. -/
def findNext (s : Sched) : Option UInt32 :=
  if s.nextOf s.currentTask = s.currentTask then none
  else s.searchReady maxTasks (s.nextOf s.currentTask)

/-- CR3 for the task, if it has a directory and that is another one. -/
def switchDirectory (s : Sched) (t : UInt32) : Sched :=
  let pd := s.get t .pageDirectory
  if pd ≠ 0 ∧ pd ≠ s.vmm.currentDirectory then { s with vmm := s.vmm.vmmSwitchDirectory pd } else s

/-- What a call of `schedule` did: the tasks it freed, whether it switched, and the state. -/
structure Scheduled where
  reaped : List (UInt32 × List UInt32)
  switched : Bool
  state : Sched

/-- The terminated branch of `schedule`. It ends in the switch; without a task left it never
does. -/
def scheduleTerminated (s : Sched) (fuel : Nat) : Option Scheduled :=
  (s.unlinkCurrent fuel).bind fun s =>
    let nextTask := s.get s.currentTask .next
    let s := s.freeTaskLater s.currentTask
    let nextTask := if nextTask = 0 then s.taskList else nextTask
    if nextTask = 0 then none
    else
      let pick := s.pickReady maxTasks nextTask
      let nextTask := if s.hasState pick .ready then pick else nextTask
      let s := { s with currentTask := nextTask }
      let s := s.set s.currentTask .state TaskState.running.code
      some ⟨[], true, s.switchDirectory s.currentTask⟩

/-- The switch of the normal branch, behind `reap_zombies`. -/
def enter (s : Sched) (sp next : UInt32) : Sched :=
  let prev := s.currentTask
  let s := (s.set prev .state TaskState.ready.code).set next .state TaskState.running.code
  let s := if s.get next .kernelEsp0 ≠ 0 then { s with esp0 := s.get next .kernelEsp0 } else s
  let s := { s with currentTask := next }.switchDirectory next
  -- `switch_to` and `switch_to_user` save the stack pointer of a kernel task only
  if s.isUserTask prev then s else s.set prev .esp sp

/-- The normal branch once `next` is found. -/
def switchTo (s : Sched) (fuel : Nat) (sp next : UInt32) : Option Scheduled :=
  (reapZombies fuel s).map fun (reaped, s) => ⟨reaped, true, s.enter sp next⟩

/-- `schedule`. -/
def schedule (s : Sched) (fuel : Nat) (sp : UInt32) : Option Scheduled :=
  if s.currentTask = 0 then some ⟨[], false, s⟩
  else if s.hasState s.currentTask .terminated then s.scheduleTerminated fuel
  else match s.findNext with
    | none => some ⟨[], false, s⟩
    | some next => s.switchTo fuel sp next

/-- What `task_exit` does before it calls `schedule`. -/
def markTerminated (s : Sched) : Sched :=
  if s.currentTask = 0 then s else s.set s.currentTask .state TaskState.terminated.code

end Sched

end HaoSys.Proc
