import HaoSys.Proc.Fresh
import HaoSys.Proc.Stopped

/-!
# Steps of the machine

The steps of `Reachable` with the registers: a program or kernel code of the current
task runs, an interrupt or a system call enters the kernel and returns, or `schedule`
goes on with another task. Only the task itself and the loader write its pages, and
kernel code that works for a program leaves the program's frame but for EAX.

The boot code runs as the idle task, on the boot stack, which is no page of a task; so
does the loader. Its interrupts are off, and so they are when the idle task is
switched to, which halts.
-/

namespace HaoSys.Proc

open HaoSys.Lib HaoSys.Mm

inductive Event where
  | program
  | work
  | trap
  | sysret
  | sysYield
  | exit
  | boot
  | load (task : UInt32)
  | launch (task : UInt32)
  | irq
  | tick
  | yield
  | create
  | createUser
  | map
  | unmap

/-- The task itself is at work, or the loader for it. A task that yields or is interrupted is not. -/
def Event.by (e : Event) (currentTask t : UInt32) : Prop :=
  match e with
  | program | work | trap | sysret | sysYield | exit | boot => t = currentTask
  | load task | launch task => t = task
  | irq | tick | yield | create | createUser | map | unmap => False

/-- The task is at work, or is launched. That the loader fills its pages is left out. -/
def Event.starts (e : Event) (currentTask t : UInt32) : Prop :=
  e.by currentTask t ∧ ∀ task, e ≠ .load task

/-- Kernel code of the task leaves the registers as `c` and the memory as `m'`. -/
structure Works (o : Owned) (c : Cpu) (m m' : Mem) : Prop where
  page : ∃ p ∈ o.stack :: o.maps.map Prod.snd, ∀ a, addrToIndex a ≠ addrToIndex p → m' a = m a
  inKernel : ∃ i, c.InKernel o.stack i ∧ i ≤ if o.dir.isSome then 1011 else 1024
  frame : o.dir.isSome = true → ∀ j, 1011 ≤ j → j < 1024 → j ≠ 1018 →
    stackWord m' o.stack j = stackWord m o.stack j

/-- A stub stops the current task, with room for its frame, and its handler leaves `m`. -/
structure Stops (s : Machine) (L : List Owned) (o : Owned) (m : Mem) : Prop where
  mem : o ∈ L
  pcb : o.pcb = s.sched.currentTask
  room : s.cpu.ring3 = false → slot o.stack 11 ≤ s.cpu.esp
  below : Below o.stack s.enterKernel.cpu.esp s.enterKernel.mem m

/-- The ledger without the tasks that were freed. -/
def without (L : List Owned) (freed : List UInt32) : List Owned := L.filter fun o => o.pcb ∉ freed

inductive Step : Machine × List Owned → Event → Machine × List Owned → Prop where
  | program {s : Machine} {L : List Owned} {o : Owned} {p : UInt32} {c : Cpu} {m : Mem} :
    o ∈ L → o.pcb = s.sched.currentTask → p ∈ o.maps.map Prod.snd → s.cpu.ring3 = true →
    c.ring3 = true → (∀ a, addrToIndex a ≠ addrToIndex p → m a = s.mem a) →
    Step (s, L) .program ({ s.setMem m with cpu := c }, L)
  | work {s : Machine} {L : List Owned} {o : Owned} {c : Cpu} {m : Mem} :
    o ∈ L → o.pcb = s.sched.currentTask → o.pcb ≠ s.sched.idleTask → s.cpu.ring3 = false →
    Works o c s.mem m → Step (s, L) .work ({ s.setMem m with cpu := c }, L)
  | boot {s : Machine} {L : List Owned} {c : Cpu} : s.sched.currentTask = s.sched.idleTask →
    c.ring3 = false → c.interruptible = false → Step (s, L) .boot ({ s with cpu := c }, L)
  /-- The loader fills a page. -/
  | fill {s : Machine} {L : List Owned} {o : Owned} {p : UInt32} {m : Mem} :
    s.sched.currentTask = s.sched.idleTask → o ∈ L → p ∈ o.maps.map Prod.snd →
    (∀ a, addrToIndex a ≠ addrToIndex p → m a = s.mem a) →
    Step (s, L) (.load o.pcb) (s.setMem m, L)
  | load {s : Machine} {L : List Owned} {task virt : UInt32} : s.cpu.ring3 = false →
    s.sched.OnList task → s.sched.isUserTask task = true → virt.toNat % 4096 = 0 →
    Loadable s.sched.vmm virt →
    Step (s, L) (.load task)
      ({ s with sched := s.sched.loadPage task virt }, recordPage L s.sched task virt)
  | launch {s : Machine} {L : List Owned} {task : UInt32} (entry stack : UInt32) :
    s.sched.currentTask = s.sched.idleTask → s.sched.OnList task →
    s.sched.isUserTask task = true → Step (s, L) (.launch task) (s.launch task entry stack, L)
  | create {s : Machine} {L : List Owned} (entry : UInt32) : s.cpu.ring3 = false →
    Step (s, L) .create
      ({ s with sched := (s.sched.taskCreate entry).2 }, record L (s.sched.taskCreate entry))
  | createUser {s : Machine} {L : List Owned} (entry stack : UInt32) : s.cpu.ring3 = false →
    Step (s, L) .createUser
      ({ s with sched := (s.sched.taskCreateUser entry stack).2 },
        record L (s.sched.taskCreateUser entry stack))
  | map {s : Machine} {L : List Owned} {virt : UInt32} (phys : UInt32) : s.cpu.ring3 = false →
    pdIndex virt = loadSlot → s.sched.vmm.currentDirectory = s.sched.vmm.kernelPageDirectory →
    Step (s, L) .map
      ({ s with sched := { s.sched with vmm :=
        (s.sched.vmm.vmmMapPage s.sched.vmm.currentDirectory virt phys pageWrite).2 } }, L)
  | unmap {s : Machine} {L : List Owned} {virt : UInt32} : s.cpu.ring3 = false →
    pdIndex virt = loadSlot → s.sched.vmm.currentDirectory = s.sched.vmm.kernelPageDirectory →
    Step (s, L) .unmap
      ({ s with sched := { s.sched with vmm :=
        (s.sched.vmm.vmmUnmapPage s.sched.vmm.currentDirectory virt).2 } }, L)
  | trap {s : Machine} {L : List Owned} : s.cpu.ring3 = true → Step (s, L) .trap (s.enterKernel, L)
  | sysret {s : Machine} {L : List Owned} {o : Owned} : o ∈ L → o.pcb = s.sched.currentTask →
    o.dir.isSome = true → s.cpu.ring3 = false → s.cpu.esp = slot o.stack 1011 →
    Step (s, L) .sysret (s.leaveKernel, L)
  | irq {s : Machine} {L : List Owned} {o : Owned} {m : Mem} : s.cpu.interruptible = true →
    Stops s L o m → Step (s, L) .irq (s.irq m, L)
  | tick {s s' : Machine} {L : List Owned} {o : Owned} {m : Mem} {fuel : Nat}
    {freed : List UInt32} : s.cpu.interruptible = true → Stops s L o m →
    ((s.tick m).1 = true → (s.tick m).2.sched.ReapsOwn) → s.irq0 fuel m = some (freed, s') →
    Step (s, L) .tick (s', without L freed)
  | sysYield {s s' : Machine} {L : List Owned} {o : Owned} {m : Mem} {fuel : Nat}
    {freed : List UInt32} : s.cpu.ring3 = true → Stops s L o m →
    (s.enterKernel.setMem m).sched.ReapsOwn → s.sysYield fuel m = some (freed, s') →
    Step (s, L) .sysYield (s', without L freed)
  | yield {s s' : Machine} {L : List Owned} {o : Owned} {fuel : Nat} {freed : List UInt32} :
    o ∈ L → o.pcb = s.sched.currentTask → o.pcb ≠ s.sched.idleTask → o.dir = none →
    slot o.stack 10 ≤ s.cpu.esp → s.sched.ReapsOwn → s.yield fuel = some (freed, s') →
    Step (s, L) .yield (s', without L freed)
  /-- This branch of `schedule` does not set `tss.esp0`: a user task only follows if it is its own. -/
  | exit {s s' : Machine} {L : List Owned} {fuel : Nat} {freed : List UInt32} :
    s.sched.currentTask ≠ s.sched.idleTask → s.cpu.ring3 = false →
    s.exit fuel = some (freed, s') →
    (s'.sched.isUserTask s'.sched.currentTask = true →
      s'.sched.esp0 = s'.sched.get s'.sched.currentTask .kernelEsp0) →
    Step (s, L) .exit (s', without L freed)

inductive Boot (endAddr k : UInt32) : Machine × List Owned → Prop where
  | init {fuel : Nat} {magic infoAddr idleLoop : UInt32} {m : Mem} {pmm : Pmm} {c : Cpu} :
    Pmm.pmmInit fuel endAddr magic infoAddr m = some pmm →
    ((bootSched pmm k).taskCreate idleLoop).1 ≠ 0 → c.ring3 = false → c.interruptible = false →
    Boot endAddr k (⟨(bootSched pmm k).taskInit idleLoop, c⟩,
      record [] ((bootSched pmm k).taskCreate idleLoop))

/-- The invariant of the machine: every task of the list but the current one is parked. -/
structure Live (s : Machine) (L : List Owned) : Prop where
  inv : ∃ ts zs xs, SchedInv s.sched L ts zs xs
  settled : Settled s.sched L
  running : s.sched.get s.sched.currentTask .state = TaskState.running.code
  runs : ∀ o ∈ L, o.pcb = s.sched.currentTask → Runs s o
  parked : ∀ o ∈ L, s.sched.OnList o.pcb → o.pcb ≠ s.sched.currentTask → Parked s.sched o

/-- What every step does: it keeps the invariant, and the tasks that are not at work. -/
structure Next (e : Event) (s : Machine) (L : List Owned) (s' : Machine) (L' : List Owned) : Prop where
  live : Live s' L'
  idle : s'.sched.idleTask = s.sched.idleTask
  kept : ∀ o ∈ L, s.sched.OnList o.pcb →
    (o.pcb = s.sched.currentTask → o.pcb ≠ s.sched.idleTask) → ¬ e.by s.sched.currentTask o.pcb →
    o ∈ L' ∧ s'.sched.OnList o.pcb ∧ Kept s s' o

section

variable {s s' s₁ : Machine} {x x' : Sched} {L L' : List Owned} {ts zs xs ys : List UInt32}
  {o o' : Owned} {m : Mem} {c : Cpu} {fuel top b : Nat} {freed : List UInt32} {e : Event}
  {p task virt entry stack : UInt32} {r : Sched.Scheduled}

/-- A stub that a program has entered stops its task. -/
theorem stops_enterKernel (ho : o ∈ L) (hpcb : o.pcb = s.sched.currentTask)
    (h3 : s.cpu.ring3 = true) : Stops s L o s.enterKernel.mem := by
  refine ⟨ho, hpcb, fun h0 => ?_, fun _ _ => rfl, fun _ _ _ => rfl⟩
  rw [h3] at h0
  cases h0

/-! ## Steps that leave the registers and the pages -/

theorem Parked.alike (h : Parked x o) (hpcb : o'.pcb = o.pcb) (hstack : o'.stack = o.stack)
    (hdir : o'.dir = o.dir) : Parked x o' := by
  obtain ⟨huser, hkernel⟩ := h
  refine ⟨?_, ?_⟩
  · rw [hpcb, hstack, hdir]
    exact huser
  · rw [hpcb, hstack, hdir]
    exact hkernel

theorem Runs.congr (h : Runs s o) (hidle : s'.sched.idleTask = s.sched.idleTask)
    (hesp0 : s'.sched.esp0 = s.sched.esp0) (hcpu : s'.cpu = s.cpu)
    (hu : Untouched o s.mem s'.mem) (hpcb : o'.pcb = o.pcb) (hstack : o'.stack = o.stack)
    (hdir : o'.dir = o.dir) : Runs s' o' := by
  cases h with
  | idle hi h3 hif hk =>
    refine .idle (by rw [hpcb, hidle, hi]) (hcpu ▸ h3) (hcpu ▸ hif) ?_
    have hk' : Parked s'.sched o := hk.congr hu
    exact hk'.alike hpcb hstack hdir
  | program hd h3 he =>
    exact .program (hdir ▸ hd) (hcpu ▸ h3) (by rw [hesp0, hstack, he])
  | syscall hd he hin hi htrap =>
    refine .syscall (hdir ▸ hd) (by rw [hesp0, hstack, he]) (by rw [hcpu, hstack]; exact hin) hi ?_
    unfold Trapped at htrap ⊢
    rw [hstack, hu.stackWord (by omega)]
    exact htrap
  | task hd hi hin hle =>
    exact .task (hdir ▸ hd) (by rw [hpcb, hidle]; exact hi) (by rw [hcpu, hstack]; exact hin) hle

/-- A task whose pages and registers stay. -/
theorem Live.kept (h : Live s L) (ho : o ∈ L) (hl : s.sched.OnList o.pcb)
    (hcur : s'.sched.currentTask = s.sched.currentTask)
    (hcpu : o.pcb = s.sched.currentTask → s'.cpu = s.cpu)
    (hp' : Placed s'.sched o) (hu : Untouched o s.mem s'.mem) : Kept s s' o := by
  obtain ⟨ts, zs, xs, hinv⟩ := h.inv
  have hp := hinv.placed h.settled ho
  by_cases hpcb : o.pcb = s.sched.currentTask
  · exact .of_current hcur hpcb (hcpu hpcb) hp hp' (fun _ j hj _ => hu.stackWord hj)
      fun p hm => hu.page p (List.mem_cons_of_mem _ hm)
  · have hk := h.parked o ho hl hpcb
    exact ((Stores.of_parked hpcb).untouched hk hp hp' hu).kept (hcur ▸ hpcb)

/-- What a call that leaves the registers and the tasks there were makes of the scheduler. -/
structure Quiets (s : Machine) (L : List Owned) (x : Sched) (L' : List Owned) : Prop where
  current : x.currentTask = s.sched.currentTask
  idle : x.idleTask = s.sched.idleTask
  esp0 : x.esp0 = s.sched.esp0
  inv : ∃ ts zs xs, SchedInv x L' ts zs xs
  settled : Settled x L'
  state : x.get s.sched.currentTask .state = s.sched.get s.sched.currentTask .state
  list : ∀ t, s.sched.OnList t → x.OnList t
  old : ∀ o ∈ L, Untouched o s.mem x.vmm.mem
  new : ∀ o' ∈ L', x.OnList o'.pcb → (∃ o ∈ L, o'.pcb = o.pcb ∧ o'.stack = o.stack ∧
    o'.dir = o.dir ∧ s.sched.OnList o.pcb) ∨ o'.pcb ≠ s.sched.currentTask ∧ Parked x o'

theorem Live.quiets (h : Live s L) (hq : Quiets s L x L') : Live { s with sched := x } L' := by
  refine ⟨hq.inv, hq.settled, ?_, fun o' ho' hpcb => ?_, fun o' ho' hl hne => ?_⟩
  · change x.get x.currentTask .state = _
    rw [hq.current, hq.state, h.running]
  · obtain ⟨ts, zs, xs, hinv⟩ := hq.inv
    have hl : x.OnList o'.pcb := hinv.onList_iff.2 (hpcb ▸ hinv.tasks.current)
    have hpcb' : o'.pcb = s.sched.currentTask := hpcb.trans hq.current
    rcases hq.new o' ho' hl with ⟨o, ho, hp, hs, hd, -⟩ | ⟨hne, -⟩
    · exact (h.runs o ho (hp.symm.trans hpcb')).congr hq.idle hq.esp0 rfl (hq.old o ho) hp hs hd
    · exact absurd hpcb' hne
  · have hne' : o'.pcb ≠ s.sched.currentTask := fun e => hne (e.trans hq.current.symm)
    rcases hq.new o' ho' hl with ⟨o, ho, hp, hs, hd, hl'⟩ | ⟨-, hk⟩
    · exact ((h.parked o ho hl' (hp ▸ hne')).congr (hq.old o ho)).alike hp hs hd
    · exact hk

theorem Live.quiets_kept (h : Live s L) (hq : Quiets s L x L') (ho : o ∈ L) (ho' : o ∈ L')
    (hl : s.sched.OnList o.pcb) : Kept s { s with sched := x } o := by
  obtain ⟨ts, zs, xs, hinv⟩ := hq.inv
  exact h.kept ho hl hq.current (fun _ => rfl) (hinv.placed hq.settled ho') (hq.old o ho)

end

end HaoSys.Proc
