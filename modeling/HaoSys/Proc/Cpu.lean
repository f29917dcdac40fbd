import HaoSys.Proc.Run

/-!
# The registers (`syscall/isr_asm.asm`, `proc/switch.asm`, `driver/pit.c`)

A `Machine` is the scheduler with the registers of the CPU. An interrupt or
`int 0x80` pushes a frame, the stub pushes the registers below it and saves ESP
in the current task; the way back pops both. `schedule` goes to another task
by `switch_to_user`, which pops such frames, or by `switch_to`, which pops what
it pushed itself.

The kernel's code has no addresses here, and the data segments are left out. The
C functions between a stub and `schedule` leave what they like below the stub's
frame; that memory is an argument.
-/

namespace HaoSys.Proc

open HaoSys.Mm

/-- The registers of `pusha`, but for ESP. -/
structure Gprs where
  eax : UInt32
  ecx : UInt32
  edx : UInt32
  ebx : UInt32
  ebp : UInt32
  esi : UInt32
  edi : UInt32

structure Cpu where
  gprs : Gprs
  eip : UInt32
  cs : UInt32
  eflags : UInt32
  esp : UInt32
  ss : UInt32

namespace Cpu

def ring3 (c : Cpu) : Bool := c.cs &&& 3 = 3

/-- IF. -/
def interruptible (c : Cpu) : Bool := c.eflags &&& 0x200 ≠ 0

def cli (c : Cpu) : Cpu := { c with eflags := c.eflags &&& 0xFFFFFDFF }

/-- What the CPU pushes for an interrupt: SS and ESP only if it leaves ring 3. -/
def frame (c : Cpu) : List UInt32 :=
  if c.ring3 then [c.ss, c.esp, c.eflags, c.cs, c.eip] else [c.eflags, c.cs, c.eip]

end Cpu

/-! ## Frames -/

/-- `push` for each of the words: the stack pointer and the memory. -/
def pushWords : List UInt32 → UInt32 × Mem → UInt32 × Mem
  | [], r => r
  | x :: xs, (sp, m) => pushWords xs (sp - 4, store32 m (sp - 4) x)

/-- The words of `pusha`, with ESP before it. -/
def Gprs.words (g : Gprs) (esp : UInt32) : List UInt32 :=
  [g.eax, g.ecx, g.edx, g.ebx, esp, g.ebp, g.esi, g.edi]

/-- The pops in the order of `popa`; the word of ESP is skipped. -/
def popGprs (m : Mem) (sp : UInt32) : Gprs where
  edi := entryAt m sp 0
  esi := entryAt m sp 1
  ebp := entryAt m sp 2
  ebx := entryAt m sp 4
  edx := entryAt m sp 5
  ecx := entryAt m sp 6
  eax := entryAt m sp 7

/-- The pops and the `iret` of a stub or of `switch_to_user`. -/
def popFrame (m : Mem) (sp : UInt32) : Cpu :=
  let cs := entryAt m sp 9
  { gprs := popGprs m sp
    eip := entryAt m sp 8
    cs := cs
    eflags := entryAt m sp 10
    esp := if cs &&& 3 = 3 then entryAt m sp 11 else sp + 44
    ss := if cs &&& 3 = 3 then entryAt m sp 12 else 0x10 }

/-- `popa`, `pop ebp` and `ret` at the end of `switch_to`; the flags stay. -/
def popSwitch (flags : UInt32) (m : Mem) (sp : UInt32) : Cpu where
  gprs := { popGprs m sp with ebp := entryAt m sp 8 }
  eip := entryAt m sp 9
  cs := 0x08
  eflags := flags
  esp := sp + 40
  ss := 0x10

/-- What a call of `switch_to` or `switch_to_user` pushes: the return address, EBP and the
registers. `c` is the CPU behind the call. -/
def pushSwitch (c : Cpu) (m : Mem) : UInt32 × Mem :=
  let (sp, m) := pushWords [c.eip, c.gprs.ebp] (c.esp, m)
  pushWords ({ c.gprs with ebp := sp }.words sp) (sp, m)

namespace Sched

/-- The CPU behind the switch to the current task. -/
def resume (s : Sched) (flags : UInt32) : Cpu :=
  let sp := s.get s.currentTask .esp
  if s.isUserTask s.currentTask then popFrame s.vmm.mem sp else popSwitch flags s.vmm.mem sp

def timeSliceTicks : UInt32 := 3

/-- `pit_tick_handler`: whether it calls `schedule`. -/
def pitTickHandler (s : Sched) : Bool × Sched :=
  let t := s.currentTask
  if t ≠ 0 ∧ s.isUserTask t then
    let s := s.set t .ticksUsed (s.get t .ticksUsed + 1)
    if s.get t .ticksUsed ≥ timeSliceTicks then (true, s.set t .ticksUsed 0) else (false, s)
  else (false, s)

end Sched

/-! ## The machine -/

structure Machine where
  sched : Sched
  cpu : Cpu

namespace Machine

def mem (s : Machine) : Mem := s.sched.vmm.mem

def setMem (m : Mem) (s : Machine) : Machine :=
  { s with sched := { s.sched with vmm := s.sched.vmm.setMem m } }

/-- An interrupt or `int 0x80`, up to the stub's call of its handler. -/
def enterKernel (s : Machine) : Machine :=
  let top := if s.cpu.ring3 then s.sched.esp0 else s.cpu.esp
  let (sp, m) := pushWords s.cpu.frame (top, s.mem)
  let (sp, m) := pushWords (s.cpu.gprs.words sp) (sp, m)
  let s' := s.setMem m
  { sched := if s'.sched.currentTask = 0 then s'.sched
      else s'.sched.set s'.sched.currentTask .esp sp
    cpu := { s.cpu.cli with cs := 0x08, esp := sp, ss := 0x10 } }

/-- The end of a stub. -/
def leaveKernel (s : Machine) : Machine := { s with cpu := popFrame s.mem s.cpu.esp }

/-- `regs->eax = v`. -/
def setReturn (v : UInt32) (s : Machine) : Machine :=
  s.setMem (storeEntry s.mem s.cpu.esp 7 v)

/-- `schedule` called by a handler or a system call, whose task is a user task: it comes back, or
the next task goes on. The tasks that were freed are returned. -/
def reschedule (fuel : Nat) (back : Machine → Machine) (s : Machine) :
    Option (List UInt32 × Machine) :=
  (s.sched.schedule fuel s.cpu.esp).map fun r =>
    (r.reaped.map Prod.fst,
      if r.switched then ⟨r.state, r.state.resume s.cpu.eflags⟩
      else back { s with sched := r.state })

/-- An interrupt whose handler does not call `schedule`, which leaves the memory as `m`. -/
def irq (m : Mem) (s : Machine) : Machine := (s.enterKernel.setMem m).leaveKernel

/-- IRQ0 up to the call of `schedule`, if there is one. -/
def tick (m : Mem) (s : Machine) : Bool × Machine :=
  let s := s.enterKernel.setMem m
  let (slice, sched) := s.sched.pitTickHandler
  (slice, { s with sched })

def irq0 (fuel : Nat) (m : Mem) (s : Machine) : Option (List UInt32 × Machine) :=
  match s.tick m with
  | (false, s) => some ([], s.leaveKernel)
  | (true, s) => s.reschedule fuel leaveKernel

/-- `SYS_YIELD`: only if `schedule` comes back, its result is written. -/
def sysYield (fuel : Nat) (m : Mem) (s : Machine) : Option (List UInt32 × Machine) :=
  (s.enterKernel.setMem m).reschedule fuel fun s => (s.setReturn 0).leaveKernel

/-- A kernel task calls `schedule`; the CPU is as behind the call of `switch_to` in it. -/
def yield (fuel : Nat) (s : Machine) : Option (List UInt32 × Machine) :=
  (s.sched.schedule fuel (s.cpu.esp - 40)).map fun r =>
    (r.reaped.map Prod.fst,
      if r.switched then
        let m := (pushSwitch s.cpu r.state.vmm.mem).2
        let sched := { r.state with vmm := r.state.vmm.setMem m }
        ⟨sched, sched.resume s.cpu.cli.eflags⟩
      else { s with sched := r.state })

/-- `task_exit`. -/
def exit (fuel : Nat) (s : Machine) : Option (List UInt32 × Machine) :=
  (s.sched.markTerminated.schedule fuel s.cpu.esp).map fun r =>
    (r.reaped.map Prod.fst, ⟨r.state, r.state.resume s.cpu.cli.eflags⟩)

/-- The end of `load_and_run_shell`: the shell runs at `entry` with its stack at `stack`. -/
def launch (task entry stack : UInt32) (s : Machine) : Machine where
  sched := s.sched.launch task
  cpu :=
    { gprs := { s.cpu.gprs with eax := entry, edx := stack }
      eip := entry
      cs := 0x1B
      eflags := 0x200
      esp := stack
      ss := 0x23 }

end Machine

end HaoSys.Proc
