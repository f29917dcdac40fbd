import HaoSys.Proc.Frames
import HaoSys.Proc.Untouched

/-!
# The context of a task

What a task goes on with: the registers of the CPU if it is current, else those
its kernel stack holds at its saved stack pointer (`Machine.context`). A user
task that does not run is `Parked` with the frame of its program at the top of
its kernel stack, and a frame of the kernel below if it was stopped there; a
kernel task with what `switch_to` pushed. `Stores` says that a state of the
scheduler holds the context a machine had.
-/

namespace HaoSys.Proc

open HaoSys.Lib HaoSys.Mm

/-- The CPU in the kernel, with its stack pointer at slot `i` of the stack `k`. -/
structure Cpu.InKernel (c : Cpu) (k : UInt32) (i : Nat) : Prop where
  cs : c.cs = 0x08
  ss : c.ss = 0x10
  esp : c.esp = slot k i

/-- What a task that is not current goes on with. -/
def Sched.parked (s : Sched) (t : UInt32) : Cpu :=
  let sp := s.get t .esp
  if s.isUserTask t then popFrame s.vmm.mem sp else popSwitch 0 s.vmm.mem sp

/-- The context of a task. The flags of a kernel task are left out: the code of `schedule` behind
`switch_to` sets them again, from the task's stack. -/
def Machine.context (s : Machine) (t : UInt32) : Cpu :=
  if t = s.sched.currentTask then
    if s.sched.isUserTask t then s.cpu else { s.cpu with eflags := 0 }
  else s.sched.parked t

/-- The frame at the top of the stack is one of a program. -/
def Trapped (m : Mem) (k : UInt32) : Prop := stackWord m k 1020 &&& 3 = 3

/-- A stack pointer that a stub saved: at the frame of the program, or at one of the kernel. -/
inductive Saved (m : Mem) (k sp : UInt32) : Prop where
  | program : sp = slot k 1011 → Saved m k sp
  | kernel {b : Nat} : sp = slot k b → b + 11 ≤ 1011 → stackWord m k (b + 9) = 0x08 → Saved m k sp

structure Parked (s : Sched) (o : Owned) : Prop where
  user : o.dir.isSome = true →
    Trapped s.vmm.mem o.stack ∧ Saved s.vmm.mem o.stack (s.get o.pcb .esp)
  kernel : o.dir = none → ∃ i, s.get o.pcb .esp = slot o.stack i ∧ i + 10 ≤ 1024

/-- The current task runs: the idle task with interrupts off, a program, a program's system call or
what interrupts it, a kernel task. -/
inductive Runs (s : Machine) (o : Owned) : Prop where
  | idle : o.pcb = s.sched.idleTask → s.cpu.ring3 = false → s.cpu.interruptible = false →
    Parked s.sched o → Runs s o
  | program : o.dir.isSome = true → s.cpu.ring3 = true → s.sched.esp0 = slot o.stack 1024 → Runs s o
  | syscall {i : Nat} : o.dir.isSome = true → s.sched.esp0 = slot o.stack 1024 →
    s.cpu.InKernel o.stack i → i ≤ 1011 → Trapped s.mem o.stack → Runs s o
  | task {i : Nat} : o.dir = none → o.pcb ≠ s.sched.idleTask → s.cpu.InKernel o.stack i →
    i ≤ 1024 → Runs s o

/-- What holds of a task's entry in every state. -/
structure Placed (s : Sched) (o : Owned) : Prop where
  aligned : o.stack.toNat % 4096 = 0
  stackEnd : o.stack + 4096 ≠ 0
  user : s.isUserTask o.pcb = o.dir.isSome

/-- In `x` the task is parked with the context, the stack above it and the user pages it has
in `s`. -/
structure Stores (s : Machine) (x : Sched) (o : Owned) : Prop where
  context : x.parked o.pcb = s.context o.pcb
  stack : (s.context o.pcb).ring3 = false → ∀ j, j < 1024 →
    (s.context o.pcb).esp ≤ slot o.stack j → stackWord x.vmm.mem o.stack j = stackWord s.mem o.stack j
  page : ∀ p ∈ o.maps.map Prod.snd, ∀ i, i.toNat < 1024 →
    entryAt x.vmm.mem p i = entryAt s.mem p i

/-- The task has its context, the stack above it and its user pages in `s'` as in `s`. -/
structure Kept (s s' : Machine) (o : Owned) : Prop where
  context : s'.context o.pcb = s.context o.pcb
  stack : (s.context o.pcb).ring3 = false → ∀ j, j < 1024 →
    (s.context o.pcb).esp ≤ slot o.stack j → stackWord s'.mem o.stack j = stackWord s.mem o.stack j
  page : ∀ p ∈ o.maps.map Prod.snd, ∀ i, i.toNat < 1024 → entryAt s'.mem p i = entryAt s.mem p i

section

variable {s s' s'' : Machine} {x x' : Sched} {L : List Owned} {ts zs xs : List UInt32} {o : Owned}
  {m m' : Mem} {k : UInt32} {i b : Nat} {c : Cpu}

theorem SchedInv.placed (h : SchedInv x L ts zs xs) (hs : Settled x L) (ho : o ∈ L) : Placed x o := by
  refine ⟨(h.core.stack ho).inUse.aligned, hs.stack o ho, ?_⟩
  rw [Sched.isUserTask, (h.tasks.ok o ho).user]
  cases o.dir <;> simp

theorem Untouched.stackWord (h : Untouched o m m') {j : Nat} (hj : j < 1024) :
    stackWord m' o.stack j = stackWord m o.stack j := h.page _ List.mem_cons_self _ (ofNat_lt hj)

theorem Cpu.InKernel.ring3 (h : c.InKernel k i) : c.ring3 = false := by
  rw [Cpu.ring3, h.cs]
  rfl

theorem Cpu.InKernel.of_popFrame (hcs : stackWord m k (b + 9) = 0x08) :
    (popFrame m (slot k b)).InKernel k (b + 11) := by
  have hword : entryAt m (slot k b) 9 = 0x08 := (entryAt_slot m k b 9).trans hcs
  have hring : ¬ (0x08 : UInt32) &&& 3 = 3 := by decide
  unfold popFrame
  refine ⟨hword, ?_, ?_⟩
  · simp only [hword, if_neg hring]
  · simp only [hword, if_neg hring]
    exact slot_add k b 11

theorem popFrame_ring3 (h : Trapped m k) : (popFrame m (slot k 1011)).ring3 = true := by
  have hword : entryAt m (slot k 1011) 9 = stackWord m k 1020 := entryAt_slot m k 1011 9
  unfold Trapped at h
  unfold popFrame Cpu.ring3
  rw [hword, h]
  rfl

theorem Cpu.InKernel.of_popSwitch (flags : UInt32) (m : Mem) (k : UInt32) (i : Nat) :
    (popSwitch flags m (slot k i)).InKernel k (i + 10) := ⟨rfl, rfl, slot_add k i 10⟩

/-! ## A parked task stays parked -/

theorem Saved.congr {sp : UInt32} (h : Saved m k sp)
    (hm : ∀ j, j < 1024 → stackWord m' k j = stackWord m k j) : Saved m' k sp := by
  cases h with
  | program h => exact .program h
  | kernel h hb hcs => exact .kernel h hb ((hm _ (by omega)).trans hcs)

theorem Parked.congr (h : Parked x o) (hu : Untouched o x.vmm.mem x'.vmm.mem) : Parked x' o := by
  have hesp : x'.get o.pcb .esp = x.get o.pcb .esp := hu.esp
  refine ⟨fun hd => ?_, fun hd => ?_⟩
  · obtain ⟨htrap, hsaved⟩ := h.user hd
    unfold Trapped at htrap ⊢
    rw [hesp, hu.stackWord (by omega)]
    exact ⟨htrap, hsaved.congr fun _ hj => hu.stackWord hj⟩
  · rw [hesp]
    exact h.kernel hd

theorem Parked.parked_eq (h : Parked x o) (hp : Placed x o) (hp' : Placed x' o)
    (hu : Untouched o x.vmm.mem x'.vmm.mem) : x'.parked o.pcb = x.parked o.pcb := by
  have hesp : x'.get o.pcb .esp = x.get o.pcb .esp := hu.esp
  unfold Sched.parked
  rw [hp.user, hp'.user, hesp]
  cases hd : o.dir with
  | none =>
    obtain ⟨i, hi, hle⟩ := h.kernel hd
    rw [hi]
    exact popSwitch_congr (fun n hn => hu.stackWord (by omega)) 0
  | some d =>
    have hframe : ∀ b, b ≤ 1011 →
        popFrame x'.vmm.mem (slot o.stack b) = popFrame x.vmm.mem (slot o.stack b) :=
      fun b hb => popFrame_congr (fun n hn => hu.stackWord (by omega))
        fun _ n hn => hu.stackWord (by omega)
    cases (h.user (by rw [hd]; rfl)).2 with
    | program hsp =>
      rw [hsp]
      exact hframe _ (Nat.le_refl _)
    | kernel hsp hb =>
      rw [hsp]
      exact hframe _ (by omega)

/-! ## Contexts that are kept -/

theorem context_of_ne {t : UInt32} (h : t ≠ s.sched.currentTask) : s.context t = s.sched.parked t :=
  if_neg h

/-- A switch gives the current task the context it was parked with. -/
theorem context_resume (x : Sched) (flags t : UInt32) :
    Machine.context ⟨x, x.resume flags⟩ t = x.parked t := by
  unfold Machine.context
  by_cases h : t = x.currentTask
  · rw [if_pos h]
    subst h
    unfold Sched.resume Sched.parked
    cases x.isUserTask x.currentTask <;> rfl
  · exact if_neg h

theorem Stores.resume (h : Stores s x o) (flags : UInt32) : Kept s ⟨x, x.resume flags⟩ o :=
  ⟨(context_resume ..).trans h.context, h.stack, h.page⟩

theorem Stores.untouched (h : Stores s x o) (hk : Parked x o) (hp : Placed x o) (hp' : Placed x' o)
    (hu : Untouched o x.vmm.mem x'.vmm.mem) : Stores s x' o :=
  ⟨(hk.parked_eq hp hp' hu).trans h.context,
    fun hr j hj hle => (hu.stackWord hj).trans (h.stack hr j hj hle),
    fun p hm i hi => (hu.page p (List.mem_cons_of_mem _ hm) i hi).trans (h.page p hm i hi)⟩

theorem Stores.of_parked (h : o.pcb ≠ s.sched.currentTask) : Stores s s.sched o :=
  ⟨(context_of_ne h).symm, fun _ _ _ _ => rfl, fun _ _ _ _ => rfl⟩

theorem Stores.kept (h : Stores s s'.sched o) (hne : o.pcb ≠ s'.sched.currentTask) : Kept s s' o :=
  ⟨(context_of_ne hne).trans h.context, h.stack, h.page⟩

theorem Kept.refl (s : Machine) (o : Owned) : Kept s s o :=
  ⟨rfl, fun _ _ _ _ => rfl, fun _ _ _ _ => rfl⟩

theorem Kept.trans (h₁ : Kept s s' o) (h₂ : Kept s' s'' o) : Kept s s'' o := by
  refine ⟨h₂.context.trans h₁.context, fun hr j hj hle => ?_,
    fun p hm i hi => (h₂.page p hm i hi).trans (h₁.page p hm i hi)⟩
  rw [h₂.stack (h₁.context ▸ hr) j hj (h₁.context ▸ hle), h₁.stack hr j hj hle]

/-- A task that stays current and keeps the registers. -/
theorem Kept.of_current (hcur : s'.sched.currentTask = s.sched.currentTask)
    (hpcb : o.pcb = s.sched.currentTask) (hcpu : s'.cpu = s.cpu) (hp : Placed s.sched o)
    (hp' : Placed s'.sched o)
    (hstack : s.cpu.ring3 = false → ∀ j, j < 1024 → s.cpu.esp ≤ slot o.stack j →
      stackWord s'.mem o.stack j = stackWord s.mem o.stack j)
    (hpage : ∀ p ∈ o.maps.map Prod.snd, ∀ i, i.toNat < 1024 →
      entryAt s'.mem p i = entryAt s.mem p i) : Kept s s' o := by
  have hctx : s.context o.pcb = s.cpu ∨ s.context o.pcb = { s.cpu with eflags := 0 } := by
    unfold Machine.context
    rw [if_pos hpcb]
    cases s.sched.isUserTask o.pcb
    · exact .inr rfl
    · exact .inl rfl
  refine ⟨?_, fun hr j hj hle => ?_, hpage⟩
  · unfold Machine.context
    rw [if_pos hpcb, if_pos (hpcb.trans hcur.symm), hcpu, hp.user, hp'.user]
  · rcases hctx with e | e
    · rw [e] at hr hle
      exact hstack hr j hj hle
    · rw [e] at hr hle
      exact hstack hr j hj hle

/-! ## Going on -/

/-- A parked task that a switch goes to runs. -/
theorem Parked.runs {flags : UInt32} (h : Parked x o) (hp : Placed x o) (hcur : o.pcb = x.currentTask)
    (hflags : flags &&& 0x200 = 0)
    (hesp0 : o.dir.isSome = true → x.esp0 = slot o.stack 1024) :
    Runs ⟨x, x.resume flags⟩ o := by
  have hresume : x.resume flags = if o.dir.isSome then popFrame x.vmm.mem (x.get o.pcb .esp)
      else popSwitch flags x.vmm.mem (x.get o.pcb .esp) := by
    unfold Sched.resume
    rw [← hcur, hp.user]
  cases hd : o.dir with
  | none =>
    rw [hd, if_neg (by simp)] at hresume
    obtain ⟨i, hi, hle⟩ := h.kernel hd
    by_cases hid : o.pcb = x.idleTask
    · refine .idle hid ?_ ?_ h
      · rw [hresume, hi]
        exact (Cpu.InKernel.of_popSwitch ..).ring3
      · rw [hresume]
        unfold Cpu.interruptible popSwitch
        simp [hflags]
    · refine .task hd hid (i := i + 10) ?_ hle
      rw [hresume, hi]
      exact .of_popSwitch ..
  | some d =>
    have hsome : o.dir.isSome = true := by rw [hd]; rfl
    rw [hd, if_pos Option.isSome_some] at hresume
    obtain ⟨htrap, hsaved⟩ := h.user hsome
    cases hsaved with
    | program hsp =>
      refine .program hsome ?_ (hesp0 hsome)
      rw [hresume, hsp]
      exact popFrame_ring3 htrap
    | @kernel b hsp hb hcs =>
      refine .syscall hsome (hesp0 hsome) (i := b + 11) ?_ hb htrap
      rw [hresume, hsp]
      exact .of_popFrame hcs

end

end HaoSys.Proc
