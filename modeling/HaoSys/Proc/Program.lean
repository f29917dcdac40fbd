import HaoSys.Proc.Preempt

/-!
# The registers of a program

A user task has the registers of its program in the CPU while the program runs, and
at the top of its kernel stack while the kernel works for it, whatever goes on below
and whichever task is current (`Machine.program`). Every step but those of the
program itself leaves them, but for EAX (`Step.behind`).
-/

namespace HaoSys.Proc

open HaoSys.Lib HaoSys.Mm

/-- The registers of a task's program: those of the CPU, or those its way back to ring 3 pops from
the top of the kernel stack. -/
def Machine.program (s : Machine) (o : Owned) : Cpu :=
  if (s.context o.pcb).ring3 then s.context o.pcb else popFrame s.mem (slot o.stack 1011)

/-- The registers that a system call leaves: its result is in EAX. -/
def Cpu.butEax (c : Cpu) : Cpu := { c with gprs := { c.gprs with eax := 0 } }

/-- The program of `t` itself runs or exits, or the loader works on it. -/
def Event.changes (e : Event) (currentTask t : UInt32) : Prop :=
  match e with
  | program | exit => t = currentTask
  | load task | launch task => t = task
  | _ => False

section

variable {s s' : Machine} {L : List Owned} {o : Owned} {m : Mem} {c : Cpu} {e : Event}

theorem Live.context_current (h : Live s L) (ho : o ∈ L) (hpcb : o.pcb = s.sched.currentTask)
    (hd : o.dir.isSome = true) : s.context o.pcb = s.cpu := by
  obtain ⟨ts, zs, xs, hinv⟩ := h.inv
  unfold Machine.context
  rw [if_pos hpcb, (hinv.placed h.settled ho).user, if_pos hd]

/-- A user task in the kernel is below the frame of its program. -/
theorem Live.context_low (h : Live s L) (ho : o ∈ L) (hl : s.sched.OnList o.pcb)
    (hd : o.dir.isSome = true) (h0 : (s.context o.pcb).ring3 = false) :
    (s.context o.pcb).esp ≤ slot o.stack 1011 := by
  obtain ⟨ts, zs, xs, hinv⟩ := h.inv
  have hp := hinv.placed h.settled ho
  have hle : ∀ i, i ≤ 1011 → slot o.stack i ≤ slot o.stack 1011 := fun i hi =>
    (slot_le hp.aligned hp.stackEnd (by omega) (by omega)).2 hi
  by_cases hpcb : o.pcb = s.sched.currentTask
  · rw [h.context_current ho hpcb hd] at h0 ⊢
    cases h.runs o ho hpcb with
    | idle hid => exact absurd hid (h.idle_dir ho hd)
    | program _ h3 =>
      rw [h0] at h3
      cases h3
    | syscall _ _ hin hi =>
      rw [hin.esp]
      exact hle _ hi
    | task hno =>
      rw [hno] at hd
      cases hd
  · obtain ⟨htrap, hsaved⟩ := (h.parked o ho hl hpcb).user hd
    have hctx : s.context o.pcb = popFrame s.sched.vmm.mem (s.sched.get o.pcb .esp) := by
      rw [context_of_ne hpcb]
      unfold Sched.parked
      rw [hp.user, if_pos hd]
    rw [hctx] at h0 ⊢
    cases hsaved with
    | program hsp =>
      rw [hsp, popFrame_ring3 htrap] at h0
      cases h0
    | kernel hsp hb hcs =>
      rw [hsp, (Cpu.InKernel.of_popFrame hcs).esp]
      exact hle _ hb

/-- What is kept of a task is kept of its program. -/
theorem Live.program_of_kept (h : Live s L) (ho : o ∈ L) (hl : s.sched.OnList o.pcb)
    (hd : o.dir.isSome = true) (hk : Kept s s' o) : s'.program o = s.program o := by
  obtain ⟨ts, zs, xs, hinv⟩ := h.inv
  have hp := hinv.placed h.settled ho
  unfold Machine.program
  rw [hk.context]
  split
  · rfl
  · next h0 =>
    have h0 : (s.context o.pcb).ring3 = false := by simpa using h0
    have hlow := h.context_low ho hl hd h0
    have hword : ∀ j, 1011 ≤ j → j < 1024 → stackWord s'.mem o.stack j = stackWord s.mem o.stack j :=
      fun j hj hlt => hk.stack h0 j hlt (UInt32.le_trans hlow
        ((slot_le hp.aligned hp.stackEnd (by omega) (by omega)).2 hj))
    exact popFrame_congr (fun n hn => hword _ (by omega) (by omega))
      fun _ n hn => hword _ (by omega) (by omega)

theorem Live.program_ring3 (h : Live s L) (ho : o ∈ L) (hpcb : o.pcb = s.sched.currentTask)
    (hd : o.dir.isSome = true) (h3 : s.cpu.ring3 = true) : s.program o = s.cpu := by
  unfold Machine.program
  rw [h.context_current ho hpcb hd, if_pos h3]

theorem Live.program_ring0 (h : Live s L) (ho : o ∈ L) (hpcb : o.pcb = s.sched.currentTask)
    (hd : o.dir.isSome = true) (h0 : s.cpu.ring3 = false) :
    s.program o = popFrame s.mem (slot o.stack 1011) := by
  unfold Machine.program
  rw [h.context_current ho hpcb hd, h0]
  rfl

/-- The frame of the program but for the word of EAX. -/
theorem popFrame_butEax {m m' : Mem} {k : UInt32}
    (h : ∀ j, 1011 ≤ j → j < 1024 → j ≠ 1018 → stackWord m' k j = stackWord m k j) :
    (popFrame m' (slot k 1011)).butEax = (popFrame m (slot k 1011)).butEax := by
  have hword : ∀ n, n < 13 → n ≠ 7 →
      entryAt m' (slot k 1011) (UInt32.ofNat n) = entryAt m (slot k 1011) (UInt32.ofNat n) := by
    intro n hn hne
    rw [entryAt_slot, entryAt_slot]
    exact h _ (by omega) (by omega) (by omega)
  have hedi : entryAt m' (slot k 1011) 0 = entryAt m (slot k 1011) 0 :=
    hword 0 (by omega) (by omega)
  have hesi : entryAt m' (slot k 1011) 1 = entryAt m (slot k 1011) 1 :=
    hword 1 (by omega) (by omega)
  have hebp : entryAt m' (slot k 1011) 2 = entryAt m (slot k 1011) 2 :=
    hword 2 (by omega) (by omega)
  have hebx : entryAt m' (slot k 1011) 4 = entryAt m (slot k 1011) 4 :=
    hword 4 (by omega) (by omega)
  have hedx : entryAt m' (slot k 1011) 5 = entryAt m (slot k 1011) 5 :=
    hword 5 (by omega) (by omega)
  have hecx : entryAt m' (slot k 1011) 6 = entryAt m (slot k 1011) 6 :=
    hword 6 (by omega) (by omega)
  have heip : entryAt m' (slot k 1011) 8 = entryAt m (slot k 1011) 8 :=
    hword 8 (by omega) (by omega)
  have hcs : entryAt m' (slot k 1011) 9 = entryAt m (slot k 1011) 9 :=
    hword 9 (by omega) (by omega)
  have hflags : entryAt m' (slot k 1011) 10 = entryAt m (slot k 1011) 10 :=
    hword 10 (by omega) (by omega)
  have hesp : entryAt m' (slot k 1011) 11 = entryAt m (slot k 1011) 11 :=
    hword 11 (by omega) (by omega)
  have hss : entryAt m' (slot k 1011) 12 = entryAt m (slot k 1011) 12 :=
    hword 12 (by omega) (by omega)
  simp only [Cpu.butEax, popFrame, popGprs, hedi, hesi, hebp, hebx, hedx, hecx, heip, hcs, hflags,
    hesp, hss]

/-! ## The steps of a system call -/

theorem enterKernel_current (s : Machine) :
    s.enterKernel.sched.currentTask = s.sched.currentTask :=
  (apply_ite Sched.currentTask _ _ _).trans (ite_self _)

theorem Live.trap_program (h : Live s L) (h3 : s.cpu.ring3 = true) (ho : o ∈ L)
    (hpcb : o.pcb = s.sched.currentTask) (hd : o.dir.isSome = true) :
    s.enterKernel.program o = s.program o := by
  have hs : Stops s L o s.enterKernel.mem := stops_enterKernel ho hpcb h3
  obtain ⟨-, top, b, hat, hst⟩ := h.stopped hs (.inl h3)
  have hself : s.enterKernel.setMem s.enterKernel.mem = s.enterKernel := rfl
  rw [hself] at hst
  obtain rfl := hat.program_slot h3
  rw [h.program_ring3 ho hpcb hd h3,
    (h.trap h3).live.program_ring0 ho (hpcb.trans hst.current.symm) hd hst.inKernel.ring3]
  exact hst.frame

theorem Live.work_program (h : Live s L) (ho : o ∈ L) (hpcb : o.pcb = s.sched.currentTask)
    (hd : o.dir.isSome = true) (h0 : s.cpu.ring3 = false) (hw : Works o c s.mem m) :
    (Machine.program { s.setMem m with cpu := c } o).butEax = (s.program o).butEax := by
  obtain ⟨i, hin, -⟩ := hw.inKernel
  have hlive := (h.work ho hpcb (h.idle_dir ho hd) h0 hw).live
  rw [h.program_ring0 ho hpcb hd h0, hlive.program_ring0 ho hpcb hd hin.ring3]
  exact popFrame_butEax (hw.frame hd)

/-- In a system call the frame at the top of the stack is one of the program. -/
theorem Live.trapped (h : Live s L) (ho : o ∈ L) (hpcb : o.pcb = s.sched.currentTask)
    (hd : o.dir.isSome = true) (h0 : s.cpu.ring3 = false) : Trapped s.mem o.stack := by
  cases h.runs o ho hpcb with
  | idle hid => exact absurd hid (h.idle_dir ho hd)
  | program _ h3 =>
    rw [h0] at h3
    cases h3
  | syscall _ _ _ _ htrap => exact htrap
  | task hno =>
    rw [hno] at hd
    cases hd

theorem Live.sysret_program (h : Live s L) (ho : o ∈ L) (hpcb : o.pcb = s.sched.currentTask)
    (hd : o.dir.isSome = true) (h0 : s.cpu.ring3 = false) (hesp : s.cpu.esp = slot o.stack 1011) :
    s.leaveKernel.program o = s.program o := by
  have hlive := (h.sysret ho hpcb hd h0 hesp).live
  have hcpu : s.leaveKernel.cpu = popFrame s.mem (slot o.stack 1011) := by
    rw [← hesp]
    rfl
  have h3 : s.leaveKernel.cpu.ring3 = true := by
    rw [hcpu]
    exact popFrame_ring3 (h.trapped ho hpcb hd h0)
  rw [h.program_ring0 ho hpcb hd h0, hlive.program_ring3 ho hpcb hd h3, hcpu]

theorem Live.sysYield_program (h : Live s L) (hs : Stops s L o m) (h3 : s.cpu.ring3 = true) :
    (Machine.program ((s.enterKernel.setMem m).setReturn 0).leaveKernel o).butEax =
      (s.program o).butEax := by
  have hd := h.user_of_ring3 hs.mem hs.pcb h3
  obtain ⟨hcur, hin, hwork⟩ := h.sysYield_works hs h3
  have htrap := (h.trap h3).live
  have hidle : o.pcb ≠ s.enterKernel.sched.idleTask := htrap.idle_dir hs.mem hd
  have hworked := (htrap.work hs.mem hcur hidle hin.ring3 hwork).live
  rw [← h.trap_program h3 hs.mem hs.pcb hd, ← htrap.work_program hs.mem hcur hd hin.ring3 hwork,
    ← hworked.sysret_program hs.mem hcur hd hin.ring3 hin.esp]
  rfl

/-! ## One step -/

theorem Live.onList_current (h : Live s L) (hpcb : o.pcb = s.sched.currentTask) :
    s.sched.OnList o.pcb := by
  obtain ⟨ts, zs, xs, hinv⟩ := h.inv
  exact hinv.onList_iff.2 (hpcb ▸ hinv.tasks.current)

/-- A step behind a program leaves its registers but EAX. -/
theorem Step.behind {a b : Machine × List Owned} (hs : Step a e b) (h : Live a.1 a.2) (ho : o ∈ a.2)
    (hl : a.1.sched.OnList o.pcb) (hd : o.dir.isSome = true)
    (hno : ¬ e.changes a.1.sched.currentTask o.pcb) :
    o ∈ b.2 ∧ b.1.sched.OnList o.pcb ∧ (b.1.program o).butEax = (a.1.program o).butEax := by
  have hnext := hs.next h
  by_cases hby : e.by a.1.sched.currentTask o.pcb
  · cases hs with
    | program => exact absurd hby hno
    | work ho' hpcb hidle h0 hw =>
      obtain rfl := h.eq_of_pcb ho' ho (hpcb.trans hby.symm)
      exact ⟨ho, hnext.live.onList_current hby, h.work_program ho hby hd h0 hw⟩
    | boot hidle => exact absurd (hby.trans hidle) (h.idle_dir ho hd)
    | fill => exact absurd hby hno
    | load => exact absurd hby hno
    | launch => exact absurd hby hno
    | create => exact hby.elim
    | createUser => exact hby.elim
    | map => exact hby.elim
    | unmap => exact hby.elim
    | @trap s _ h3 =>
      have hcur : o.pcb = s.enterKernel.sched.currentTask := hby.trans (enterKernel_current s).symm
      exact ⟨ho, hnext.live.onList_current hcur, congrArg _ (h.trap_program h3 ho hby hd)⟩
    | sysret ho' hpcb _ h0 hesp =>
      obtain rfl := h.eq_of_pcb ho' ho (hpcb.trans hby.symm)
      exact ⟨ho, hl, congrArg _ (h.sysret_program ho hby hd h0 hesp)⟩
    | irq => exact hby.elim
    | tick => exact hby.elim
    | sysYield h3 hs hok hr =>
      obtain rfl := h.eq_of_pcb ho hs.mem (hby.trans hs.pcb.symm)
      rcases h.sysYield_cases hs h3 hok hr with ⟨rfl, rfl⟩ | hswitch
      · rw [without_nil] at hnext ⊢
        exact ⟨ho, hnext.live.onList_current (h.sysYield_works hs h3).1, h.sysYield_program hs h3⟩
      · obtain ⟨ho', hl', hk⟩ := (hswitch .irq).kept o ho hl (fun _ => h.idle_dir ho hd) fun e => e
        exact ⟨ho', hl', congrArg _ (h.program_of_kept ho hl hd hk)⟩
    | yield => exact hby.elim
    | exit => exact absurd hby hno
  · obtain ⟨ho', hl', hk⟩ := hnext.kept o ho hl (fun _ => h.idle_dir ho hd) hby
    exact ⟨ho', hl', congrArg _ (h.program_of_kept ho hl hd hk)⟩

end

end HaoSys.Proc
