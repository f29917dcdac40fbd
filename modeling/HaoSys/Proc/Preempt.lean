import HaoSys.Proc.Progress

/-!
# Stopping the current task and switching

An interrupt stops the current task and lets it go on, or the timer's last tick of its
turn has `schedule` go to another; a system call to yield does the same, a kernel task
yields by `switch_to`, and a task that exits is not gone back to. With the other steps
this makes `Step.next`, and from it the invariant of every run.
-/

namespace HaoSys.Proc

open HaoSys.Lib HaoSys.Mm

section

variable {s s' s₁ : Machine} {x x' : Sched} {L L' : List Owned} {ts zs xs ys : List UInt32}
  {o o' : Owned} {m : Mem} {c : Cpu} {fuel top b i : Nat} {freed : List UInt32} {e : Event}
  {p task virt entry stack flags sp : UInt32} {r : Sched.Scheduled}

theorem cli_flags (c : Cpu) : c.cli.eflags &&& 0x200 = 0 := by
  unfold Cpu.cli
  rw [UInt32.and_assoc]
  exact UInt32.and_zero

/-! ## Stopping -/

theorem Stopped.inKernel (h : Stopped s s₁ L o top b) : s₁.cpu.InKernel o.stack b := by
  rw [h.cpu]
  exact ⟨rfl, rfl, rfl⟩

/-- The frame of a program is at the top of the stack. -/
theorem StopsAt.program_slot (h : StopsAt s o top b) (h3 : s.cpu.ring3 = true) : b = 1011 := by
  cases h with
  | program => rfl
  | kernel hin =>
    rw [hin.ring3] at h3
    cases h3

/-- In ring 3 a user task runs. -/
theorem Live.user_of_ring3 (h : Live s L) (ho : o ∈ L) (hpcb : o.pcb = s.sched.currentTask)
    (h3 : s.cpu.ring3 = true) : o.dir.isSome = true := by
  cases h.runs o ho hpcb with
  | idle _ h0 =>
    rw [h0] at h3
    cases h3
  | program hd => exact hd
  | syscall hd => exact hd
  | task _ _ hin =>
    rw [hin.ring3] at h3
    cases h3

theorem Live.stopped (h : Live s L) (hs : Stops s L o m)
    (hon : s.cpu.ring3 = true ∨ s.cpu.interruptible = true) :
    o.pcb ≠ s.sched.idleTask ∧
      ∃ top b, StopsAt s o top b ∧ Stopped s (s.enterKernel.setMem m) L o top b := by
  obtain ⟨ts, zs, xs, hinv⟩ := h.inv
  have hp := hinv.placed h.settled hs.mem
  have hat : o.pcb ≠ s.sched.idleTask ∧ ∃ top b, StopsAt s o top b := by
    have hkernel : ∀ i, s.cpu.InKernel o.stack i → i ≤ 1024 → ∃ top b, StopsAt s o top b := by
      intro i hin hi
      have hroom := hs.room hin.ring3
      rw [hin.esp, slot_le hp.aligned hp.stackEnd (by omega) hi] at hroom
      obtain ⟨b, rfl⟩ : ∃ n, i = n + 11 := ⟨i - 11, by omega⟩
      exact ⟨_, b, .kernel hin hi⟩
    cases h.runs o hs.mem hs.pcb with
    | idle _ h0 hif =>
      rw [h0, hif] at hon
      simp at hon
    | program hd h3 he => exact ⟨h.idle_dir hs.mem hd, _, _, .program h3 he⟩
    | syscall hd _ hin hi => exact ⟨h.idle_dir hs.mem hd, hkernel _ hin (by omega)⟩
    | task _ hne hin hi => exact ⟨hne, hkernel _ hin hi⟩
  obtain ⟨hne, top, b, hat⟩ := hat
  exact ⟨hne, top, b, hat, hinv.stopped hp hs.mem hs.pcb hat hs.below⟩

theorem Stopped.settled (h : Stopped s s₁ L o top b) (hl : Live s L) : Settled s₁.sched L := by
  refine hl.settled.same ?_ ?_
  · rw [h.sched]
    exact Vmm.sameBoot_setMem ..
  · rw [h.sched]

theorem Stopped.current (h : Stopped s s₁ L o top b) : s₁.sched.currentTask = s.sched.currentTask := by
  rw [h.sched]

theorem Stopped.onList (h : Stopped s s₁ L o top b) (hl : Live s L) (t : UInt32) :
    s₁.sched.OnList t ↔ s.sched.OnList t := by
  obtain ⟨ts, zs, xs, hinv⟩ := hl.inv
  exact hinv.onList_congr (h.inv hinv) t

theorem Stopped.running (h : Stopped s s₁ L o top b) (hl : Live s L) :
    s₁.sched.get s₁.sched.currentTask .state = TaskState.running.code := by
  obtain ⟨ts, zs, xs, hinv⟩ := hl.inv
  rw [h.current, h.states _ (hinv.onList_iff.2 hinv.tasks.current), hl.running]

/-- The tasks that do not run are parked in the handler too. -/
theorem Live.stopped_other (h : Live s L) (hst : Stopped s s₁ L o top b)
    (hpcb : o.pcb = s.sched.currentTask) (ho' : o' ∈ L) (hl : s.sched.OnList o'.pcb)
    (hne : o'.pcb ≠ s.sched.currentTask) : Parked s₁.sched o' ∧ Stores s s₁.sched o' := by
  obtain ⟨ts, zs, xs, hinv⟩ := h.inv
  exact hst.other hpcb ho' hne (h.parked o' ho' hl hne) (hinv.placed h.settled ho')
    (hst.placed hinv h.settled ho')

/-- The stub returns to the task it stopped. -/
theorem Live.back (h : Live s L) (hst : Stopped s s₁ L o top b) (hat : StopsAt s o top b) (ho : o ∈ L)
    (hpcb : o.pcb = s.sched.currentTask) (hidle : o.pcb ≠ s.sched.idleTask) :
    Next e s L s₁.leaveKernel L := by
  obtain ⟨ts, zs, xs, hinv⟩ := h.inv
  have hp := hinv.placed h.settled ho
  obtain ⟨hcpu, hkept⟩ := hst.kept hpcb hat hp (hst.placed hinv h.settled ho)
  have hesp0 : s₁.sched.esp0 = s.sched.esp0 := by rw [hst.sched]
  have hidl : s₁.sched.idleTask = s.sched.idleTask := by rw [hst.sched]
  have hcur : s₁.leaveKernel.sched.currentTask = s.sched.currentTask := hst.current
  refine ⟨⟨⟨ts, zs, xs, hst.inv hinv⟩, hst.settled h, hst.running h, fun o' ho' hpcb' => ?_,
    fun o' ho' hl hne => ?_⟩, hidl, fun o' ho' hl _ _ => ⟨ho', (hst.onList h _).2 hl, ?_⟩⟩
  · obtain rfl := h.eq_of_pcb ho' ho ((hpcb'.trans hcur).trans hpcb.symm)
    cases h.runs o' ho' hpcb with
    | idle hid => exact absurd hid hidle
    | program hd h3 he => exact .program hd (hcpu ▸ h3) (hesp0.trans he)
    | @syscall i hd he hin hi htrap =>
      refine .syscall hd (hesp0.trans he) (hcpu ▸ hin) hi ?_
      have htop : top ≤ 1011 := by
        cases hat with
        | program h3 =>
          rw [hin.ring3] at h3
          cases h3
        | kernel hin' hle =>
          have := slot_inj hp.aligned hp.stackEnd hle (by omega) (hin'.esp.symm.trans hin.esp)
          omega
      change stackWord s₁.mem o'.stack 1020 &&& 3 = 3
      rw [hst.rest 1020 (by omega) (by omega)]
      exact htrap
    | task hd _ hin hi => exact .task hd (hidl ▸ hidle) (hcpu ▸ hin) hi
  · exact (h.stopped_other hst hpcb ho' ((hst.onList h _).1 hl) fun e => hne (e.trans hcur.symm)).1
  · by_cases hne : o'.pcb = s.sched.currentTask
    · obtain rfl := h.eq_of_pcb ho' ho (hne.trans hpcb.symm)
      exact hkept
    · have hstores : Stores s s₁.leaveKernel.sched o' := (h.stopped_other hst hpcb ho' hl hne).2
      exact hstores.kept fun e => hne (e.trans hcur)

theorem Live.irq (h : Live s L) (hs : Stops s L o m) (hon : s.cpu.interruptible = true) :
    Next .irq s L (s.irq m) L := by
  obtain ⟨hidle, top, b, hat, hst⟩ := h.stopped hs (.inr hon)
  exact h.back hst hat hs.mem hs.pcb hidle

/-- A system call of the current program: what the stub calls runs on the frame at the top. -/
theorem Live.trap (h : Live s L) (h3 : s.cpu.ring3 = true) : Next .trap s L s.enterKernel L := by
  obtain ⟨o, ho, hpcb⟩ := h.current_entry
  have hs : Stops s L o s.enterKernel.mem := stops_enterKernel ho hpcb h3
  obtain ⟨hidle, top, b, hat, hst⟩ := h.stopped hs (.inl h3)
  have hself : s.enterKernel.setMem s.enterKernel.mem = s.enterKernel := rfl
  rw [hself] at hst
  obtain ⟨ts, zs, xs, hinv⟩ := h.inv
  have hcur : s.enterKernel.sched.currentTask = s.sched.currentTask := hst.current
  refine ⟨⟨⟨ts, zs, xs, hst.inv hinv⟩, hst.settled h, hst.running h, fun o' ho' hpcb' => ?_,
    fun o' ho' hl hne => ?_⟩, by rw [hst.sched], fun o' ho' hl _ hby =>
      ⟨ho', (hst.onList h _).2 hl, ?_⟩⟩
  · obtain rfl := h.eq_of_pcb ho' ho ((hpcb'.trans hcur).trans hpcb.symm)
    cases h.runs o' ho' hpcb with
    | idle hid => exact absurd hid hidle
    | program hd _ he =>
      cases hat with
      | kernel hin =>
        rw [hin.ring3] at h3
        cases h3
      | program =>
        refine .syscall hd ?_ (i := 1011) ?_ (Nat.le_refl _) ?_
        · rw [hst.sched]
          exact he
        · rw [hst.cpu]
          exact ⟨rfl, rfl, rfl⟩
        · unfold Trapped
          rw [hst.cs]
          exact of_decide_eq_true h3
    | syscall _ _ hin =>
      rw [hin.ring3] at h3
      cases h3
    | task _ _ hin =>
      rw [hin.ring3] at h3
      cases h3
  · exact (h.stopped_other hst hpcb ho' ((hst.onList h _).1 hl) fun e => hne (e.trans hcur.symm)).1
  · exact (h.stopped_other hst hpcb ho' hl hby).2.kept fun e => hby (e.trans hcur)

/-- The end of a system call. -/
theorem Live.sysret (h : Live s L) (ho : o ∈ L) (hpcb : o.pcb = s.sched.currentTask)
    (hd : o.dir.isSome = true) (h0 : s.cpu.ring3 = false) (hesp : s.cpu.esp = slot o.stack 1011) :
    Next .sysret s L s.leaveKernel L := by
  obtain ⟨ts, zs, xs, hinv⟩ := h.inv
  refine ⟨⟨⟨ts, zs, xs, hinv⟩, h.settled, h.running, fun o' ho' hpcb' => ?_, h.parked⟩, rfl,
    fun o' ho' hl _ hby => ⟨ho', hl, ?_⟩⟩
  · obtain rfl := h.eq_of_pcb ho' ho (hpcb'.trans hpcb.symm)
    cases h.runs o' ho' hpcb with
    | idle hid => exact absurd hid (h.idle_dir ho hd)
    | program _ h3 =>
      rw [h0] at h3
      cases h3
    | syscall _ he _ _ htrap =>
      refine .program hd ?_ he
      change (popFrame s.mem s.cpu.esp).ring3 = true
      rw [hesp]
      exact popFrame_ring3 htrap
    | task hno =>
      rw [hno] at hd
      cases hd
  · exact h.kept ho' hl rfl (fun hpcb' => absurd hpcb' hby) (hinv.placed h.settled ho') (.refl ..)

/-! ## Switching -/

/-- The tasks of the list are parked in `x`; it goes on with its current one. -/
theorem Next.of_parked (hinv : ∃ ts zs xs, SchedInv x L' ts zs xs) (hset : Settled x L')
    (hrun : x.get x.currentTask .state = TaskState.running.code)
    (hidle : x.idleTask = s.sched.idleTask)
    (hpark : ∀ o ∈ L', x.OnList o.pcb → Parked x o)
    (hesp0 : ∀ o ∈ L', o.pcb = x.currentTask → o.dir.isSome = true → x.esp0 = slot o.stack 1024)
    (hflags : flags &&& 0x200 = 0)
    (hkeep : ∀ o ∈ L, s.sched.OnList o.pcb → ¬ e.by s.sched.currentTask o.pcb →
      o ∈ L' ∧ x.OnList o.pcb ∧ Stores s x o) :
    Next e s L ⟨x, x.resume flags⟩ L' := by
  obtain ⟨ts, zs, xs, hinv⟩ := hinv
  refine ⟨⟨⟨ts, zs, xs, hinv⟩, hset, hrun, fun o ho hpcb => ?_, fun o ho hl _ => hpark o ho hl⟩, hidle,
    fun o ho hl _ hby => ?_⟩
  · have hl : x.OnList o.pcb := hinv.onList_iff.2 (hpcb ▸ hinv.tasks.current)
    exact (hpark o ho hl).runs (hinv.placed hset ho) hpcb hflags (hesp0 o ho hpcb)
  · obtain ⟨hmem, hl', hst⟩ := hkeep o ho hl hby
    exact ⟨hmem, hl', hst.resume flags⟩

theorem SchedInv.schedule_inv (hinv : SchedInv x L ts zs xs) (ha : x.Active)
    (hset : Settled x L) (hok : x.ReapsOwn) (hr : x.schedule fuel sp = some r) :
    (∃ ts zs xs, SchedInv r.state (without L (r.reaped.map Prod.fst)) ts zs xs) ∧
      Settled r.state (without L (r.reaped.map Prod.fst)) ∧ r.state.idleTask = x.idleTask := by
  obtain ⟨ts', zs', xs', hinv', -⟩ := RunInv.schedule ⟨ts, zs, xs, hinv, ha⟩ hok hr
  obtain ⟨hboot, hidle⟩ := (hinv.schedule_outcome ha hok hr).kept
  exact ⟨⟨ts', zs', xs', hinv'⟩, hset.congr hboot hidle fun o ho =>
    ⟨o, List.mem_of_mem_filter ho, rfl, rfl, rfl⟩, hidle⟩

/-- The stack of a user task that the normal branch goes to is in `tss.esp0`. -/
theorem kernelEsp0_of_user (hinv : ∃ ts zs xs, SchedInv x L ts zs xs) (hset : Settled x L) (ho : o ∈ L)
    (hd : o.dir.isSome = true) :
    x.get o.pcb .kernelEsp0 = slot o.stack 1024 ∧ x.get o.pcb .kernelEsp0 ≠ 0 := by
  obtain ⟨ts, zs, xs, hinv⟩ := hinv
  have hne : o.pcb ≠ x.idleTask := fun e => by
    rw [hset.idle o ho e] at hd
    cases hd
  have hword := (hinv.tasks.ok o ho).esp0
  rw [if_neg hne] at hword
  rw [hword]
  exact ⟨rfl, hset.stack o ho⟩

theorem mem_without {freed : List UInt32} (ho : o ∈ L) (hf : o.pcb ∉ freed) : o ∈ without L freed :=
  List.mem_filter.2 ⟨ho, by simpa using hf⟩

/-- `schedule` behind the stub that stopped a user task. -/
theorem Live.reschedule (h : Live s L) (hst : Stopped s s₁ L o top b) (hat : StopsAt s o top b)
    (ho : o ∈ L) (hpcb : o.pcb = s.sched.currentTask) (hd : o.dir.isSome = true)
    (hok : s₁.sched.ReapsOwn) (hr : s₁.sched.schedule fuel sp = some r) :
    r = ⟨[], false, s₁.sched⟩ ∨ r.switched = true ∧ ∀ flags, flags &&& 0x200 = 0 →
      Next e s L ⟨r.state, r.state.resume flags⟩ (without L (r.reaped.map Prod.fst)) := by
  obtain ⟨ts, zs, xs, hinv⟩ := h.inv
  have hinv₁ := hst.inv hinv
  have hrun := hst.running h
  have hset := hst.settled h
  refine (hinv₁.switch_moved hrun hok hr).imp_right fun ⟨hsw, hm⟩ => ⟨hsw, fun flags hflags => ?_⟩
  obtain ⟨hinv', hset', hidle'⟩ := hinv₁.schedule_inv (.inl hrun) hset hok hr
  have hterm := not_terminated hrun
  have huser : s₁.sched.isUserTask s₁.sched.currentTask = true := by
    rw [hst.current, ← hpcb, (hinv₁.placed hset ho).user, hd]
  have hidl : s₁.sched.idleTask = s.sched.idleTask := by rw [hst.sched]
  -- every task is parked behind the stub
  have hall : ∀ o' ∈ L, s.sched.OnList o'.pcb → Parked s₁.sched o' ∧ Stores s s₁.sched o' := by
    intro o' ho' hl
    by_cases hne : o'.pcb = s.sched.currentTask
    · obtain rfl := h.eq_of_pcb ho' ho (hne.trans hpcb.symm)
      exact hst.parked hpcb hat (hinv.placed h.settled ho') (hinv₁.placed hset ho') hd
        (h.idle_dir ho' hd) (h.runs o' ho' hpcb)
    · exact h.stopped_other hst hpcb ho' hl hne
  have hkeep : ∀ o' ∈ L, s.sched.OnList o'.pcb → Untouched o' s₁.sched.vmm.mem r.state.vmm.mem :=
    fun o' ho' hl => hm.untouched o' ho' ((hst.onList h _).2 hl) fun e => by
      rw [huser] at e
      cases e
  refine .of_parked hinv' hset' hm.running (hidle'.trans hidl) (fun o' ho' hl => ?_)
    (fun o' ho' hcur hd' => ?_) hflags fun o' ho' hl _ => ?_
  · have hmem := List.mem_of_mem_filter ho'
    have hl' := (hst.onList h _).1 (hm.list _ hl)
    exact (hall o' hmem hl').1.congr (hkeep o' hmem hl')
  · obtain ⟨hword, hne0⟩ := kernelEsp0_of_user hinv' hset' ho' hd'
    rw [hcur] at hword hne0
    rw [hm.esp0 hterm hne0, hword]
  · have hlisted := hm.stays_listed hterm ((hst.onList h _).2 hl)
    have hmem := mem_without ho' hlisted.2
    obtain ⟨hpark, hstores⟩ := hall o' ho' hl
    obtain ⟨ts', zs', xs', hinv'⟩ := hinv'
    exact ⟨hmem, hlisted.1, hstores.untouched hpark (hinv₁.placed hset ho')
      (hinv'.placed hset' hmem) (hkeep o' ho' hl)⟩

theorem without_nil (L : List Owned) : without L [] = L := filter_not_mem_nil L

theorem pitTickHandler_slice (h : x.pitTickHandler.1 = true) :
    x.isUserTask x.currentTask = true := by
  unfold Sched.pitTickHandler at h
  simp only at h
  split at h
  · next hc => exact hc.2
  · cases h

theorem Live.tick (h : Live s L) (hs : Stops s L o m) (hon : s.cpu.interruptible = true)
    (hok : (s.tick m).1 = true → (s.tick m).2.sched.ReapsOwn)
    (hr : s.irq0 fuel m = some (freed, s')) : Next .tick s L s' (without L freed) := by
  obtain ⟨hidle, top, b, hat, hst⟩ := h.stopped hs (.inr hon)
  obtain ⟨ts, zs, xs, hinv⟩ := h.inv
  have hinv₁ := hst.inv hinv
  have hst₂ := hst.ticked hinv hat hs.mem hinv₁.pitTickHandler
  have hslice := pitTickHandler_slice (x := (s.enterKernel.setMem m).sched)
  have htick : s.tick m = ((s.enterKernel.setMem m).sched.pitTickHandler.1,
      { s.enterKernel.setMem m with sched := (s.enterKernel.setMem m).sched.pitTickHandler.2 }) := rfl
  unfold Machine.irq0 at hr
  rw [htick] at hok hr
  cases hb : (s.enterKernel.setMem m).sched.pitTickHandler.1 with
  | false =>
    rw [hb] at hr
    cases hr
    rw [without_nil]
    exact h.back hst₂ hat hs.mem hs.pcb hidle
  | true =>
    rw [hb] at hr
    have hok := hok hb
    have hd : o.dir.isSome = true := by
      rw [← ((hst.placed hinv h.settled hs.mem)).user, hs.pcb, ← hst.current]
      exact hslice hb
    simp only [Machine.reschedule, Option.map_eq_some_iff] at hr
    obtain ⟨r, hr, he⟩ := hr
    obtain ⟨rfl, rfl⟩ := Prod.mk.inj he
    rcases h.reschedule hst₂ hat hs.mem hs.pcb hd hok hr with rfl | ⟨hsw, hnext⟩
    · rw [List.map_nil, without_nil, if_neg (by simp)]
      exact h.back hst₂ hat hs.mem hs.pcb hidle
    · rw [if_pos hsw]
      refine hnext _ ?_
      rw [hst.cpu]
      exact cli_flags _

theorem Next.trans {e₁ e₂ : Event} {s₂ : Machine} {L₁ L₂ : List Owned} (h₁ : Next e₁ s L s₁ L₁)
    (h₂ : Next e₂ s₁ L₁ s₂ L₂) (hcur : s₁.sched.currentTask = s.sched.currentTask)
    (hby : ∀ t, ¬ e.by s.sched.currentTask t →
      ¬ e₁.by s.sched.currentTask t ∧ ¬ e₂.by s₁.sched.currentTask t) : Next e s L s₂ L₂ := by
  refine ⟨h₂.live, h₂.idle.trans h₁.idle, fun o ho hl hid hnot => ?_⟩
  obtain ⟨hno₁, hno₂⟩ := hby o.pcb hnot
  obtain ⟨ho₁, hl₁, hk₁⟩ := h₁.kept o ho hl hid hno₁
  obtain ⟨ho₂, hl₂, hk₂⟩ := h₂.kept o ho₁ hl₁ (by rwa [hcur, h₁.idle]) hno₂
  exact ⟨ho₂, hl₂, hk₁.trans hk₂⟩

/-- The store to EAX in the frame of a program. -/
theorem works_setReturn (hk : o.stack.toNat % 4096 = 0) (hin : c.InKernel o.stack 1011)
    {m₀ : Mem} (hend : o.stack + 4096 ≠ 0) (hm : Below o.stack c.esp m₀ m) (v : UInt32) :
    Works o c m₀ (storeEntry m c.esp 7 v) := by
  obtain ⟨hoff, habove⟩ := hm
  have hstore : storeEntry m c.esp 7 v = store32 m (slot o.stack 1018) v := by
    rw [hin.esp]
    exact congrArg (store32 m · v) (slot_add o.stack 1011 7)
  rw [hstore]
  refine ⟨⟨o.stack, List.mem_cons_self, fun a ha => ?_⟩, ⟨1011, hin, ?_⟩, fun _ j h1 h2 h3 => ?_⟩
  · exact (storeEntry_apply hk (ofNat_lt (show 1018 < 1024 by omega)) ha).trans (hoff a ha)
  · split <;> omega
  · rw [stackWord_store hk (by omega) h2, if_neg h3]
    refine habove j h2 ?_
    rw [hin.esp]
    exact (slot_le hk hend (by omega) (by omega)).2 h1

/-- `SYS_YIELD` switches, or there is no other task and the stub returns with the result. -/
theorem Live.sysYield_cases (h : Live s L) (hs : Stops s L o m) (h3 : s.cpu.ring3 = true)
    (hok : (s.enterKernel.setMem m).sched.ReapsOwn)
    (hr : s.sysYield fuel m = some (freed, s')) :
    (freed = [] ∧ s' = ((s.enterKernel.setMem m).setReturn 0).leaveKernel) ∨
      ∀ e, Next e s L s' (without L freed) := by
  obtain ⟨-, top, b, hat, hst⟩ := h.stopped hs (.inl h3)
  have hd := h.user_of_ring3 hs.mem hs.pcb h3
  unfold Machine.sysYield at hr
  simp only [Machine.reschedule, Option.map_eq_some_iff] at hr
  obtain ⟨r, hr, he⟩ := hr
  obtain ⟨rfl, rfl⟩ := Prod.mk.inj he
  cases hsw : r.switched with
  | false =>
    rcases h.reschedule (e := .irq) hst hat hs.mem hs.pcb hd hok hr with rfl | ⟨hsw', -⟩
    · exact .inl ⟨rfl, if_neg (by simp)⟩
    · rw [hsw] at hsw'
      cases hsw'
  | true =>
    refine .inr fun e => ?_
    rcases h.reschedule (e := e) hst hat hs.mem hs.pcb hd hok hr with rfl | ⟨-, hnext⟩
    · cases hsw
    · rw [if_pos rfl]
      refine hnext _ ?_
      rw [hst.cpu]
      exact cli_flags _

/-- The store of the result, as work of the system call. -/
theorem Live.sysYield_works (h : Live s L) (hs : Stops s L o m) (h3 : s.cpu.ring3 = true) :
    o.pcb = s.enterKernel.sched.currentTask ∧ s.enterKernel.cpu.InKernel o.stack 1011 ∧
      Works o s.enterKernel.cpu s.enterKernel.mem (storeEntry m s.enterKernel.cpu.esp 7 0) := by
  obtain ⟨-, top, b, hat, hst⟩ := h.stopped hs (.inl h3)
  obtain ⟨ts, zs, xs, hinv⟩ := h.inv
  have hp := hinv.placed h.settled hs.mem
  obtain rfl := hat.program_slot h3
  have hin : s.enterKernel.cpu.InKernel o.stack 1011 := hst.inKernel
  have hcur : s.enterKernel.sched.currentTask = s.sched.currentTask := hst.current
  exact ⟨hs.pcb.trans hcur.symm, hin, works_setReturn hp.aligned hin hp.stackEnd hs.below 0⟩

theorem Live.sysYield (h : Live s L) (hs : Stops s L o m) (h3 : s.cpu.ring3 = true)
    (hok : (s.enterKernel.setMem m).sched.ReapsOwn)
    (hr : s.sysYield fuel m = some (freed, s')) : Next .sysYield s L s' (without L freed) := by
  rcases h.sysYield_cases hs h3 hok hr with ⟨rfl, rfl⟩ | hnext
  · -- no other task: the stub's frame gets the result, and the stub returns
    have hd := h.user_of_ring3 hs.mem hs.pcb h3
    obtain ⟨hcur, hin, hwork⟩ := h.sysYield_works hs h3
    have htrap := h.trap h3
    have hidle : o.pcb ≠ s.enterKernel.sched.idleTask := htrap.live.idle_dir hs.mem hd
    have hworked := htrap.live.work hs.mem hcur hidle hin.ring3 hwork
    rw [without_nil]
    have hsame : s.enterKernel.sched.currentTask = s.sched.currentTask := hcur.symm.trans hs.pcb
    refine htrap.trans (hworked.trans (e := .work) (hworked.live.sysret hs.mem hcur hd hin.ring3
      hin.esp) rfl fun t ht => ⟨ht, ht⟩) hsame fun t ht => ⟨ht, ?_⟩
    change ¬ t = s.enterKernel.sched.currentTask
    rw [hsame]
    exact ht
  · exact hnext _

/-! ## Kernel tasks -/

theorem slot_sub (k : UInt32) {i : Nat} (hi : 10 ≤ i) : slot k i - 40 = slot k (i - 10) := by
  have h := slot_add k (i - 10) 10
  rw [Nat.sub_add_cancel hi] at h
  rw [← h]
  exact UInt32.add_sub_cancel ..

theorem Live.kernel_runs (h : Live s L) (ho : o ∈ L) (hpcb : o.pcb = s.sched.currentTask)
    (hidle : o.pcb ≠ s.sched.idleTask) (hd : o.dir = none) :
    ∃ i, s.cpu.InKernel o.stack i ∧ i ≤ 1024 := by
  have hno : ¬ o.dir.isSome = true := by rw [hd]; simp
  cases h.runs o ho hpcb with
  | idle hid => exact absurd hid hidle
  | program hs => exact absurd hs hno
  | syscall hs => exact absurd hs hno
  | task _ _ hin hi => exact ⟨_, hin, hi⟩

/-- A kernel task that gave up the CPU at slot `i`: `switch_to` left its frame at the saved stack
pointer. -/
theorem Live.yielded (h : Live s L) (ho : o ∈ L) (hpcb : o.pcb = s.sched.currentTask)
    (hd : o.dir = none) (hin : s.cpu.InKernel o.stack i) (hroom : 10 ≤ i) (hi : i ≤ 1024)
    (hp : Placed x o) (hesp : x.get o.pcb .esp = slot o.stack (i - 10))
    (hpages : SamePages o s.mem m)
    (hoff : ∀ a, addrToIndex a ≠ addrToIndex o.stack → x.vmm.mem a = m a)
    (hrest : ∀ j, j < 1024 → (j < i - 10 ∨ i ≤ j) →
      stackWord x.vmm.mem o.stack j = stackWord m o.stack j)
    (hback : ∀ flags, popSwitch flags x.vmm.mem (slot o.stack (i - 10)) =
      { s.cpu with eflags := flags }) : Parked x o ∧ Stores s x o := by
  obtain ⟨ts, zs, xs, hinv⟩ := h.inv
  have hctx : s.context o.pcb = { s.cpu with eflags := 0 } := by
    unfold Machine.context
    rw [if_pos hpcb, (hinv.placed h.settled ho).user, hd]
    rfl
  refine ⟨⟨fun hs => ?_, fun _ => ⟨i - 10, hesp, by omega⟩⟩, ?_, fun _ j hj hle => ?_,
    fun p hpm n hn => ?_⟩
  · rw [hd] at hs
    cases hs
  · rw [hctx]
    unfold Sched.parked
    rw [hp.user, hd, hesp]
    exact hback 0
  · rw [hctx] at hle
    have hle' : i ≤ j := by
      rw [← slot_le hp.aligned hp.stackEnd hi (by omega), ← hin.esp]
      exact hle
    exact (hrest j hj (.inr hle')).trans (hpages _ List.mem_cons_self _ (ofNat_lt hj))
  · have hpage : p ∈ o.stack :: o.maps.map Prod.snd := List.mem_cons_of_mem _ hpm
    have hpa := (hinv.core.fresh p (mem_held ho (List.mem_cons_of_mem _ hpage))).inUse.aligned
    have hne := hinv.core.page_ne_stack ho hpm
    exact (entryAt_of_off hp.aligned hpa hne hn hoff).trans (hpages p hpage n hn)

theorem Live.yield (h : Live s L) (ho : o ∈ L) (hpcb : o.pcb = s.sched.currentTask)
    (hidle : o.pcb ≠ s.sched.idleTask) (hd : o.dir = none) (hroom : slot o.stack 10 ≤ s.cpu.esp)
    (hok : s.sched.ReapsOwn) (hr : s.yield fuel = some (freed, s')) :
    Next .yield s L s' (without L freed) := by
  obtain ⟨ts, zs, xs, hinv⟩ := h.inv
  have hp := hinv.placed h.settled ho
  obtain ⟨i, hin, hi⟩ := h.kernel_runs ho hpcb hidle hd
  rw [hin.esp, slot_le hp.aligned hp.stackEnd (by omega) hi] at hroom
  unfold Machine.yield at hr
  rw [Option.map_eq_some_iff] at hr
  obtain ⟨r, hr, he⟩ := hr
  obtain ⟨rfl, rfl⟩ := Prod.mk.inj he
  rcases hinv.switch_moved h.running hok hr with rfl | ⟨hsw, hm⟩
  · rw [List.map_nil, without_nil, if_neg (by simp)]
    exact ⟨h, rfl, fun o ho hl _ _ => ⟨ho, hl, .refl ..⟩⟩
  rw [if_pos hsw]
  obtain ⟨hinv', hset', hidle'⟩ := hinv.schedule_inv (.inl h.running) h.settled hok hr
  have hterm := not_terminated h.running
  have huser : s.sched.isUserTask s.sched.currentTask = false := by
    rw [← hpcb, hp.user, hd]
    rfl
  have hstay := hm.stays hterm
  have hmem := mem_without ho (hpcb ▸ hstay.2)
  -- `switch_to` pushes onto the stack of the task
  obtain ⟨-, hoff, hrest, hback⟩ := popSwitch_pushSwitch hp.aligned hin.cs hin.ss hroom hi hin.esp
    r.state.vmm.mem
  generalize (pushSwitch s.cpu r.state.vmm.mem).2 = m at hoff hrest hback ⊢
  obtain ⟨ts', zs', xs', hinv'⟩ := hinv'
  obtain ⟨hinvm, hget⟩ := hinv'.write hmem List.mem_cons_self hoff
  have hsetm : Settled { r.state with vmm := r.state.vmm.setMem m }
      (without L (r.reaped.map Prod.fst)) := hset'.same (Vmm.sameBoot_setMem ..) rfl
  have hlist := hinv'.onList_congr hinvm
  have hlisted : ∀ t, s.sched.OnList t → r.state.OnList t ∧ t ∉ r.reaped.map Prod.fst :=
    fun t ht => hm.stays_listed hterm ht
  have hesp : Sched.get { r.state with vmm := r.state.vmm.setMem m } o.pcb .esp =
      slot o.stack (i - 10) := by
    rw [hget _ (hinv'.mem_lists hmem), hpcb, hm.saves hterm huser, hin.esp, slot_sub _ hroom]
  -- the others are not touched by the push either
  have hothers : ∀ o' ∈ L, s.sched.OnList o'.pcb → o'.pcb ≠ s.sched.currentTask →
      Untouched o' s.sched.vmm.mem m := by
    intro o' ho' hl hne
    have hmem' := mem_without ho' (hlisted _ hl).2
    have hno : o.stack ∉ o'.held := fun hs => hne (by
      rw [hinv.core.eq_of_held ho' ho hs (List.mem_cons_of_mem _ List.mem_cons_self), hpcb])
    exact (hm.untouched o' ho' hl fun _ => hne).trans
      (hinv'.core.untouched_write hmem' hp.aligned hno hoff)
  have hpark : ∀ o' ∈ L, s.sched.OnList o'.pcb →
      Parked { r.state with vmm := r.state.vmm.setMem m } o' ∧
        Stores s { r.state with vmm := r.state.vmm.setMem m } o' := by
    intro o' ho' hl
    have hp' := hinvm.placed hsetm (mem_without ho' (hlisted _ hl).2)
    by_cases hne : o'.pcb = s.sched.currentTask
    · obtain rfl := h.eq_of_pcb ho' ho (hne.trans hpcb.symm)
      exact h.yielded ho' hpcb hd hin hroom hi hp' hesp (hm.pages o' ho' hl) hoff hrest hback
    · have hk := h.parked o' ho' hl hne
      have hu : Untouched o' s.sched.vmm.mem
          (Sched.vmm { r.state with vmm := r.state.vmm.setMem m }).mem := hothers o' ho' hl hne
      exact ⟨hk.congr hu, (Stores.of_parked hne).untouched hk (hinv.placed h.settled ho') hp' hu⟩
  refine .of_parked ⟨_, _, _, hinvm⟩ hsetm ?_ hidle' (fun o' ho' hl => ?_) (fun o' ho' hcur hd' => ?_)
    (cli_flags _) fun o' ho' hl _ => ?_
  · exact (hget _ (List.mem_append_left _ hinv'.tasks.current) _).trans hm.running
  · exact (hpark o' (List.mem_of_mem_filter ho') (hm.list _ ((hlist _).1 hl))).1
  · obtain ⟨hword, hne0⟩ := kernelEsp0_of_user ⟨_, _, _, hinv'⟩ hset' ho' hd'
    have hcur' : o'.pcb = r.state.currentTask := hcur
    rw [hcur'] at hword hne0
    exact (hm.esp0 hterm hne0).trans hword
  · exact ⟨mem_without ho' (hlisted _ hl).2, (hlist _).2 (hlisted _ hl).1, (hpark o' ho' hl).2⟩

/-- Marking the task that exits touches no task's stack and pages. -/
theorem SchedInv.exiting (h : SchedInv x L ts zs xs) (hset : Settled x L) :
    (∀ o ∈ L, Untouched o x.vmm.mem x.markTerminated.vmm.mem) ∧
      x.markTerminated.get x.markTerminated.currentTask .state = TaskState.terminated.code ∧
      x.markTerminated.currentTask = x.currentTask ∧ x.markTerminated.idleTask = x.idleTask ∧
      Settled x.markTerminated L := by
  obtain ⟨-, heq⟩ := h.markTerminated
  have hcur := List.mem_append_left zs h.tasks.current
  rw [heq]
  exact ⟨fun o ho => h.untouched_set ho hcur (fun e => by cases e) _ _, get_set_self .., rfl, rfl,
    hset.same (Vmm.sameBoot_setMem ..) rfl⟩

/-- The tasks that stay are not touched when the current one exits. -/
theorem SchedInv.exit_untouched (h : SchedInv x L ts zs xs) (hset : Settled x L)
    (hidle : x.currentTask ≠ x.idleTask) (hr : x.markTerminated.schedule fuel sp = some r)
    (ho : o ∈ L) (hl : x.OnList o.pcb) (hne : o.pcb ≠ x.currentTask) :
    Untouched o x.vmm.mem r.state.vmm.mem := by
  obtain ⟨hinv, -⟩ := h.markTerminated
  obtain ⟨hmark, hterm, hcur, hidl, -⟩ := h.exiting hset
  obtain ⟨-, hm⟩ := hinv.exit_moved hterm (by rwa [hcur, hidl]) hr
  exact (hmark o ho).trans (hm.untouched o ho ((h.onList_congr hinv _).2 hl) fun _ => hcur ▸ hne)

theorem Live.exit (h : Live s L) (hidle : s.sched.currentTask ≠ s.sched.idleTask)
    (hr : s.exit fuel = some (freed, s'))
    (hover : s'.sched.isUserTask s'.sched.currentTask = true →
      s'.sched.esp0 = s'.sched.get s'.sched.currentTask .kernelEsp0) :
    Next .exit s L s' (without L freed) := by
  obtain ⟨ts, zs, xs, hinv⟩ := h.inv
  obtain ⟨hinv₁, -⟩ := hinv.markTerminated
  obtain ⟨-, hterm, hcur₁, hidl₁, hset₁⟩ := hinv.exiting h.settled
  have hidle₁ : s.sched.markTerminated.currentTask ≠ s.sched.markTerminated.idleTask := by
    rwa [hcur₁, hidl₁]
  have hlist := hinv.onList_congr hinv₁
  unfold Machine.exit at hr
  rw [Option.map_eq_some_iff] at hr
  obtain ⟨r, hr, he⟩ := hr
  obtain ⟨rfl, rfl⟩ := Prod.mk.inj he
  have hkeep : ∀ o ∈ L, s.sched.OnList o.pcb → o.pcb ≠ s.sched.currentTask →
      Untouched o s.sched.vmm.mem r.state.vmm.mem := fun o ho hl hno =>
    hinv.exit_untouched h.settled hidle hr ho hl hno
  generalize s.sched.markTerminated = y at *
  have hterm' : y.hasState y.currentTask .terminated = true := hasState_iff.2 hterm
  obtain ⟨-, hm⟩ := hinv₁.exit_moved hterm hidle₁ hr
  have hok : y.ReapsOwn := fun e => by
    rw [hterm'] at e
    cases e
  obtain ⟨hinv', hset', hidle'⟩ := hinv₁.schedule_inv (.inr ⟨hterm, hidle₁⟩) hset₁ hok hr
  have hne : ∀ t, r.state.OnList t → s.sched.OnList t ∧ t ≠ s.sched.currentTask := fun t ht =>
    ⟨(hlist t).1 (hm.list t ht), fun e => hm.leaves hterm' (hcur₁ ▸ e ▸ ht)⟩
  refine .of_parked hinv' hset' hm.running (hidle'.trans hidl₁) (fun o ho hl => ?_)
    (fun o ho hpcb hd => ?_) (cli_flags _) fun o ho hl hby => ?_
  · have hmem := List.mem_of_mem_filter ho
    obtain ⟨hl', hno⟩ := hne _ hl
    exact (h.parked o hmem hl' hno).congr (hkeep o hmem hl' hno)
  · obtain ⟨hword, -⟩ := kernelEsp0_of_user hinv' hset' ho hd
    have huser : r.state.isUserTask r.state.currentTask = true := by
      obtain ⟨ts', zs', xs', hinv'⟩ := hinv'
      rw [← hpcb, (hinv'.placed hset' ho).user, hd]
    exact (hover huser).trans (hpcb ▸ hword)
  · have hno : o.pcb ≠ s.sched.currentTask := hby
    obtain ⟨hl', hf⟩ := hm.listed _ ((hlist _).2 hl) (hcur₁ ▸ hno)
    have hmem := mem_without ho hf
    obtain ⟨ts', zs', xs', hinv'⟩ := hinv'
    exact ⟨hmem, hl', (Stores.of_parked hno).untouched (h.parked o ho hl hno)
      (hinv.placed h.settled ho) (hinv'.placed hset' hmem) (hkeep o ho hl hno)⟩

/-! ## Runs -/

/-- **Every step keeps the invariant, and what the tasks that are not at work go on with.** -/
theorem Step.next {a b : Machine × List Owned} (hs : Step a e b) (h : Live a.1 a.2) :
    Next e a.1 a.2 b.1 b.2 := by
  cases hs with
  | program ho hpcb hp h3 hc3 hm => exact h.program ho hpcb hp h3 hc3 hm
  | work ho hpcb hidle h0 hw => exact h.work ho hpcb hidle h0 hw
  | boot hidle h0 hif => exact h.boot hidle h0 hif
  | fill hidle ho hp hm => exact h.fill hidle ho hp hm
  | load _ ht hu hv hslot =>
    exact h.next_quiets (h.loadPage ht hu hv hslot) (fun o ho hne => mem_recordPage ho hne)
  | launch entry stack hidle ht hu => exact h.launch hidle ht hu entry stack
  | create entry => exact h.next_quiets (h.taskCreate entry) (fun o ho _ => mem_record ho)
  | createUser entry stack =>
    exact h.next_quiets (h.taskCreateUser entry stack) (fun o ho _ => mem_record ho)
  | map phys _ hslot hcur =>
    rw [hcur]
    exact h.next_quiets (h.keeps fun xs hcore => hcore.mapKernel hslot phys pageWrite)
      (fun o ho _ => ho)
  | unmap _ _ hcur =>
    rw [hcur]
    exact h.next_quiets (h.keeps fun xs hcore => ⟨xs, hcore.unmapKernel _⟩) (fun o ho _ => ho)
  | trap h3 => exact h.trap h3
  | sysret ho hpcb hd h0 hesp => exact h.sysret ho hpcb hd h0 hesp
  | irq hon hs => exact h.irq hs hon
  | tick hon hs hok hr => exact h.tick hs hon hok hr
  | sysYield h3 hs hok hr => exact h.sysYield hs h3 hok hr
  | yield ho hpcb hidle hd hroom hok hr => exact h.yield ho hpcb hidle hd hroom hok hr
  | exit hidle _ hr hover => exact h.exit hidle hr hover

end

end HaoSys.Proc
