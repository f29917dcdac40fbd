import HaoSys.Proc.Transparent

/-!
# The frames that are switched to

Beside a run stands what was saved for each task last: the CPU at the last interrupt
or system call of a user task, the CPU behind the call of `switch_to` in a kernel
task, and the frame that a creation has laid (`Saves`). Where the steps keep to
`Step`, every switch finds it at the saved stack pointer of the task it goes to
(`switch_intact`). `Moves` are all the steps of the machine, also those that reap
what is not the zombie's, and those that leave a user task with the stack of the
task that has exited.
-/

namespace HaoSys.Proc

open HaoSys.Lib HaoSys.Mm

inductive Moves : Machine × List Owned → Event → Machine × List Owned → Prop where
  | step {a b : Machine × List Owned} {e : Event} : Step a e b → Moves a e b
  | tick {s s' : Machine} {L : List Owned} {o : Owned} {m : Mem} {fuel : Nat}
    {freed : List UInt32} : s.cpu.interruptible = true → Stops s L o m →
    s.irq0 fuel m = some (freed, s') → Moves (s, L) .tick (s', without L freed)
  | sysYield {s s' : Machine} {L : List Owned} {o : Owned} {m : Mem} {fuel : Nat}
    {freed : List UInt32} : s.cpu.ring3 = true → Stops s L o m →
    s.sysYield fuel m = some (freed, s') → Moves (s, L) .sysYield (s', without L freed)
  | yield {s s' : Machine} {L : List Owned} {o : Owned} {fuel : Nat} {freed : List UInt32} :
    o ∈ L → o.pcb = s.sched.currentTask → o.pcb ≠ s.sched.idleTask → o.dir = none →
    slot o.stack 10 ≤ s.cpu.esp → s.yield fuel = some (freed, s') →
    Moves (s, L) .yield (s', without L freed)
  | exit {s s' : Machine} {L : List Owned} {fuel : Nat} {freed : List UInt32} :
    s.sched.currentTask ≠ s.sched.idleTask → s.cpu.ring3 = false →
    s.exit fuel = some (freed, s') → Moves (s, L) .exit (s', without L freed)

/-- What was saved for each task last. -/
abbrev Saves := UInt32 → Cpu

def Event.saves (e : Event) (s s' : Machine) (l : Saves) : Saves :=
  let t := s.sched.currentTask
  match e with
  | trap | irq | tick | sysYield =>
    if s.sched.isUserTask t then Function.update l t s.cpu else l
  | yield => Function.update l t { s.cpu with eflags := 0 }
  | create | createUser =>
    let task := s'.sched.taskList
    if task = s.sched.taskList then l else Function.update l task (s'.sched.parked task)
  | program | work | sysret | exit | boot | load _ | launch _ | map | unmap => l

/-- A step with what it saves. -/
def Saving (R : Machine × List Owned → Event → Machine × List Owned → Prop)
    (x y : (Machine × List Owned) × Saves) : Prop :=
  ∃ e, R x.1 e y.1 ∧ y.2 = e.saves x.1.1 y.1.1 x.2

/-- The stack pointer of the task is at a frame on its kernel stack, and the pops of the switch to
it give `c`. -/
structure Intact (s : Sched) (o : Owned) (c : Cpu) : Prop where
  parked : Parked s o
  pops : s.parked o.pcb = c

/-- The task that a step goes to had an intact frame of what was saved for it last, and goes on with
that. -/
def GoesOn (x : (Machine × List Owned) × Saves) (s' : Machine) : Prop :=
  ∃ o ∈ x.1.2, o.pcb = s'.sched.currentTask ∧ Intact x.1.1.sched o (x.2 o.pcb) ∧
    s'.context o.pcb = x.2 o.pcb

section

variable {endAddr k : UInt32} {a b : Machine × List Owned} {s s' s₁ : Machine} {x : Sched}
  {L : List Owned} {ts zs xs : List UInt32} {o : Owned} {m : Mem} {e : Event} {fuel top i : Nat}
  {sp : UInt32} {freed : List UInt32} {r : Sched.Scheduled}

/-! ## Where a step goes -/

/-- The tasks of the list were on it, and the CPU is with the current task or has popped the frame
of another one. -/
structure Goes (s s' : Machine) : Prop where
  list : ∀ t, s'.sched.OnList t → s.sched.OnList t
  cpu : s'.sched.currentTask = s.sched.currentTask ∨ ∃ flags, s'.cpu = s'.sched.resume flags

theorem SchedInv.schedule_goes (h : SchedInv x L ts zs xs) (ha : x.Active) (hok : x.ReapsOwn)
    (hr : x.schedule fuel sp = some r) :
    (∀ t, r.state.OnList t → x.OnList t) ∧ (r.switched = false → r.state = x) := by
  cases h.schedule_outcome ha hok hr with
  | stay => exact ⟨fun t ht => ht, fun _ => rfl⟩
  | exit _ hts hinv =>
    refine ⟨fun t ht => h.onList_iff.2 ?_, fun hno => by cases hno⟩
    have hmem := hinv.onList_iff.1 ht
    rw [hts]
    grind
  | switch _ _ _ _ hinv =>
    exact ⟨fun t ht => h.onList_iff.2 (hinv.onList_iff.1 ht), fun hno => by cases hno⟩

/-- `schedule` behind a stub. -/
theorem Live.reschedule_goes (h : Live s L) (hst : Stopped s s₁ L o top i)
    (hok : s₁.sched.ReapsOwn) {back : Machine → Machine} (hback : Goes s (back s₁))
    (hr : s₁.reschedule fuel back = some (freed, s')) : Goes s s' := by
  obtain ⟨ts, zs, xs, hinv⟩ := h.inv
  unfold Machine.reschedule at hr
  rw [Option.map_eq_some_iff] at hr
  obtain ⟨r, hr, he⟩ := hr
  obtain ⟨-, rfl⟩ := Prod.mk.inj he
  obtain ⟨hlist, hstay⟩ := (hst.inv hinv).schedule_goes (.inl (hst.running h)) hok hr
  cases hsw : r.switched with
  | false =>
    rw [if_neg (by simp), hstay hsw]
    exact hback
  | true =>
    rw [if_pos rfl]
    exact ⟨fun t ht => (hst.onList h t).1 (hlist t ht), .inr ⟨_, rfl⟩⟩

theorem Stopped.goes (hst : Stopped s s₁ L o top i) (h : Live s L) : Goes s s₁.leaveKernel :=
  ⟨fun t ht => (hst.onList h t).1 ht, .inl hst.current⟩

theorem Live.trap_goes (h : Live s L) (h3 : s.cpu.ring3 = true) :
    Goes s s.enterKernel ∧ s.sched.currentTask ≠ s.sched.idleTask := by
  obtain ⟨o, ho, hpcb⟩ := h.current_entry
  have hs : Stops s L o s.enterKernel.mem := stops_enterKernel ho hpcb h3
  obtain ⟨hidle, top, i, -, hst⟩ := h.stopped hs (.inl h3)
  exact ⟨⟨fun t ht => (hst.onList h t).1 ht, .inl hst.current⟩, hpcb ▸ hidle⟩

theorem Live.tick_goes (h : Live s L) (hs : Stops s L o m) (hon : s.cpu.interruptible = true)
    (hok : (s.tick m).1 = true → (s.tick m).2.sched.ReapsOwn)
    (hr : s.irq0 fuel m = some (freed, s')) : Goes s s' := by
  obtain ⟨-, top, i, hat, hst⟩ := h.stopped hs (.inr hon)
  obtain ⟨ts, zs, xs, hinv⟩ := h.inv
  have hst₂ := hst.ticked hinv hat hs.mem (hst.inv hinv).pitTickHandler
  have htick : s.tick m = ((s.enterKernel.setMem m).sched.pitTickHandler.1,
      { s.enterKernel.setMem m with
        sched := (s.enterKernel.setMem m).sched.pitTickHandler.2 }) := rfl
  unfold Machine.irq0 at hr
  rw [htick] at hok hr
  cases hb : (s.enterKernel.setMem m).sched.pitTickHandler.1 with
  | false =>
    rw [hb] at hr
    cases hr
    exact hst₂.goes h
  | true =>
    rw [hb] at hr
    exact h.reschedule_goes hst₂ (hok hb) (hst₂.goes h) hr

theorem Live.sysYield_goes (h : Live s L) (hs : Stops s L o m) (h3 : s.cpu.ring3 = true)
    (hok : (s.enterKernel.setMem m).sched.ReapsOwn) (hr : s.sysYield fuel m = some (freed, s')) :
    Goes s s' := by
  obtain ⟨-, top, i, hat, hst⟩ := h.stopped hs (.inl h3)
  refine h.reschedule_goes hst hok ⟨fun t ht => ?_, .inl hst.current⟩ hr
  -- the store of the result
  obtain ⟨-, -, ⟨p, hp, hm⟩, -, -⟩ := h.sysYield_works hs h3
  have hlist := ((h.trap h3).live.write hs.mem hp hm).2.2.1 t
  exact (h.trap_goes h3).1.list t (hlist.1 ht)

theorem Live.yield_goes (h : Live s L) (ho : o ∈ L) (hpcb : o.pcb = s.sched.currentTask)
    (hidle : o.pcb ≠ s.sched.idleTask) (hd : o.dir = none) (hroom : slot o.stack 10 ≤ s.cpu.esp)
    (hok : s.sched.ReapsOwn) (hr : s.yield fuel = some (freed, s')) : Goes s s' := by
  obtain ⟨ts, zs, xs, hinv⟩ := h.inv
  have hp := hinv.placed h.settled ho
  obtain ⟨i, hin, hi⟩ := h.kernel_runs ho hpcb hidle hd
  rw [hin.esp, slot_le hp.aligned hp.stackEnd (by omega) hi] at hroom
  unfold Machine.yield at hr
  rw [Option.map_eq_some_iff] at hr
  obtain ⟨r, hr, he⟩ := hr
  obtain ⟨-, rfl⟩ := Prod.mk.inj he
  rcases hinv.switch_moved h.running hok hr with rfl | ⟨hsw, hm⟩
  · rw [if_neg (by simp)]
    exact ⟨fun t ht => ht, .inl rfl⟩
  rw [if_pos hsw]
  refine ⟨fun t ht => hm.list t ?_, .inr ⟨_, rfl⟩⟩
  -- `switch_to` pushes onto the stack of the task
  obtain ⟨-, hoff, -⟩ := popSwitch_pushSwitch hp.aligned hin.cs hin.ss hroom hi hin.esp
    r.state.vmm.mem
  obtain ⟨⟨ts', zs', xs', hinv'⟩, -⟩ := hinv.schedule_inv (.inl h.running) h.settled hok hr
  have hmem := mem_without ho (hpcb ▸ (hm.stays (not_terminated h.running)).2)
  exact (hinv'.onList_congr (hinv'.write hmem List.mem_cons_self hoff).1 t).1 ht

theorem Live.exit_goes (h : Live s L) (hidle : s.sched.currentTask ≠ s.sched.idleTask)
    (hr : s.exit fuel = some (freed, s')) :
    Goes s s' ∧ ¬ s'.sched.OnList s.sched.currentTask := by
  obtain ⟨ts, zs, xs, hinv⟩ := h.inv
  obtain ⟨hinv₁, -⟩ := hinv.markTerminated
  obtain ⟨-, hterm, hcur₁, hidl₁, -⟩ := hinv.exiting h.settled
  unfold Machine.exit at hr
  rw [Option.map_eq_some_iff] at hr
  obtain ⟨r, hr, he⟩ := hr
  obtain ⟨-, rfl⟩ := Prod.mk.inj he
  obtain ⟨-, hm⟩ := hinv₁.exit_moved hterm (by rwa [hcur₁, hidl₁]) hr
  refine ⟨⟨fun t ht => (hinv.onList_congr hinv₁ t).1 (hm.list t ht), .inr ⟨_, rfl⟩⟩, ?_⟩
  rw [← hcur₁]
  exact hm.leaves (hasState_iff.2 hterm)

/-- The timer switches only away from a user task. -/
theorem Live.tick_user (h : Live s L) (hs : Stops s L o m) (hon : s.cpu.interruptible = true)
    (hr : s.irq0 fuel m = some (freed, s'))
    (hne : s'.sched.currentTask ≠ s.sched.currentTask) :
    s.sched.isUserTask s.sched.currentTask = true := by
  obtain ⟨-, top, i, hat, hst⟩ := h.stopped hs (.inr hon)
  obtain ⟨ts, zs, xs, hinv⟩ := h.inv
  have hst₂ := hst.ticked hinv hat hs.mem (hst.inv hinv).pitTickHandler
  have hslice := pitTickHandler_slice (x := (s.enterKernel.setMem m).sched)
  have htick : s.tick m = ((s.enterKernel.setMem m).sched.pitTickHandler.1,
      { s.enterKernel.setMem m with
        sched := (s.enterKernel.setMem m).sched.pitTickHandler.2 }) := rfl
  unfold Machine.irq0 at hr
  rw [htick] at hr
  cases hb : (s.enterKernel.setMem m).sched.pitTickHandler.1 with
  | false =>
    rw [hb] at hr
    cases hr
    exact absurd hst₂.current hne
  | true =>
    have huser := hslice hb
    rw [hst.current, ← hs.pcb, (hst.placed hinv h.settled hs.mem).user,
      ← (hinv.placed h.settled hs.mem).user, hs.pcb] at huser
    exact huser

/-! ## What a step saves -/

/-- The events with which a frame of the current task is saved. -/
def Event.stops : Event → Bool
  | trap | irq | tick | sysYield | yield => true
  | _ => false

theorem Event.saves_of_ne {t : UInt32} (hstop : e.stops = true) (l : Saves)
    (hne : t ≠ s.sched.currentTask) : e.saves s s' l t = l t := by
  have hupdate : ∀ c, Function.update l s.sched.currentTask c t = l t := fun _ =>
    Function.update_of_ne hne ..
  cases e with
  | trap | irq | tick | sysYield =>
    change (if s.sched.isUserTask s.sched.currentTask then
      Function.update l s.sched.currentTask s.cpu else l) t = l t
    split
    · exact hupdate _
    · rfl
  | yield => exact hupdate _
  | _ => exact absurd hstop Bool.false_ne_true

theorem SchedInv.taskList_mem (h : SchedInv x L ts zs xs) : x.taskList ∈ ts := by
  have hlist := h.tasks.list
  cases ts with
  | nil => exact absurd h.tasks.current List.not_mem_nil
  | cons t ts =>
    rw [hlist.1]
    exact List.mem_cons_self

/-- A creation saves the frame of the new task, which is in front of the list. -/
theorem Live.created_saves {r : UInt32 × Sched} {t : UInt32} (h : Live s L)
    (hr : ∀ xs, Core s.sched.vmm L xs → (∃ ys, NotCreated s.sched L r ys) ∨
      ∃ o ys, Created s.sched L xs o r.2 ys) (ht : r.2.OnList t) :
    s.sched.OnList t ∧ (∀ l, Event.create.saves s { s with sched := r.2 } l t = l t) ∨
      ∀ l, Event.create.saves s { s with sched := r.2 } l t = r.2.parked t := by
  obtain ⟨ts, zs, xs, hinv⟩ := h.inv
  rcases hr xs hinv.core with ⟨ys, hno⟩ | ⟨o, ys, hc⟩
  · exact .inl ⟨(hinv.onList_congr (hinv.failed hno) t).1 ht, fun l => congrFun (if_pos hno.list) t⟩
  · have hnew : ∀ u ∈ ts ++ zs, u ≠ o.pcb := fun u hu => hc.new _ (hinv.fresh hu).inUse
    have hhead : r.2.taskList ≠ s.sched.taskList := fun e =>
      hnew _ (List.mem_append_left _ hinv.taskList_mem) (e ▸ hc.list)
    have hsaves : ∀ l, Event.create.saves s { s with sched := r.2 } l =
        Function.update l r.2.taskList (r.2.parked r.2.taskList) := fun l => if_neg hhead
    rcases List.mem_cons.1 ((hinv.created hc).onList_iff.1 ht) with rfl | ht
    · exact .inr fun l => by rw [hsaves, hc.list, Function.update_self]
    · refine .inl ⟨hinv.onList_iff.2 ht, fun l => ?_⟩
      rw [hsaves, hc.list]
      exact Function.update_of_ne (hnew t (List.mem_append_left _ ht)) ..

theorem Step.origin {t : UInt32} (hs : Step a e b) (h : Live a.1 a.2) (ht : b.1.sched.OnList t) :
    a.1.sched.OnList t ∧ (∀ l, (t = a.1.sched.currentTask → t = a.1.sched.idleTask) →
      e.saves a.1 b.1 l t = l t) ∨ ∀ l, e.saves a.1 b.1 l t = b.1.sched.parked t := by
  obtain ⟨ts, zs, xs, hinv⟩ := h.inv
  -- a frame is saved for the current task only, which is not the idle task
  have hstop : Goes a.1 b.1 → e.stops = true → a.1.sched.currentTask ≠ a.1.sched.idleTask →
      a.1.sched.OnList t ∧ ∀ l, (t = a.1.sched.currentTask → t = a.1.sched.idleTask) →
        e.saves a.1 b.1 l t = l t := fun hg hstop hidle =>
    ⟨hg.list t ht, fun l hw => Event.saves_of_ne hstop l fun e => hidle (e ▸ hw e)⟩
  cases hs with
  | program ho hpcb hp h3 hc3 hm =>
    exact .inl ⟨((h.write ho (List.mem_cons_of_mem _ hp) hm).2.2.1 t).1 ht, fun _ _ => rfl⟩
  | work ho hpcb hidle h0 hw =>
    obtain ⟨p, hp, hm⟩ := hw.page
    exact .inl ⟨((h.write ho hp hm).2.2.1 t).1 ht, fun _ _ => rfl⟩
  | boot => exact .inl ⟨ht, fun _ _ => rfl⟩
  | fill hidle ho hp hm =>
    exact .inl ⟨((h.write ho (List.mem_cons_of_mem _ hp) hm).2.2.1 t).1 ht, fun _ _ => rfl⟩
  | load _ hl hu hv hslot =>
    obtain ⟨⟨ys, hinv'⟩, -⟩ := hinv.still_loadPage hl hu hv hslot
    exact .inl ⟨(hinv.onList_congr hinv' t).1 ht, fun _ _ => rfl⟩
  | launch entry stack hidle hl hu =>
    have hinv' := hinv.launch hidle (hinv.onList_iff.1 hl) (hasState_iff.2 h.running)
    exact .inl ⟨(hinv.onList_congr hinv' t).1 ht, fun _ _ => rfl⟩
  | create entry =>
    refine (h.created_saves (fun xs hcore => (hcore.taskCreate entry).imp (fun hno => ⟨_, hno⟩) ?_)
      ht).imp_left fun ⟨hl, hsaves⟩ => ⟨hl, fun l _ => hsaves l⟩
    rintro ⟨o, -, -, -, -, -, hc⟩
    exact ⟨o, _, hc⟩
  | createUser entry stack =>
    refine (h.created_saves (fun xs hcore =>
      (hcore.taskCreateUser entry stack).imp (fun hno => ⟨_, hno⟩) ?_) ht).imp_left
        fun ⟨hl, hsaves⟩ => ⟨hl, fun l _ => hsaves l⟩
    rintro ⟨o, d, -, -, -, -, -, hc, -⟩
    exact ⟨o, _, hc⟩
  | map phys _ hslot hcur =>
    rw [hcur] at ht
    obtain ⟨⟨ys, hinv'⟩, -⟩ := hinv.still_keeps (hinv.core.mapKernel hslot phys pageWrite)
    exact .inl ⟨(hinv.onList_congr hinv' t).1 ht, fun _ _ => rfl⟩
  | unmap _ _ hcur =>
    rw [hcur] at ht
    obtain ⟨⟨ys, hinv'⟩, -⟩ := hinv.still_keeps ⟨xs, hinv.core.unmapKernel _⟩
    exact .inl ⟨(hinv.onList_congr hinv' t).1 ht, fun _ _ => rfl⟩
  | trap h3 =>
    obtain ⟨hg, hidle⟩ := h.trap_goes h3
    exact .inl (hstop hg rfl hidle)
  | sysret => exact .inl ⟨ht, fun _ _ => rfl⟩
  | irq hon hs =>
    obtain ⟨hidle, top, i, -, hst⟩ := h.stopped hs (.inr hon)
    exact .inl (hstop (hst.goes h) rfl (hs.pcb ▸ hidle))
  | tick hon hs hok hr =>
    exact .inl (hstop (h.tick_goes hs hon hok hr) rfl (hs.pcb ▸ (h.stopped hs (.inr hon)).1))
  | sysYield h3 hs hok hr =>
    exact .inl (hstop (h.sysYield_goes hs h3 hok hr) rfl (hs.pcb ▸ (h.stopped hs (.inl h3)).1))
  | yield ho hpcb hidle hd hroom hok hr =>
    exact .inl (hstop (h.yield_goes ho hpcb hidle hd hroom hok hr) rfl (hpcb ▸ hidle))
  | exit hidle _ hr => exact .inl ⟨(h.exit_goes hidle hr).1.list t ht, fun _ _ => rfl⟩

/-! ## Steps that switch -/

/-- The step pops the frame of the task it goes to, and leaves the one it has saved. -/
structure Switches (e : Event) (a b : Machine × List Owned) : Prop where
  list : ∀ t, b.1.sched.OnList t → a.1.sched.OnList t
  pops : ∃ flags, b.1.cpu = b.1.sched.resume flags
  leaves : b.1.sched.OnList a.1.sched.currentTask →
    b.1.sched.currentTask ≠ a.1.sched.currentTask →
    ∀ l, e.saves a.1 b.1 l a.1.sched.currentTask = b.1.sched.parked a.1.sched.currentTask

theorem Goes.turns (h : Goes s s') (hleaves : s'.sched.OnList s.sched.currentTask →
    s'.sched.currentTask ≠ s.sched.currentTask →
    ∀ l, e.saves s s' l s.sched.currentTask = s'.sched.parked s.sched.currentTask) :
    s'.sched.currentTask = s.sched.currentTask ∨ Switches e (s, L) (s', L') :=
  h.cpu.imp_right fun hpop => ⟨h.list, hpop, hleaves⟩

/-- What a task that is left goes on with is what it is parked with. -/
theorem Live.left (h : Live s L) (hn : Next e s L s' L') (ho : o ∈ L)
    (hpcb : o.pcb = s.sched.currentTask) (hidle : o.pcb ≠ s.sched.idleTask)
    (hby : ¬ e.by s.sched.currentTask o.pcb)
    (hne : s'.sched.currentTask ≠ s.sched.currentTask) :
    s'.sched.parked s.sched.currentTask = s.context s.sched.currentTask := by
  obtain ⟨-, -, hk⟩ := hn.kept o ho (h.onList_current hpcb) (fun _ => hidle) hby
  rw [← hpcb] at hne ⊢
  rw [← hk.context, context_of_ne hne.symm]

/-- A stub saves what its user task goes on with. -/
theorem Event.saves_user (he : e = .tick ∨ e = .sysYield)
    (hu : s.sched.isUserTask s.sched.currentTask = true) (l : Saves) :
    e.saves s s' l s.sched.currentTask = s.context s.sched.currentTask := by
  unfold Machine.context
  rw [if_pos rfl, if_pos hu]
  rcases he with rfl | rfl
  · exact (congrFun (if_pos hu) _).trans (Function.update_self ..)
  · exact (congrFun (if_pos hu) _).trans (Function.update_self ..)

/-- And so does `switch_to`. -/
theorem Event.saves_kernel (hu : s.sched.isUserTask s.sched.currentTask = false) (l : Saves) :
    Event.yield.saves s s' l s.sched.currentTask = s.context s.sched.currentTask := by
  unfold Machine.context
  rw [if_pos rfl, if_neg (by simp [hu])]
  exact Function.update_self ..

theorem Live.user_current (h : Live s L) (ho : o ∈ L) (hpcb : o.pcb = s.sched.currentTask) :
    s.sched.isUserTask s.sched.currentTask = o.dir.isSome := by
  obtain ⟨ts, zs, xs, hinv⟩ := h.inv
  rw [← hpcb, (hinv.placed h.settled ho).user]

/-- A user task is launched while the idle task runs. -/
theorem Step.launched {t : UInt32} (hs : Step a (.launch t) b) (h : Live a.1 a.2) :
    a.1.sched.currentTask = a.1.sched.idleTask ∧ b.1.sched.currentTask = t ∧
      t ≠ a.1.sched.idleTask := by
  cases hs with
  | launch entry stack hidle hl hu =>
    obtain ⟨ts, zs, xs, hinv⟩ := h.inv
    obtain ⟨o, ho, rfl, d, hd⟩ := hinv.user_entry (List.mem_append_left _ (hinv.onList_iff.1 hl)) hu
    exact ⟨hidle, rfl, h.idle_dir ho (by rw [hd]; rfl)⟩

theorem Step.turns (hs : Step a e b) (h : Live a.1 a.2) :
    b.1.sched.currentTask = a.1.sched.currentTask ∨
      (∃ t, e = .launch t) ∨ Switches e a b := by
  cases hs with
  | program | work | boot | fill | sysret => exact .inl rfl
  | load _ hl hu hv hslot => exact .inl (h.loadPage hl hu hv hslot).current
  | launch => exact .inr (.inl ⟨_, rfl⟩)
  | create entry => exact .inl (h.taskCreate entry).current
  | createUser entry stack => exact .inl (h.taskCreateUser entry stack).current
  | map phys _ hslot hcur =>
    rw [hcur]
    exact .inl (h.keeps fun xs hcore => hcore.mapKernel hslot phys pageWrite).current
  | unmap _ _ hcur =>
    rw [hcur]
    exact .inl (h.keeps fun xs hcore => ⟨xs, hcore.unmapKernel _⟩).current
  | trap h3 => exact .inl (enterKernel_current _)
  | irq hon hs =>
    obtain ⟨-, top, i, -, hst⟩ := h.stopped hs (.inr hon)
    exact .inl hst.current
  | tick hon hs hok hr =>
    refine ((h.tick_goes hs hon hok hr).turns fun _ hne l => ?_).imp_right .inr
    have hidle := (h.stopped hs (.inr hon)).1
    rw [h.left (h.tick hs hon hok hr) hs.mem hs.pcb hidle (fun e => e) hne]
    exact Event.saves_user (.inl rfl) (h.tick_user hs hon hr hne) l
  | sysYield h3 hs hok hr =>
    refine ((h.sysYield_goes hs h3 hok hr).turns fun _ hne l => ?_).imp_right .inr
    have hidle := (h.stopped hs (.inl h3)).1
    have huser := (h.user_current hs.mem hs.pcb).trans (h.user_of_ring3 hs.mem hs.pcb h3)
    rcases h.sysYield_cases hs h3 hok hr with ⟨-, rfl⟩ | hnext
    · exact absurd (enterKernel_current _) hne
    · rw [h.left (hnext .irq) hs.mem hs.pcb hidle (fun e => e) hne]
      exact Event.saves_user (.inr rfl) huser l
  | yield ho hpcb hidle hd hroom hok hr =>
    refine ((h.yield_goes ho hpcb hidle hd hroom hok hr).turns fun _ hne l => ?_).imp_right .inr
    rw [h.left (h.yield ho hpcb hidle hd hroom hok hr) ho hpcb hidle (fun e => e) hne]
    exact Event.saves_kernel ((h.user_current ho hpcb).trans (by rw [hd]; rfl)) l
  | exit hidle _ hr =>
    obtain ⟨hg, hno⟩ := h.exit_goes hidle hr
    exact (hg.turns fun hl => absurd hl hno).imp_right .inr

/-! ## Tasks that wait -/

theorem Live.quiets_parked (h : Live s L) (hq : Quiets s L x L') (ho : o ∈ L) (ho' : o ∈ L')
    (hk : Parked s.sched o) : x.parked o.pcb = s.sched.parked o.pcb := by
  obtain ⟨ts, zs, xs, hinv⟩ := h.inv
  obtain ⟨ts', zs', xs', hinv'⟩ := hq.inv
  exact hk.parked_eq (hinv.placed h.settled ho) (hinv'.placed hq.settled ho') (hq.old o ho)

/-- While the idle task runs, its frame stays. -/
theorem Step.idle_frame (hs : Step a e b) (h : Live a.1 a.2)
    (hcur : a.1.sched.currentTask = a.1.sched.idleTask) :
    b.1.sched.parked a.1.sched.currentTask = a.1.sched.parked a.1.sched.currentTask := by
  obtain ⟨o, ho, hpcb⟩ := h.current_entry
  obtain ⟨h0, hif, hk⟩ := h.idle_runs hcur ho hpcb
  have hlive := (hs.next h).live
  rw [← hpcb]
  cases hs with
  | program _ _ _ h3 => exact absurd h3 (by simp [h0])
  | work _ hpcb' hidle => exact absurd (hpcb'.trans hcur) hidle
  | boot => rfl
  | @fill s L o' p m _ ho' hp hm =>
    obtain ⟨ts, zs, xs, hinv⟩ := h.inv
    obtain ⟨ts', zs', xs', hinv'⟩ := hlive.inv
    have hp₁ := hinv.placed h.settled ho
    have hp₂ := hinv'.placed hlive.settled ho
    by_cases heq : o = o'
    · subst heq
      have hk' : Parked s.sched { o with maps := [] } := hk.alike rfl rfl rfl
      exact hk'.parked_eq ⟨hp₁.aligned, hp₁.stackEnd, hp₁.user⟩
        ⟨hp₂.aligned, hp₂.stackEnd, hp₂.user⟩ (h.fill_untouched ho hp hm)
    · obtain ⟨-, -, -, -, hothers⟩ := h.write ho' (List.mem_cons_of_mem _ hp) hm
      exact hk.parked_eq hp₁ hp₂ (hothers o ho heq)
  | load _ hl hu hv hslot =>
    refine h.quiets_parked (h.loadPage hl hu hv hslot) ho (mem_recordPage ho fun heq => ?_) hk
    obtain ⟨ts, zs, xs, hinv⟩ := h.inv
    rw [← heq, (hinv.placed h.settled ho).user] at hu
    exact h.idle_dir ho hu (hpcb.trans hcur)
  | launch entry stack _ hl =>
    obtain ⟨ts, zs, xs, hinv⟩ := h.inv
    obtain ⟨ts', zs', xs', hinv'⟩ := hlive.inv
    exact hk.parked_eq (hinv.placed h.settled ho) (hinv'.placed hlive.settled ho)
      (hinv.launch_untouched (hinv.onList_iff.1 hl) ho entry stack)
  | create entry => exact h.quiets_parked (h.taskCreate entry) ho (mem_record ho) hk
  | createUser entry stack =>
    exact h.quiets_parked (h.taskCreateUser entry stack) ho (mem_record ho) hk
  | map phys _ hslot hd =>
    rw [hd]
    exact h.quiets_parked (h.keeps fun xs hcore => hcore.mapKernel hslot phys pageWrite) ho ho hk
  | unmap _ _ hd =>
    rw [hd]
    exact h.quiets_parked (h.keeps fun xs hcore => ⟨xs, hcore.unmapKernel _⟩) ho ho hk
  | trap h3 => exact absurd h3 (by simp [h0])
  | sysret ho' hpcb' hd => exact absurd (hpcb'.trans hcur) (h.idle_dir ho' hd)
  | irq hon => exact absurd hon (by simp [hif])
  | tick hon => exact absurd hon (by simp [hif])
  | sysYield h3 => exact absurd h3 (by simp [h0])
  | yield _ hpcb' hidle => exact absurd (hpcb'.trans hcur) hidle
  | exit hidle => exact absurd hcur hidle

/-- The frame of a task that waits stays, and is popped only by a switch to it. -/
theorem Step.frame {t : UInt32} (hs : Step a e b) (h : Live a.1 a.2) (hl : a.1.sched.OnList t)
    (hw : t = a.1.sched.currentTask → t = a.1.sched.idleTask) (hno : e ≠ .launch t) :
    b.1.sched.parked t = a.1.sched.parked t := by
  by_cases hcur : t = a.1.sched.currentTask
  · subst hcur
    exact hs.idle_frame h (hw rfl)
  obtain ⟨ts, zs, xs, hinv⟩ := h.inv
  obtain ⟨o, ho, rfl⟩ := hinv.entry (List.mem_append_left _ (hinv.onList_iff.1 hl))
  have hstarts : ¬ e.starts a.1.sched.currentTask o.pcb := by
    rintro ⟨hby, hload⟩
    cases e with
    | program | work | trap | sysret | sysYield | exit | boot => exact hcur hby
    | load task => exact hload task rfl
    | launch task =>
      have htask : o.pcb = task := hby
      exact hno (htask ▸ rfl)
    | irq | tick | yield | create | createUser | map | unmap => exact hby
  obtain ⟨-, -, hctx⟩ := hs.waits h ho hl (fun e => absurd e hcur) hstarts
  rw [context_of_ne hcur] at hctx
  rw [← hctx]
  rcases hs.turns h with heq | ⟨task, rfl⟩ | hsw
  · exact (context_of_ne (heq ▸ hcur)).symm
  · refine (context_of_ne fun heq => hno ?_).symm
    rw [heq, (hs.launched h).2.1]
  · obtain ⟨flags, hpop⟩ := hsw.pops
    have hb : b.1 = ⟨b.1.sched, b.1.sched.resume flags⟩ := by rw [← hpop]
    rw [hb, context_resume]

/-! ## Runs -/

/-- Every task that waits is parked with what was saved for it last. -/
structure Tracks (x : (Machine × List Owned) × Saves) : Prop where
  live : Live x.1.1 x.1.2
  frame : ∀ t, x.1.1.sched.OnList t →
    (t = x.1.1.sched.currentTask → t = x.1.1.sched.idleTask) → x.1.1.sched.parked t = x.2 t

theorem Tracks.next {x y : (Machine × List Owned) × Saves} (h : Tracks x) (hs : Saving Step x y) :
    Tracks y := by
  obtain ⟨e, hs, hsaves⟩ := hs
  have hnext := hs.next h.live
  refine ⟨hnext.live, fun t ht hw => ?_⟩
  rw [hsaves]
  rcases hs.origin h.live ht with ⟨hl, hold⟩ | hnew
  · by_cases hwait : t = x.1.1.sched.currentTask → t = x.1.1.sched.idleTask
    · rw [hold _ hwait, ← h.frame t hl hwait]
      refine hs.frame h.live hl hwait fun he => ?_
      subst he
      obtain ⟨-, hcur, hidle⟩ := hs.launched h.live
      exact hidle (hnext.idle ▸ hw hcur.symm)
    · -- the task that was current has been left
      obtain ⟨hcur, hidle⟩ := Classical.not_imp.1 hwait
      have hne : y.1.1.sched.currentTask ≠ t := fun heq => hidle (by
        rw [← hnext.idle]
        exact hw heq.symm)
      subst hcur
      rcases hs.turns h.live with heq | ⟨task, rfl⟩ | hsw
      · exact absurd heq hne
      · exact absurd (hs.launched h.live).1 hidle
      · exact (hsw.leaves ht hne _).symm
  · exact (hnew _).symm

/-- The machine boots with nothing saved but the frame of the idle task. -/
theorem Boot.tracks (hl : Vmm.ImageLayout endAddr k) (h : Boot endAddr k a) :
    Tracks (a, a.1.sched.parked) := ⟨h.live hl, fun _ _ _ => rfl⟩

theorem Tracks.run {x y : (Machine × List Owned) × Saves} (h : Tracks x)
    (hr : Relation.ReflTransGen (Saving Step) x y) : Tracks y := by
  induction hr with
  | refl => exact h
  | tail _ hs ih => exact ih.next hs

/-- A switch goes on with what was saved for the task. -/
theorem Tracks.goesOn {x : (Machine × List Owned) × Saves} (h : Tracks x) (hs : Step x.1 e b)
    (hne : b.1.sched.currentTask ≠ x.1.1.sched.currentTask) (hno : ∀ t, e ≠ .launch t) :
    GoesOn x b.1 := by
  rcases hs.turns h.live with heq | ⟨t, ht⟩ | hsw
  · exact absurd heq hne
  · exact absurd ht (hno t)
  obtain ⟨ts', zs', xs', hinv'⟩ := (hs.next h.live).live.inv
  have hl := hsw.list _ (hinv'.onList_iff.2 hinv'.tasks.current)
  obtain ⟨ts, zs, xs, hinv⟩ := h.live.inv
  obtain ⟨o, ho, hpcb⟩ := hinv.entry (List.mem_append_left _ (hinv.onList_iff.1 hl))
  have hwait : o.pcb = x.1.1.sched.currentTask → o.pcb = x.1.1.sched.idleTask := fun heq =>
    absurd (hpcb.symm.trans heq) hne
  rw [← hpcb] at hl hne
  have hframe := h.frame o.pcb hl hwait
  refine ⟨o, ho, hpcb, ⟨h.live.parked o ho hl hne, hframe⟩, ?_⟩
  obtain ⟨flags, hpop⟩ := hsw.pops
  have hb : b.1 = ⟨b.1.sched, b.1.sched.resume flags⟩ := by rw [← hpop]
  rw [hb, context_resume, hs.frame h.live hl hwait (hno _), hframe]

/-- **Every switch of `schedule` finds, at the saved stack pointer of the task it goes to, what was
saved for the task last.** -/
theorem switch_intact (hl : Vmm.ImageLayout endAddr k) (hb : Boot endAddr k a)
    {x : (Machine × List Owned) × Saves}
    (hr : Relation.ReflTransGen (Saving Step) (a, a.1.sched.parked) x) (hs : Step x.1 e b)
    (hne : b.1.sched.currentTask ≠ x.1.1.sched.currentTask) (hno : ∀ t, e ≠ .launch t) :
    GoesOn x b.1 :=
  ((hb.tracks hl).run hr).goesOn hs hne hno

/-- Every run saves something. -/
theorem saves_along {c : Machine × List Owned} (l : Saves)
    (hr : Relation.ReflTransGen (fun a b => ∃ e, Step a e b) a c) :
    ∃ l', Relation.ReflTransGen (Saving Step) (a, l) (c, l') := by
  induction hr with
  | refl => exact ⟨l, .refl⟩
  | @tail b c _ hs ih =>
    obtain ⟨l', hr⟩ := ih
    obtain ⟨e, hs⟩ := hs
    exact ⟨e.saves b.1 c.1 l', hr.tail ⟨e, hs, rfl⟩⟩

/-- A program yields back to the kernel task that has yielded to it. -/
theorem switch_intact_round : ∃ a x b, Boot 0x102000 0x101000 a ∧
    Relation.ReflTransGen (Saving Step) (a, a.1.sched.parked) x ∧ Step x.1 .sysYield b ∧
      b.1.sched.currentTask ≠ x.1.1.sched.currentTask ∧ GoesOn x b.1 := by
  obtain ⟨c, d, b, o, ⟨a, hb, hr⟩, -, -, -, hyield, hne, hsys, hcur⟩ := small_round
  obtain ⟨l, hr⟩ := saves_along a.1.sched.parked (hr.tail ⟨_, hyield⟩)
  have hne' : b.1.sched.currentTask ≠ d.1.sched.currentTask := fun heq => hne (hcur.trans heq)
  exact ⟨a, (d, l), b, hb, hr, hsys, hne',
    switch_intact Vmm.smallLayout hb hr hsys hne' fun _ h => by cases h⟩

end

end HaoSys.Proc
