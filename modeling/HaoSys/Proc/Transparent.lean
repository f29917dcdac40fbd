import HaoSys.Proc.Program
import HaoSys.Proc.Rotation

/-!
# Runs of the machine

Over whole runs from booting, in whatever order the steps come: a task goes on with
the registers, the stack and the pages it was left with (`context_kept`), a new task
starts with the context its creator gave it (`starts_as_created`), and a program has
its registers back behind a system call and all that went on meanwhile, but for EAX
(`program_kept`).
-/

namespace HaoSys.Proc

open HaoSys.Lib HaoSys.Mm

/-- What the machine reaches once it has booted. -/
def Reached (endAddr k : UInt32) (a : Machine × List Owned) : Prop :=
  ∃ c, Boot endAddr k c ∧ Relation.ReflTransGen (fun a b => ∃ e, Step a e b) c a

/-- A step in which `t` is not at work. -/
def Apart (t : UInt32) (a b : Machine × List Owned) : Prop :=
  ∃ e, Step a e b ∧ ¬ e.by a.1.sched.currentTask t

/-- A step before `t` runs: it is not at work, but the loader may fill its pages. -/
def Before (t : UInt32) (a b : Machine × List Owned) : Prop :=
  ∃ e, Step a e b ∧ ¬ e.starts a.1.sched.currentTask t

/-- A step that is not one of the program of `t`. -/
def Behind (t : UInt32) (a b : Machine × List Owned) : Prop :=
  ∃ e, Step a e b ∧ ¬ e.changes a.1.sched.currentTask t

section

variable {endAddr k : UInt32} {a b : Machine × List Owned} {o : Owned} {s : Machine}
  {L : List Owned} {entry stack t : UInt32} {user : Bool}

/-! ## Booting -/

/-- The boot code goes on as the idle task, which is parked in its first context. -/
theorem Boot.live (hl : Vmm.ImageLayout endAddr k) (h : Boot endAddr k a) : Live a.1 a.2 := by
  cases h with
  | @init fuel magic infoAddr idleLoop m pmm c hp hne h0 hif =>
    obtain ⟨xs, hcore⟩ := core_boot hl hp
    have hset := Settled.init hl hp hne
    rcases hcore.taskCreate idleLoop with hno | ⟨o, hd, -, -, ho, -, hc⟩
    · exact absurd hno.null hne
    obtain ⟨hinv, hrun, hcur, hidle⟩ := taskInit_inv (s := bootSched pmm k) ⟨rfl, rfl⟩ hc ho hd
    have hword : ∀ f m x, f ≠ .esp → Untouched o m (storeEntry m o.pcb (Field.index f) x) :=
      fun f m x hf => hinv.untouched_set List.mem_cons_self List.mem_cons_self
        (fun e => absurd e hf) m x
    have hkeep : Untouched o ((bootSched pmm k).taskCreate idleLoop).2.vmm.mem
        ((bootSched pmm k).taskInit idleLoop).vmm.mem := by
      rw [taskInit_eq (s := bootSched pmm k) ho (ho ▸ hne)]
      exact ((hword .state _ _ (by simp)).trans (hword .kernelEsp0 _ _ (by simp))).trans
        (hword .next _ _ (by simp))
    have hpark := (hc.fresh ho hd 0).parked.congr hkeep
    rw [record_created hc ho] at hset ⊢
    refine ⟨⟨_, _, _, hinv⟩, hset, ?_, fun o' ho' hpcb => ?_, fun o' ho' _ hne' => ?_⟩
    · change ((bootSched pmm k).taskInit idleLoop).get _ .state = _
      rw [hcur]
      exact hrun
    · obtain rfl := List.mem_singleton.1 ho'
      exact .idle (hcur.symm ▸ hidle.symm) h0 hif hpark
    · obtain rfl := List.mem_singleton.1 ho'
      exact absurd hcur.symm hne'

theorem Reached.live (hl : Vmm.ImageLayout endAddr k) (h : Reached endAddr k a) : Live a.1 a.2 := by
  obtain ⟨c, hb, hr⟩ := h
  induction hr with
  | refl => exact hb.live hl
  | tail _ hs ih =>
    obtain ⟨e, hs⟩ := hs
    exact (hs.next ih).live

/-! ## New tasks -/

/-- A creation that succeeds. -/
inductive Makes (entry stack : UInt32) :
    Machine × List Owned → Bool → UInt32 → Machine × List Owned → Prop where
  | kernel {s : Machine} {L : List Owned} : s.cpu.ring3 = false →
    (s.sched.taskCreate entry).1 ≠ 0 →
    Makes entry stack (s, L) false (s.sched.taskCreate entry).1
      ({ s with sched := (s.sched.taskCreate entry).2 }, record L (s.sched.taskCreate entry))
  | user {s : Machine} {L : List Owned} : s.cpu.ring3 = false →
    (s.sched.taskCreateUser entry stack).1 ≠ 0 →
    Makes entry stack (s, L) true (s.sched.taskCreateUser entry stack).1
      ({ s with sched := (s.sched.taskCreateUser entry stack).2 },
        record L (s.sched.taskCreateUser entry stack))

/-- A new task is on the list, and parked in its first context. -/
theorem SchedInv.created_fresh {r : UInt32 × Sched} {ts zs xs ys : List UInt32}
    (hinv : SchedInv s.sched L ts zs xs) (hc : Created s.sched L xs o r.2 ys) (hr : r.1 = o.pcb)
    (hf : Fresh r.2 o entry stack) :
    o ∈ record L r ∧ r.2.OnList o.pcb ∧ o.pcb ≠ r.2.idleTask ∧
      Machine.context { s with sched := r.2 } o.pcb = firstContext o entry stack := by
  have hnew : ∀ u ∈ ts ++ zs, u ≠ o.pcb := fun u hu => hc.new _ (hinv.fresh hu).inUse
  refine ⟨?_, (hinv.created hc).onList_iff.2 List.mem_cons_self, ?_, ?_⟩
  · rw [record_created hc hr]
    exact List.mem_cons_self
  · rw [hc.old.idle]
    exact (hnew _ (List.mem_append_left _ hinv.tasks.idle)).symm
  · refine (context_of_ne ?_).trans hf.context
    change o.pcb ≠ r.2.currentTask
    rw [hc.old.current]
    exact (hnew _ (List.mem_append_left _ hinv.tasks.current)).symm

theorem Makes.step (hm : Makes entry stack a user t b) :
    ∃ e, Step a e b ∧ ∀ currentTask u, ¬ e.by currentTask u := by
  cases hm with
  | kernel h0 => exact ⟨_, .create entry h0, fun _ _ h => h⟩
  | user h0 => exact ⟨_, .createUser entry stack h0, fun _ _ h => h⟩

theorem Live.makes (h : Live a.1 a.2) (hm : Makes entry stack a user t b) :
    Live b.1 b.2 ∧ ∃ o ∈ b.2, o.pcb = t ∧ o.dir.isSome = user ∧ b.1.sched.OnList t ∧
      t ≠ b.1.sched.idleTask ∧ b.1.context t = firstContext o entry stack := by
  obtain ⟨ts, zs, xs, hinv⟩ := h.inv
  cases hm with
  | kernel h0 hne =>
    refine ⟨((Step.create entry h0).next h).live, ?_⟩
    rcases hinv.core.taskCreate entry with hno | ⟨o, hd, -, -, ho, -, hc⟩
    · exact absurd hno.null hne
    · obtain ⟨hmem, hl, hid, hctx⟩ :=
        hinv.created_fresh hc ho (hc.fresh ho hd stack)
      rw [ho]
      exact ⟨o, hmem, rfl, by rw [hd]; rfl, hl, hid, hctx⟩
  | user h0 hne =>
    refine ⟨((Step.createUser entry stack h0).next h).live, ?_⟩
    rcases hinv.core.taskCreateUser entry stack with hno | ⟨o, d, hd, -, -, -, ho, hc, -⟩
    · exact absurd hno.null hne
    · have hsome : o.dir.isSome = true := by rw [hd]; rfl
      obtain ⟨hmem, hl, hid, hctx⟩ :=
        hinv.created_fresh hc ho (hc.fresh_user ho hsome)
      rw [ho]
      exact ⟨o, hmem, rfl, hsome, hl, hid, hctx⟩

/-! ## First contexts -/

/-- The page that the loader gets for a task changes nothing of the task's stack. -/
theorem Live.load_context (h : Live s L) {virt : UInt32} (ho : o ∈ L) (hl : s.sched.OnList o.pcb)
    (hu : s.sched.isUserTask o.pcb = true) (hv : virt.toNat % 4096 = 0)
    (hslot : Loadable s.sched.vmm virt) :
    (∃ o' ∈ recordPage L s.sched o.pcb virt, o'.pcb = o.pcb ∧ o'.stack = o.stack ∧ o'.dir = o.dir) ∧
      (s.sched.loadPage o.pcb virt).OnList o.pcb ∧
      Machine.context { s with sched := s.sched.loadPage o.pcb virt } o.pcb = s.context o.pcb := by
  have hq := h.loadPage hl hu hv hslot
  have hentry : ∃ o' ∈ recordPage L s.sched o.pcb virt,
      o'.pcb = o.pcb ∧ o'.stack = o.stack ∧ o'.dir = o.dir := by
    unfold recordPage
    split
    · exact ⟨o, ho, rfl, rfl, rfl⟩
    · exact ⟨_, List.mem_map.2 ⟨o, ho, if_pos rfl⟩, rfl, rfl, rfl⟩
  refine ⟨hentry, hq.list _ hl, ?_⟩
  obtain ⟨o', ho', hpcb, hstack, hdir⟩ := hentry
  obtain ⟨ts, zs, xs, hinv⟩ := hq.inv
  have hp' := hinv.placed hq.settled ho'
  have hp : Placed (s.sched.loadPage o.pcb virt) o := by
    refine ⟨hstack ▸ hp'.aligned, hstack ▸ hp'.stackEnd, ?_⟩
    rw [← hdir, ← hp'.user, hpcb]
  have hk : Kept s { s with sched := s.sched.loadPage o.pcb virt } o :=
    h.kept ho hl hq.current (fun _ => rfl) hp (hq.old o ho)
  exact hk.context

/-- The loader's writes to the user pages of a task change nothing of its stack. -/
theorem Live.fill_context (h : Live s L) {p : UInt32} {m : Mem} (ho : o ∈ L)
    (hl : s.sched.OnList o.pcb) (hne : o.pcb ≠ s.sched.currentTask) (hp : p ∈ o.maps.map Prod.snd)
    (hm : ∀ a, addrToIndex a ≠ addrToIndex p → m a = s.mem a) :
    (s.setMem m).sched.OnList o.pcb ∧ (s.setMem m).context o.pcb = s.context o.pcb := by
  obtain ⟨⟨ts, zs, xs, hinv, hinv'⟩, hset, hlist, -, -⟩ := h.write ho (List.mem_cons_of_mem _ hp) hm
  have hpark : Parked s.sched { o with maps := [] } := (h.parked o ho hl hne).alike rfl rfl rfl
  have hplaced := hinv.placed h.settled ho
  have hplaced' := hinv'.placed hset ho
  refine ⟨(hlist _).2 hl, ?_⟩
  rw [context_of_ne hne, context_of_ne (s := s.setMem m) hne]
  exact hpark.parked_eq ⟨hplaced.aligned, hplaced.stackEnd, hplaced.user⟩
    ⟨hplaced'.aligned, hplaced'.stackEnd, hplaced'.user⟩ (h.fill_untouched ho hp hm)

/-- A task that waits for its first run. -/
theorem Step.waits {e : Event} (hs : Step a e b) (h : Live a.1 a.2) (ho : o ∈ a.2)
    (hl : a.1.sched.OnList o.pcb)
    (hidle : o.pcb = a.1.sched.currentTask → o.pcb ≠ a.1.sched.idleTask)
    (hno : ¬ e.starts a.1.sched.currentTask o.pcb) :
    (∃ o' ∈ b.2, o'.pcb = o.pcb ∧ o'.stack = o.stack ∧ o'.dir = o.dir) ∧
      b.1.sched.OnList o.pcb ∧ b.1.context o.pcb = a.1.context o.pcb := by
  by_cases hby : e.by a.1.sched.currentTask o.pcb
  · -- its pages are filled
    obtain ⟨task, rfl⟩ : ∃ task, e = .load task := by
      by_contra hne
      exact hno ⟨hby, fun task he => hne ⟨task, he⟩⟩
    have htask : o.pcb = task := hby
    cases hs with
    | load _ _ hu hv hslot =>
      rw [← htask] at hu ⊢
      exact h.load_context ho hl hu hv hslot
    | fill hcur ho' hp hm =>
      obtain rfl := h.eq_of_pcb ho ho' htask
      exact ⟨⟨o, ho, rfl, rfl, rfl⟩, h.fill_context ho hl (fun e => hidle e (e.trans hcur)) hp hm⟩
  · obtain ⟨ho', hl', hk⟩ := (hs.next h).kept o ho hl hidle hby
    exact ⟨⟨o, ho', rfl, rfl, rfl⟩, hl', hk.context⟩

/-- A new task that has not run yet. -/
theorem Live.unstarted (h : Live a.1 a.2) {c : Machine × List Owned}
    (hm : Makes entry stack a user t b) (hr : Relation.ReflTransGen (Before t) b c) :
    Live c.1 c.2 ∧ t ≠ c.1.sched.idleTask ∧ ∃ o ∈ c.2, o.pcb = t ∧ o.dir.isSome = user ∧
      c.1.sched.OnList t ∧ c.1.context t = firstContext o entry stack := by
  obtain ⟨hlive, o, ho, rfl, hu, hlist, hidle, hctx⟩ := h.makes hm
  induction hr with
  | refl => exact ⟨hlive, hidle, o, ho, rfl, hu, hlist, hctx⟩
  | tail _ hs ih =>
    obtain ⟨hlive, hidle, o', ho', hpcb, hu', hl', hctx'⟩ := ih
    obtain ⟨e, hs, hno⟩ := hs
    rw [← hpcb] at hl' hctx' hidle hno
    obtain ⟨⟨o₂, ho₂, hpcb₂, hstack₂, hdir₂⟩, hl₂, hctx₂⟩ :=
      hs.waits hlive ho' hl' (fun _ => hidle) hno
    have hnext := hs.next hlive
    rw [hpcb] at hl₂ hctx₂ hctx' hidle
    refine ⟨hnext.live, hnext.idle ▸ hidle, o₂, ho₂, hpcb₂.trans hpcb, hdir₂ ▸ hu', hl₂, ?_⟩
    rw [hctx₂, hctx']
    unfold firstContext
    rw [hstack₂, hdir₂]

/-! ## Two tasks that take turns -/

/-- The current task runs, and `u` is the only other task that is ready; there are no zombies. -/
structure Awaits (x : Sched) (L : List Owned) (u : UInt32) : Prop where
  inv : ∃ ts xs, SchedInv x L ts [] xs
  running : x.get x.currentTask .state = TaskState.running.code
  listed : x.OnList u
  ready : x.get u .state = TaskState.ready.code
  only : ∀ t, x.OnList t → x.get t .state = TaskState.ready.code → t = u

theorem Awaits.ne {x : Sched} {u : UInt32} (h : Awaits x L u) : u ≠ x.currentTask := fun e => by
  have hst := h.ready
  rw [e, h.running] at hst
  exact absurd hst (by decide)

theorem Awaits.reapsOwn {x : Sched} {u : UInt32} (h : Awaits x L u) : x.ReapsOwn := by
  obtain ⟨ts, xs, hinv⟩ := h.inv
  exact fun _ _ _ hz => absurd (hinv.zombie_iff.1 hz) List.not_mem_nil

/-- `schedule` goes to the ready task. -/
theorem Awaits.schedule {x : Sched} {u : UInt32} (h : Awaits x L u) (sp : UInt32) :
    x.schedule 0 sp = some ⟨[], true, x.enter sp u⟩ := by
  obtain ⟨ts, xs, hinv⟩ := h.inv
  obtain ⟨l, r, rfl⟩ := List.append_of_mem hinv.tasks.current
  have hlist : ∀ t, x.OnList t ↔ t ∈ l ++ x.currentTask :: r := fun t => hinv.onList_iff
  have hfind : ((r ++ l).find? fun t => x.hasState t .ready) = some u := by
    have hmem : u ∈ r ++ l := by
      have := (hlist u).1 h.listed
      have := h.ne
      grind
    cases hf : (r ++ l).find? fun t => x.hasState t .ready with
    | none =>
      have hno := List.find?_eq_none.1 hf u hmem
      rw [hasState_iff] at hno
      exact absurd h.ready hno
    | some t =>
      have ht : t ∈ l ++ x.currentTask :: r := by
        have := List.mem_of_find?_eq_some hf
        grind
      have hst : x.hasState t .ready = true := by
        have := List.find?_some hf
        exact this
      exact congrArg some (h.only t ((hlist t).2 ht) (hasState_iff.1 hst))
  have hzombies : x.zombieList = 0 := hinv.tasks.zombies
  unfold Sched.schedule Sched.switchTo
  rw [if_neg hinv.current_ne_zero, if_neg (by simp [not_terminated h.running]), hinv.findNext_eq,
    hfind]
  simp only [show Sched.reapZombies 0 x = some ([], x) from if_pos hzombies, Option.map_some]

/-- Behind the switch the task that made the call is the ready one. -/
theorem Awaits.enter {x : Sched} {u : UInt32} (h : Awaits x L u) (sp : UInt32) :
    Awaits (x.enter sp u) L x.currentTask ∧ (x.enter sp u).currentTask = u := by
  obtain ⟨ts, xs, hinv⟩ := h.inv
  obtain ⟨hinv', hsw, -⟩ := hinv.enter sp (hinv.onList_iff.1 h.listed)
  have hcur := hsw.current
  rw [List.append_nil] at hsw
  have hne := h.ne
  generalize x.enter sp u = x' at hinv' hsw hcur ⊢
  have hlist : ∀ t, x'.OnList t ↔ x.OnList t := hinv.onList_congr hinv'
  refine ⟨⟨⟨ts, xs, hinv'⟩, hcur ▸ hsw.running, (hlist _).2 (hinv.onList_iff.2 hinv.tasks.current), ?_,
    fun t ht hst => ?_⟩, hcur⟩
  · rw [hsw.states _ hinv.tasks.current hne.symm, if_pos rfl]
  · have htu : t ≠ u := fun e => by
      rw [e, hsw.running] at hst
      exact absurd hst (by decide)
    rw [hsw.states t (hinv'.onList_iff.1 ht) htu] at hst
    by_contra hne
    rw [if_neg hne] at hst
    exact htu (h.only t ((hlist t).1 ht) hst)

/-- The states of the tasks say who is waited for. -/
theorem Awaits.congr {x x' : Sched} {u : UInt32} (h : Awaits x L u)
    (hinv : ∀ {ts xs}, SchedInv x L ts [] xs → SchedInv x' L ts [] xs)
    (hcur : x'.currentTask = x.currentTask)
    (hstates : ∀ t, x.OnList t → x'.get t .state = x.get t .state) : Awaits x' L u := by
  obtain ⟨ts, xs, h₀⟩ := h.inv
  have hlist : ∀ t, x'.OnList t ↔ x.OnList t := h₀.onList_congr (hinv h₀)
  refine ⟨⟨ts, xs, hinv h₀⟩, ?_, (hlist u).2 h.listed, (hstates u h.listed).trans h.ready,
    fun t ht hst => ?_⟩
  · rw [hcur, hstates _ (h₀.onList_iff.2 h₀.tasks.current)]
    exact h.running
  · rw [hstates t ((hlist t).1 ht)] at hst
    exact h.only t ((hlist t).1 ht) hst

/-- A program yields to the ready task; it keeps what it goes on with. -/
theorem Live.sysYield_to {u : UInt32} (h : Live s L) (hw : Awaits s.sched L u) (ho : o ∈ L)
    (hpcb : o.pcb = s.sched.currentTask) (h3 : s.cpu.ring3 = true) :
    ∃ s', Step (s, L) .sysYield (s', L) ∧ Awaits s'.sched L o.pcb ∧ s'.sched.currentTask = u ∧
      Kept s s' o := by
  have hs : Stops s L o s.enterKernel.mem := stops_enterKernel ho hpcb h3
  obtain ⟨hidle, top, b, -, hst⟩ := h.stopped hs (.inl h3)
  have hw₁ := hw.congr hst.inv hst.current hst.states
  have hcall := hw₁.schedule (s.enterKernel.setMem s.enterKernel.mem).cpu.esp
  obtain ⟨hw', hcur'⟩ := hw₁.enter (s.enterKernel.setMem s.enterKernel.mem).cpu.esp
  rw [hst.current, ← hpcb] at hw'
  generalize (s.enterKernel.setMem s.enterKernel.mem).sched.enter _ u = x at hcall hw' hcur'
  have hrun : s.sysYield 0 s.enterKernel.mem =
      some ([], ⟨x, x.resume (s.enterKernel.setMem s.enterKernel.mem).cpu.eflags⟩) := by
    unfold Machine.sysYield Machine.reschedule
    rw [hcall]
    rfl
  have hstep : Step (s, L) .sysYield (_, without L []) := .sysYield h3 hs hw₁.reapsOwn hrun
  rw [without_nil] at hstep
  refine ⟨_, hstep, hw', hcur', ?_⟩
  rcases h.sysYield_cases hs h3 hw₁.reapsOwn hrun with ⟨-, heq⟩ | hnext
  · exact absurd (congrArg (fun s : Machine => s.sched.currentTask) heq) fun e => hw₁.ne <|
      hcur'.symm.trans e
  · exact ((hnext .irq).kept o ho (h.onList_current hpcb) (fun _ => hidle) fun e => e).2.2

/-- A kernel task yields to the ready task. -/
theorem Live.yield_to {u : UInt32} (h : Live s L) (hw : Awaits s.sched L u) (ho : o ∈ L)
    (hpcb : o.pcb = s.sched.currentTask) (hidle : o.pcb ≠ s.sched.idleTask) (hd : o.dir = none)
    (hroom : slot o.stack 10 ≤ s.cpu.esp) :
    ∃ s', Step (s, L) .yield (s', L) ∧ Awaits s'.sched L o.pcb ∧ s'.sched.currentTask = u := by
  obtain ⟨ts, zs, xs, hinv⟩ := h.inv
  obtain ⟨i, hin, hi⟩ := h.kernel_runs ho hpcb hidle hd
  have hp := hinv.placed h.settled ho
  have hlow := hroom
  rw [hin.esp, slot_le hp.aligned hp.stackEnd (by omega) hi] at hlow
  have hcall := hw.schedule (s.cpu.esp - 40)
  obtain ⟨hw', hcur'⟩ := hw.enter (s.cpu.esp - 40)
  rw [← hpcb] at hw'
  generalize s.sched.enter (s.cpu.esp - 40) u = x at hcall hw' hcur'
  generalize hm : (pushSwitch s.cpu x.vmm.mem).2 = m
  have hrun : s.yield 0 = some ([], ⟨{ x with vmm := x.vmm.setMem m },
      Sched.resume { x with vmm := x.vmm.setMem m } s.cpu.cli.eflags⟩) := by
    unfold Machine.yield
    rw [hcall, ← hm]
    rfl
  have hstep : Step (s, L) .yield (_, without L []) := .yield ho hpcb hidle hd hroom hw.reapsOwn hrun
  rw [without_nil] at hstep
  refine ⟨_, hstep, ?_, hcur'⟩
  -- `switch_to` pushes onto the stack of the task
  obtain ⟨-, hoff, -⟩ := popSwitch_pushSwitch hp.aligned hin.cs hin.ss hlow hi hin.esp
    x.vmm.mem
  rw [hm] at hoff
  refine hw'.congr (fun h' => (h'.write ho List.mem_cons_self hoff).1) rfl fun t ht => ?_
  obtain ⟨ts', xs', hinv'⟩ := hw'.inv
  exact (hinv'.write ho List.mem_cons_self hoff).2 t
    (List.mem_append_left _ (hinv'.onList_iff.1 ht)) _

/-! ## A run of the small machine -/

/-- A machine boots with its idle task, and has the other pages free. -/
theorem boot_pages (hl : Vmm.ImageLayout endAddr k) {fuel : Nat} {magic infoAddr : UInt32} {m : Mem}
    {pmm : Pmm} (hp : Pmm.pmmInit fuel endAddr magic infoAddr m = some pmm)
    (hfree : 2 ≤ (bootSched pmm k).vmm.pmm.freePages.toNat)
    (hbit : (bootSched pmm k).vmm.pmm.getPageBit 0 = false) :
    ∃ x e q xs, Boot endAddr k (⟨x, ⟨.clear, 0, 0x08, 0, 0, 0x10⟩⟩, [⟨e, q, none, []⟩]) ∧
      SchedInv x [⟨e, q, none, []⟩] [e] [] xs ∧ x.currentTask = e ∧ x.idleTask = e ∧
      xs.length + 2 = (bootSched pmm k).vmm.pmm.freePages.toNat ∧ ∀ i ∈ xs, indexToAddr i ≠ 0 := by
  obtain ⟨us, hcore⟩ := core_boot hl hp
  have hcount := hcore.inv.pmm.count
  have hroom : ∀ i ∈ us, indexToAddr i ≠ 0 := fun i => hcore.inv.pmm.indexToAddr_ne_zero hbit
  obtain ⟨x₁, x₂, xs, rfl⟩ : ∃ x₁ x₂ xs, us = x₁ :: x₂ :: xs := by
    rw [hcount] at hfree
    match us, hfree with
    | x₁ :: x₂ :: xs, _ => exact ⟨x₁, x₂, xs, rfl⟩
  obtain ⟨hr, -, hc⟩ := hcore.taskCreate_pages (hroom x₁ (by simp)) (hroom x₂ (by simp))
    (show (1 : UInt32) ≠ 0 by decide)
  have hne : ((bootSched pmm k).taskCreate 1).1 ≠ 0 := hr ▸ hroom x₁ (by simp)
  obtain ⟨hinv, -, hcur, hidle⟩ := taskInit_inv (s := bootSched pmm k) ⟨rfl, rfl⟩ hc hr rfl
  have hboot : Boot endAddr k _ := .init hp hne
    (show Cpu.ring3 ⟨.clear, 0, 0x08, 0, 0, 0x10⟩ = false by decide) (by decide)
  rw [record_created hc hr] at hboot
  exact ⟨_, _, _, xs, hboot, hinv, hcur, hidle, hcount.symm, fun i hi => hroom i (by simp [hi])⟩

/-- With seven free pages it makes a kernel task and a user task. -/
theorem boot_created (hl : Vmm.ImageLayout endAddr k) {fuel : Nat} {magic infoAddr : UInt32} {m : Mem}
    {pmm : Pmm} (hp : Pmm.pmmInit fuel endAddr magic infoAddr m = some pmm)
    (hfree : 7 ≤ (bootSched pmm k).vmm.pmm.freePages.toNat)
    (hbit : (bootSched pmm k).vmm.pmm.getPageBit 0 = false) :
    ∃ a u b p c, Reached endAddr k a ∧ Makes 1 1 a false u b ∧ Makes 1 1 b true p c ∧
      c.1.sched.currentTask = c.1.sched.idleTask ∧
      ∃ xs, SchedInv c.1.sched c.2 [p, u, c.1.sched.idleTask] [] xs := by
  obtain ⟨x, e, q, xs, hboot, hinv, hcur, hidle, hlen, hroom⟩ := boot_pages hl hp (by omega) hbit
  obtain ⟨x₃, x₄, x₅, x₆, x₇, xs, rfl⟩ : ∃ x₃ x₄ x₅ x₆ x₇ us,
      xs = x₃ :: x₄ :: x₅ :: x₆ :: x₇ :: us := by
    have hfive : 5 ≤ xs.length := by omega
    match xs, hfive with
    | x₃ :: x₄ :: x₅ :: x₆ :: x₇ :: us, _ => exact ⟨x₃, x₄, x₅, x₆, x₇, us, rfl⟩
  have hone : (1 : UInt32) ≠ 0 := by decide
  have h0 : Cpu.ring3 ⟨.clear, 0, 0x08, 0, 0, 0x10⟩ = false := by decide
  -- the kernel task
  obtain ⟨hr₁, -, hc₁⟩ := hinv.core.taskCreate_pages (hroom x₃ (by simp)) (hroom x₄ (by simp)) hone
  have hmakes : Makes 1 1 (⟨x, ⟨.clear, 0, 0x08, 0, 0, 0x10⟩⟩, _) false _ _ :=
    .kernel (L := [⟨e, q, none, []⟩]) h0 (hr₁ ▸ hroom x₃ (by simp))
  have hinv₁ := hinv.created hc₁
  rw [record_created hc₁ hr₁, hr₁] at hmakes
  have hcur₁ := hc₁.old.current
  have hidle₁ := hc₁.old.idle
  generalize (x.taskCreate 1).2 = x' at hinv₁ hmakes hcur₁ hidle₁
  -- the user task
  have hmade := hinv₁.core.taskCreateUser_ne_zero (hroom x₅ (by simp)) (hroom x₆ (by simp))
    (hroom x₇ (by simp)) hone hone
  have hmakes' : Makes 1 1 (⟨x', ⟨.clear, 0, 0x08, 0, 0, 0x10⟩⟩, _) true _ _ :=
    .user (L := [⟨indexToAddr x₃, indexToAddr x₄, none, []⟩, ⟨e, q, none, []⟩]) h0 hmade
  refine ⟨_, _, _, _, _, ⟨_, hboot, .refl⟩, hmakes, hmakes', ?_⟩
  rcases hinv₁.core.taskCreateUser 1 1 with hno | ⟨o, d, -, -, -, -, hr₂, hc₂, -⟩
  · exact absurd hno.null hmade
  have hinv₂ := hinv₁.created hc₂
  rw [← hr₂] at hinv₂
  have hid : (x'.taskCreateUser 1 1).2.idleTask = e :=
    hc₂.old.idle.trans (hidle₁.trans hidle)
  refine ⟨?_, xs, ?_⟩
  · exact hc₂.old.current.trans ((hcur₁.trans hcur).trans hid.symm)
  · rw [record_created hc₂ hr₂, hid]
    exact hinv₂

theorem small_created : ∃ a u b p c, Reached 0x102000 0x101000 a ∧ Makes 1 1 a false u b ∧
    Makes 1 1 b true p c ∧ c.1.sched.currentTask = c.1.sched.idleTask ∧
    ∃ xs, SchedInv c.1.sched c.2 [p, u, c.1.sched.idleTask] [] xs := by
  obtain ⟨hfree, hbit, -⟩ := small_boot_facts
  exact boot_created Vmm.smallLayout smallPmm_init (hfree ▸ by decide) hbit

/-- The user task runs, with interrupts on, and the kernel task is ready. -/
theorem small_program : ∃ a u b c o, Reached 0x102000 0x101000 a ∧ Makes 1 1 a false u b ∧
    Relation.ReflTransGen (Before u) b c ∧ Reached 0x102000 0x101000 c ∧ o ∈ c.2 ∧
    o.dir.isSome = true ∧ o.pcb = c.1.sched.currentTask ∧ c.1.cpu.ring3 = true ∧
    c.1.cpu.interruptible = true ∧ Awaits c.1.sched c.2 u := by
  obtain ⟨a, u, b, p, c, ha, hu, hp, hidle, xs, hinv⟩ := small_created
  obtain ⟨e₁, hs₁, -⟩ := hu.step
  obtain ⟨e₂, hs₂, hno₂⟩ := hp.step
  have hlive := ((hs₁.next (ha.live Vmm.smallLayout)).live)
  obtain ⟨hlive', o, ho, rfl, hd, hl, -⟩ := hlive.makes hp
  have hnd := hinv.nodup
  rw [List.append_nil] at hnd
  have huser : c.1.sched.isUserTask o.pcb = true := (hinv.placed hlive'.settled ho).user.trans hd
  have hlaunch : Step c (.launch o.pcb) (c.1.launch o.pcb 1 1, c.2) := .launch 1 1 hidle hl huser
  have hpu : u ≠ o.pcb := by
    rintro rfl
    simp at hnd
  obtain ⟨c₀, hboot, hrun⟩ := ha
  refine ⟨a, u, b, (c.1.launch o.pcb 1 1, c.2), o, ⟨c₀, hboot, hrun⟩, hu,
    (Relation.ReflTransGen.single ⟨e₂, hs₂, fun h => hno₂ _ _ h.1⟩).tail ⟨_, hlaunch, fun h => hpu h.1⟩,
    ⟨c₀, hboot, ((hrun.tail ⟨e₁, hs₁⟩).tail ⟨e₂, hs₂⟩).tail ⟨_, hlaunch⟩⟩, ho, hd, rfl, ?_, ?_, ?_⟩
  · exact decide_eq_true (by decide : (0x1B : UInt32) &&& 3 = 3)
  · exact decide_eq_true (by decide : (0x200 : UInt32) &&& 0x200 ≠ 0)
  -- the idle task keeps its state
  have hmem := hinv.onList_iff.1 hl
  have hinv' := hinv.launch hidle hmem (hasState_iff.2 hlive'.running)
  have hword := fun t ht => hinv.launch_words hmem (u := t) ht .state
  refine ⟨⟨_, _, hinv'⟩, ?_, hinv'.onList_iff.2 (by simp), ?_, fun t ht hst => ?_⟩
  · exact (hword o.pcb (by simp)).trans (if_pos ⟨rfl, rfl⟩)
  · refine (hword u (by simp)).trans ?_
    rw [if_neg fun e => hpu e.1]
    have hui : u ≠ c.1.sched.idleTask := fun e => by
      rw [e] at hnd
      simp at hnd
    exact (hinv.tasks.ready u (by simp) (hidle ▸ hui)).resolve_right fun h => hui h.1
  · have htmem := hinv'.onList_iff.1 ht
    have hw := hword t (List.mem_append_left _ htmem)
    have hcase : t = o.pcb ∨ t = u ∨ t = c.1.sched.idleTask := by simpa using htmem
    rcases hcase with rfl | rfl | rfl
    · rw [if_pos ⟨rfl, rfl⟩] at hw
      exact absurd (hw.symm.trans hst) (by decide)
    · rfl
    · have hrunning := hlive'.running
      rw [hidle] at hrunning
      rw [if_neg (fun e => hlive'.idle_dir ho hd e.1.symm), hrunning] at hw
      exact absurd (hw.symm.trans hst) (by decide)

/-- A program that was made and launched meanwhile yields to the new kernel task. -/
theorem small_switch : ∃ a u b c p, Reached 0x102000 0x101000 a ∧ Makes 1 1 a false u b ∧
    Relation.ReflTransGen (Before u) b c ∧ Reached 0x102000 0x101000 c ∧ c.1.sched.currentTask = u ∧
    p ∈ c.2 ∧ p.dir.isSome = true ∧ Awaits c.1.sched c.2 p.pcb ∧ (c.1.context p.pcb).ring3 = true := by
  obtain ⟨a, u, b, c, o, ha, hm, hr, hc, ho, hd, hpcb, h3, -, hw⟩ := small_program
  have hlive := hc.live Vmm.smallLayout
  obtain ⟨s', hstep, hw', hcur, hk⟩ := hlive.sysYield_to hw ho hpcb h3
  obtain ⟨c₀, hboot, hrun⟩ := hc
  refine ⟨a, u, b, (s', c.2), o, ha, hm, hr.tail ⟨_, hstep, fun h => hw.ne h.1⟩,
    ⟨c₀, hboot, hrun.tail ⟨_, hstep⟩⟩, hcur, ho, hd, hw', ?_⟩
  obtain ⟨ts, zs, xs, hinv⟩ := hlive.inv
  rw [hk.context]
  unfold Machine.context
  rw [if_pos hpcb, if_pos ((hinv.placed hlive.settled ho).user.trans hd)]
  exact h3

/-- It yields back, and the program does so again. -/
theorem small_round : ∃ a b c o, Reached 0x102000 0x101000 a ∧ o ∈ a.2 ∧
    o.pcb = a.1.sched.currentTask ∧ o.pcb ≠ a.1.sched.idleTask ∧ Step a .yield b ∧
    o.pcb ≠ b.1.sched.currentTask ∧ Step b .sysYield c ∧ o.pcb = c.1.sched.currentTask := by
  obtain ⟨a₀, u, b₀, a, p, ha₀, hm, hr, ha, hcur, hp, hpd, hw, h3⟩ := small_switch
  obtain ⟨hlive, hidle, o, ho, rfl, hd, hl, hctx⟩ := (ha₀.live Vmm.smallLayout).unstarted hm hr
  have hno : o.dir = none := by
    cases hdir : o.dir with
    | none => rfl
    | some d => rw [hdir] at hd; cases hd
  obtain ⟨ts, zs, xs, hinv⟩ := hlive.inv
  have hplaced := hinv.placed hlive.settled ho
  -- its stack is empty
  have hesp : a.1.cpu.esp = slot o.stack 1024 := by
    unfold Machine.context firstContext at hctx
    rw [if_pos hcur.symm, hplaced.user, hno, if_neg (by simp), if_neg (by simp)] at hctx
    have htop := congrArg Cpu.esp hctx
    simp only at htop
    exact htop
  have hroom : slot o.stack 10 ≤ a.1.cpu.esp := by
    rw [hesp, slot_le hplaced.aligned hplaced.stackEnd (by omega) (by omega)]
    omega
  obtain ⟨s₁, hyield, hw₁, hcur₁⟩ := hlive.yield_to hw ho hcur.symm hidle hno hroom
  have hnext := hyield.next hlive
  -- the program goes on where it was
  obtain ⟨hp₁, -, hk⟩ := hnext.kept p hp hw.listed (fun _ => hlive.idle_dir hp hpd) fun h => h
  have hlive₁ : Live s₁ a.2 := hnext.live
  obtain ⟨ts₁, zs₁, xs₁, hinv₁⟩ := hlive₁.inv
  have h3₁ : s₁.cpu.ring3 = true := by
    rw [← hk.context] at h3
    unfold Machine.context at h3
    rwa [if_pos hcur₁.symm, if_pos ((hinv₁.placed hlive₁.settled hp).user.trans hpd)] at h3
  obtain ⟨s₂, hsys, -, hcur₂, -⟩ := hlive₁.sysYield_to hw₁ hp hcur₁.symm h3₁
  exact ⟨a, (s₁, a.2), (s₂, a.2), o, ha, ho, hcur.symm, hidle, hyield, hw₁.ne, hsys, hcur₂.symm⟩

/-! ## The other tasks -/

/-- The induction over the steps in which a task is not at work. -/
theorem Live.apart (h : Live a.1 a.2) (ho : o ∈ a.2) (hl : a.1.sched.OnList o.pcb)
    (hidle : o.pcb ≠ a.1.sched.idleTask) (hr : Relation.ReflTransGen (Apart o.pcb) a b) :
    Live b.1 b.2 ∧ b.1.sched.idleTask = a.1.sched.idleTask ∧ o ∈ b.2 ∧
      b.1.sched.OnList o.pcb ∧ Kept a.1 b.1 o := by
  induction hr with
  | refl => exact ⟨h, rfl, ho, hl, .refl ..⟩
  | tail _ hs ih =>
    obtain ⟨hlive, hid, ho, hl, hk⟩ := ih
    obtain ⟨e, hs, hby⟩ := hs
    have hnext := hs.next hlive
    obtain ⟨ho', hl', hk'⟩ := hnext.kept o ho hl (fun _ => hid ▸ hidle) hby
    exact ⟨hnext.live, hnext.idle.trans hid, ho', hl', hk.trans hk'⟩

/-- **What a task goes on with does not depend on what goes on meanwhile.** -/
theorem context_kept (hl : Vmm.ImageLayout endAddr k) (ha : Reached endAddr k a) (ho : o ∈ a.2)
    (hlist : a.1.sched.OnList o.pcb) (hidle : o.pcb ≠ a.1.sched.idleTask)
    (hr : Relation.ReflTransGen (Apart o.pcb) a b) :
    o ∈ b.2 ∧ b.1.sched.OnList o.pcb ∧ Kept a.1 b.1 o :=
  ((ha.live hl).apart ho hlist hidle hr).2.2

/-- A kernel task yields to a program, which yields back. -/
theorem context_kept_round : ∃ a b c o, Reached 0x102000 0x101000 a ∧
    o.pcb = a.1.sched.currentTask ∧ Step a .yield b ∧ o.pcb ≠ b.1.sched.currentTask ∧
      Step b .sysYield c ∧ o.pcb = c.1.sched.currentTask ∧ o ∈ c.2 ∧ c.1.sched.OnList o.pcb ∧
      Kept a.1 c.1 o := by
  obtain ⟨a, b, c, o, ha, ho, hpcb, hidle, hyield, hne, hsys, hcur⟩ := small_round
  exact ⟨a, b, c, o, ha, hpcb, hyield, hne, hsys, hcur,
    context_kept Vmm.smallLayout ha ho ((ha.live Vmm.smallLayout).onList_current hpcb) hidle
      ((Relation.ReflTransGen.single ⟨_, hyield, fun h => h⟩).tail ⟨_, hsys, hne⟩)⟩

/-! ## New tasks in a run -/

/-- **A new task starts at its entry with clear registers, whenever it is first switched to**, also
with pages that were loaded for it meanwhile. -/
theorem starts_as_created (hl : Vmm.ImageLayout endAddr k) (ha : Reached endAddr k a)
    {c : Machine × List Owned} (hm : Makes entry stack a user t b)
    (hr : Relation.ReflTransGen (Before t) b c) :
    ∃ o ∈ c.2, o.pcb = t ∧ o.dir.isSome = user ∧ c.1.sched.OnList t ∧
      c.1.context t = firstContext o entry stack :=
  ((ha.live hl).unstarted hm hr).2.2

theorem starts_as_created_switched : ∃ a u b c, Reached 0x102000 0x101000 a ∧
    Makes 1 1 a false u b ∧ Relation.ReflTransGen (Before u) b c ∧ c.1.sched.currentTask = u ∧
      ∃ o ∈ c.2, o.pcb = u ∧ o.dir.isSome = false ∧ c.1.sched.OnList u ∧
        c.1.context u = firstContext o 1 1 := by
  obtain ⟨a, u, b, c, -, ha, hm, hr, -, hcur, -⟩ := small_switch
  exact ⟨a, u, b, c, ha, hm, hr, hcur, starts_as_created Vmm.smallLayout ha hm hr⟩

/-! ## Programs -/

/-- **Behind a program everything leaves its registers, but for the result of a system call.** -/
theorem program_kept (hl : Vmm.ImageLayout endAddr k) (ha : Reached endAddr k a) (ho : o ∈ a.2)
    (hlist : a.1.sched.OnList o.pcb) (hd : o.dir.isSome = true)
    (hr : Relation.ReflTransGen (Behind o.pcb) a b) :
    o ∈ b.2 ∧ b.1.sched.OnList o.pcb ∧ (b.1.program o).butEax = (a.1.program o).butEax := by
  suffices hrun : Live b.1 b.2 ∧ o ∈ b.2 ∧ b.1.sched.OnList o.pcb ∧
      (b.1.program o).butEax = (a.1.program o).butEax from hrun.2
  induction hr with
  | refl => exact ⟨ha.live hl, ho, hlist, rfl⟩
  | tail _ hs ih =>
    obtain ⟨hlive, ho, hlist, heq⟩ := ih
    obtain ⟨e, hs, hno⟩ := hs
    obtain ⟨ho', hlist', heq'⟩ := hs.behind hlive ho hlist hd hno
    exact ⟨(hs.next hlive).live, ho', hlist', heq'.trans heq⟩

/-- A system call of the program. -/
theorem program_kept_trap : ∃ a b o, Reached 0x102000 0x101000 a ∧
    o.pcb = a.1.sched.currentTask ∧ Step a .trap b ∧ o ∈ b.2 ∧ b.1.sched.OnList o.pcb ∧
      (b.1.program o).butEax = (a.1.program o).butEax := by
  obtain ⟨-, -, -, a, o, -, -, -, ha, ho, hd, hcur, h3, -⟩ := small_program
  have hl := (ha.live Vmm.smallLayout).onList_current hcur
  have hstep : Step a .trap (a.1.enterKernel, a.2) := .trap h3
  exact ⟨a, _, o, ha, hcur, hstep, program_kept Vmm.smallLayout ha ho hl hd
    (.single ⟨_, hstep, fun e => e⟩)⟩

end

end HaoSys.Proc
