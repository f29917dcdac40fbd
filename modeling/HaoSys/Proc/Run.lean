import HaoSys.Proc.Schedule

/-!
# Runs of the scheduler

`Reachable ok s L`: the machine booted, `task_init` made the idle task, and
then, in any order, tasks were created and loaded, ran, called `schedule` and
exited; `L` is the ledger of the tasks that are not freed yet, kept up by the
steps. `ok` is asked of every state in which `schedule` is called: with
`fun _ => True` these are all runs. A task that has exited calls `schedule` and
nothing else.
-/

namespace HaoSys.Proc

open HaoSys.Lib HaoSys.Mm

/-- A new task as its words give it. -/
def entryOf (s : Sched) (task : UInt32) : Owned where
  pcb := task
  stack := s.get task .kernelEsp0 - 4096
  dir := if s.isUserTask task then some (s.get task .pageDirectory) else none
  maps := []

/-- The ledger after a creation. -/
def record (L : List Owned) (r : UInt32 × Sched) : List Owned :=
  if r.1 = 0 then L else entryOf r.2 r.1 :: L

/-- The ledger after the loader had a page for `virt`. -/
def recordPage (L : List Owned) (s : Sched) (task virt : UInt32) : List Owned :=
  if (s.loadPage task virt).get task .userVirtCount = s.get task .userVirtCount then L
  else register L task (virt, s.vmm.pmm.pmmAllocPage.1)

/-- The tasks of the list that starts at `head`, which ends with `NULL`. -/
def Sched.Linked (s : Sched) (head : UInt32) (ts : List UInt32) : Prop :=
  Follows (fun t => s.get t .next) head ts 0 ∧ 0 ∉ ts

/-- `task` is on `task_list`. -/
def Sched.OnList (s : Sched) (task : UInt32) : Prop := ∃ ts, s.Linked s.taskList ts ∧ task ∈ ts

/-- `task` is on `zombie_list`. -/
def Sched.Zombie (s : Sched) (task : UInt32) : Prop := ∃ zs, s.Linked s.zombieList zs ∧ task ∈ zs

/-- The scheduler before `task_init`, over what `pmm_init` and `vmm_init` leave. -/
def bootSched (pmm : Pmm) (k : UInt32) : Sched where
  vmm := Vmm.vmmInit ⟨pmm, k, 0⟩
  taskList := 0
  currentTask := 0
  idleTask := 0
  zombieList := 0
  nextPid := 1
  esp0 := 0

inductive Reachable (endAddr k : UInt32) (ok : Sched → Prop) : Sched → List Owned → Prop where
  | init {fuel : Nat} {magic infoAddr idleLoop : UInt32} {m : Mem} {pmm : Pmm} :
    Pmm.pmmInit fuel endAddr magic infoAddr m = some pmm →
    ((bootSched pmm k).taskCreate idleLoop).1 ≠ 0 →
    Reachable endAddr k ok ((bootSched pmm k).taskInit idleLoop)
      (record [] ((bootSched pmm k).taskCreate idleLoop))
  | create {s : Sched} {L : List Owned} (entry : UInt32) : Reachable endAddr k ok s L →
    s.hasState s.currentTask .running = true →
    Reachable endAddr k ok (s.taskCreate entry).2 (record L (s.taskCreate entry))
  | createUser {s : Sched} {L : List Owned} (entry stack : UInt32) : Reachable endAddr k ok s L →
    s.hasState s.currentTask .running = true →
    Reachable endAddr k ok (s.taskCreateUser entry stack).2
      (record L (s.taskCreateUser entry stack))
  | load {s : Sched} {L : List Owned} {task virt : UInt32} : Reachable endAddr k ok s L →
    s.hasState s.currentTask .running = true → s.OnList task → s.isUserTask task = true →
    virt.toNat % 4096 = 0 → Loadable s.vmm virt →
    Reachable endAddr k ok (s.loadPage task virt) (recordPage L s task virt)
  /-- The loader's window, mapped and unmapped while the kernel's directory is the current one. -/
  | map {s : Sched} {L : List Owned} {virt : UInt32} (phys : UInt32) : Reachable endAddr k ok s L →
    s.hasState s.currentTask .running = true → pdIndex virt = loadSlot →
    s.vmm.currentDirectory = s.vmm.kernelPageDirectory →
    Reachable endAddr k ok
      { s with vmm := (s.vmm.vmmMapPage s.vmm.currentDirectory virt phys pageWrite).2 } L
  | unmap {s : Sched} {L : List Owned} {virt : UInt32} : Reachable endAddr k ok s L →
    s.hasState s.currentTask .running = true → pdIndex virt = loadSlot →
    s.vmm.currentDirectory = s.vmm.kernelPageDirectory →
    Reachable endAddr k ok { s with vmm := (s.vmm.vmmUnmapPage s.vmm.currentDirectory virt).2 } L
  | launch {s : Sched} {L : List Owned} {task : UInt32} : Reachable endAddr k ok s L →
    s.hasState s.currentTask .running = true → s.currentTask = s.idleTask → s.OnList task →
    s.isUserTask task = true → Reachable endAddr k ok (s.launch task) L
  /-- A task runs: it writes a kernel stack or a user page, and an interrupt saves `esp`. -/
  | write {s : Sched} {L : List Owned} {o : Owned} {p : UInt32} {m : Mem} :
    Reachable endAddr k ok s L → o ∈ L → p ∈ o.stack :: o.maps.map Prod.snd →
    (∀ c, addrToIndex c ≠ addrToIndex p → m c = s.vmm.mem c) →
    Reachable endAddr k ok { s with vmm := s.vmm.setMem m } L
  | interrupt {s : Sched} {L : List Owned} (sp : UInt32) : Reachable endAddr k ok s L →
    Reachable endAddr k ok (s.set s.currentTask .esp sp) L
  /-- `task_exit`, up to its call of `schedule`. -/
  | exit {s : Sched} {L : List Owned} : Reachable endAddr k ok s L →
    s.hasState s.currentTask .running = true → s.currentTask ≠ s.idleTask →
    Reachable endAddr k ok s.markTerminated L
  | schedule {s : Sched} {L : List Owned} {fuel : Nat} {sp : UInt32} {r : Sched.Scheduled} :
    Reachable endAddr k ok s L → ok s → s.schedule fuel sp = some r →
    Reachable endAddr k ok r.state (L.filter fun o => o.pcb ∉ r.reaped.map Prod.fst)

section

variable {s s' : Sched} {L M : List Owned} {ts zs xs ys : List UInt32} {o : Owned}
  {t : UInt32} {endAddr k : UInt32}

/-! ## Booting -/

/-- The machine boots without tables behind the bound of the scan. -/
theorem boot_scan (hl : Vmm.ImageLayout endAddr k) {fuel : Nat} {magic infoAddr : UInt32} {m : Mem}
    {pmm : Pmm} (h : Pmm.pmmInit fuel endAddr magic infoAddr m = some pmm) {i : UInt32}
    (hi : (bootSched pmm k).vmm.kernelPdes ≤ i) :
    tableOf (bootSched pmm k).vmm.mem (bootSched pmm k).vmm.kernelPageDirectory i = none := by
  obtain ⟨hb, xs, hinv, himg⟩ := Pmm.pmmInit_inv hl.room h
  obtain ⟨hboot, n, -, -, hrest⟩ := Vmm.vmmInit_inv hinv (hl.inUse hb himg) hl.ne_zero
  have hk : (bootSched pmm k).vmm.kernelPageDirectory = k := hboot.1
  have hcount : Vmm.identityCount pmm = Vmm.identityCount (bootSched pmm k).vmm.pmm := by
    rw [Vmm.identityCount, Vmm.identityCount]
    exact congrArg (fun n : UInt32 => (n.toNat / 4096 + 1023) / 1024) hboot.2.2.symm
  rw [hk]
  refine hrest i ?_
  rw [hcount]
  exact (Vmm.identityCount_le _).trans (UInt32.le_iff_toNat_le.1 hi)

/-- The pages the machine boots with. -/
theorem core_boot (hl : Vmm.ImageLayout endAddr k) {fuel : Nat} {magic infoAddr : UInt32} {m : Mem}
    {pmm : Pmm} (h : Pmm.pmmInit fuel endAddr magic infoAddr m = some pmm) :
    ∃ xs, Core (bootSched pmm k).vmm [] xs := by
  obtain ⟨hb, xs, hinv, himg⟩ := Pmm.pmmInit_inv hl.room h
  obtain ⟨-, n, -, hv, -⟩ := Vmm.vmmInit_inv hinv (hl.inUse hb himg) hl.ne_zero
  refine ⟨_, hv, List.nodup_nil, List.nodup_nil, fun _ hp => absurd hp List.not_mem_nil,
    fun _ ho => absurd ho List.not_mem_nil, fun i t _ ht => ?_⟩
  by_contra hge
  rw [boot_scan hl h (UInt32.not_lt.1 hge)] at ht
  cases ht

/-- The words of a new task are those of its entry. -/
theorem Created.entry (h : Created s L xs o s' ys) : entryOf s' o.pcb = o := by
  obtain ⟨b, k, od, qs⟩ := o
  have hmaps : qs = [] := h.maps
  have hstack : s'.get b .kernelEsp0 - 4096 = k := by
    rw [h.esp0, UInt32.add_sub_cancel]
  have hdir : (if s'.isUserTask b then some (s'.get b .pageDirectory) else none) = od := by
    rw [Sched.isUserTask, h.user]
    cases od with
    | none => simp
    | some d => simpa using h.dir d rfl
  subst hmaps
  rw [entryOf, hstack, hdir]

theorem record_created {r : UInt32 × Sched} (h : Created s L xs o r.2 ys) (hr : r.1 = o.pcb) :
    record L r = o :: L := by
  have hne : o.pcb ≠ 0 := (h.core.pcb List.mem_cons_self).ne_zero
  rw [record, if_neg (hr ▸ hne), hr, h.entry]

theorem record_failed {r : UInt32 × Sched} (h : NotCreated s L r ys) : record L r = L :=
  if_pos h.null

/-- `task_init` once it has its idle task. -/
theorem taskInit_eq {idleLoop b : UInt32}
    (ho : (Sched.taskCreate { s with esp0 := 0 } idleLoop).1 = b) (hne : b ≠ 0) :
    s.taskInit idleLoop =
      { (((Sched.taskCreate { s with esp0 := 0 } idleLoop).2.set b .state
          TaskState.running.code).set b .kernelEsp0 0).set b .next 0 with
        taskList := b, currentTask := b, idleTask := b } := by
  unfold Sched.taskInit
  simp only [ho, if_neg hne]

/-- `task_init` with a page for the idle task and one for its stack. -/
theorem taskInit_inv (hs : s.taskList = 0 ∧ s.zombieList = 0) {idleLoop : UInt32}
    (h : Created { s with esp0 := 0 } [] xs o (Sched.taskCreate { s with esp0 := 0 } idleLoop).2 ys)
    (ho : (Sched.taskCreate { s with esp0 := 0 } idleLoop).1 = o.pcb) (hd : o.dir = none) :
    SchedInv (s.taskInit idleLoop) [o] [o.pcb] [] ys ∧
      (s.taskInit idleLoop).get o.pcb .state = TaskState.running.code ∧
      (s.taskInit idleLoop).currentTask = o.pcb ∧ (s.taskInit idleLoop).idleTask = o.pcb := by
  have hne : o.pcb ≠ 0 := (h.core.pcb List.mem_cons_self).ne_zero
  have ha := (h.core.pcb List.mem_cons_self).inUse.aligned
  have heq := taskInit_eq ho hne
  have hz : (Sched.taskCreate { s with esp0 := 0 } idleLoop).2.zombieList = 0 :=
    h.old.zombies.trans hs.2
  generalize (Sched.taskCreate { s with esp0 := 0 } idleLoop).2 = s₁ at *
  have hheld : o.pcb ∈ held [o] := pcb_mem_held List.mem_cons_self
  obtain ⟨hc₁, -⟩ := h.core.set hheld .state TaskState.running.code
  obtain ⟨hc₂, -⟩ := hc₁.set hheld .kernelEsp0 0
  obtain ⟨hc₃, -⟩ := hc₂.set hheld .next 0
  have hget : ∀ f, (s.taskInit idleLoop).get o.pcb f = if f = .next then 0
      else if f = .kernelEsp0 then 0 else if f = .state then TaskState.running.code
        else s₁.get o.pcb f := by
    intro f
    rw [heq]
    change ((((s₁.set o.pcb .state _).set o.pcb .kernelEsp0 0).set o.pcb .next 0).get o.pcb f) = _
    simp only [get_set ha ha, true_and]
  have hother : ∀ f, f ≠ .next → f ≠ .kernelEsp0 → f ≠ .state →
      (s.taskInit idleLoop).get o.pcb f = s₁.get o.pcb f := fun f h1 h2 h3 => by
    rw [hget, if_neg h1, if_neg h2, if_neg h3]
  have hidle : (s.taskInit idleLoop).idleTask = o.pcb := by rw [heq]
  have hcur : (s.taskInit idleLoop).currentTask = o.pcb := by rw [heq]
  refine ⟨⟨?_, fun o' ho' => ?_, ?_, ?_, ?_, ?_, ?_, fun t ht hnt => ?_⟩, ?_, hcur, hidle⟩
  · rw [heq]
    exact hc₃
  · obtain rfl := List.mem_singleton.1 ho'
    refine ⟨?_, ?_, fun d hd' => ?_, ?_, by simp [h.maps], fun i p hp => ?_⟩
    · rw [hget, hidle]
      simp
    · rw [hother _ (by simp) (by simp) (by simp), h.user]
    · rw [hd] at hd'
      cases hd'
    · rw [hother _ (by simp) (by simp) (by simp), h.count, h.maps]
      rfl
    · rw [h.maps] at hp
      cases hp
  · have hlist : (s.taskInit idleLoop).taskList = o.pcb := by rw [heq]
    rw [hlist]
    refine ⟨rfl, ?_⟩
    change (s.taskInit idleLoop).get o.pcb .next = 0
    rw [hget, if_pos rfl]
  · rw [heq]
    exact hz
  · exact .refl _
  · rw [hcur]
    exact List.mem_cons_self
  · rw [hidle]
    exact List.mem_cons_self
  · exact absurd ((List.mem_singleton.1 ht).trans hcur.symm) hnt
  · rw [hget]
    simp

/-! ## The invariant over runs -/

/-- Every zombie that this call of `schedule` frees is reapable. -/
def Sched.ReapsOwn (s : Sched) : Prop :=
  s.hasState s.currentTask .terminated = false → s.findNext.isSome = true →
    ∀ z, s.Zombie z → s.Reapable z

theorem hasState_iff {st : TaskState} : s.hasState t st = true ↔ s.get t .state = st.code := by
  rw [Sched.hasState, decide_eq_true_eq]

theorem Sched.Active.congr (h : s.Active) (hcur : s'.currentTask = s.currentTask)
    (hidle : s'.idleTask = s.idleTask)
    (hstate : s'.get s.currentTask .state = s.get s.currentTask .state) : s'.Active := by
  unfold Sched.Active
  rw [hcur, hidle, hstate]
  exact h

theorem SchedInv.active_of_old (h : SchedInv s L ts zs xs) (ha : s.Active) (hold : SameOld s s' L) :
    s'.Active := by
  obtain ⟨o, ho, he⟩ := h.entry (List.mem_append_left _ h.tasks.current)
  exact ha.congr hold.current hold.idle (he ▸ hold.get ho _)

/-- The lists of the invariant are the two lists of the state. -/
theorem SchedInv.linked (h : SchedInv s L ts zs xs) :
    s.Linked s.taskList ts ∧ s.Linked s.zombieList zs :=
  ⟨⟨h.tasks.list, fun hm => h.zero_not_mem (List.mem_append_left _ hm)⟩, h.tasks.zombies,
    fun hm => h.zero_not_mem (List.mem_append_right _ hm)⟩

theorem Sched.Linked.unique {a : UInt32} (h : s.Linked a ts) (h' : s.Linked a xs) : ts = xs :=
  h.1.unique h'.1 h.2 h'.2

theorem SchedInv.onList_iff (h : SchedInv s L ts zs xs) : s.OnList t ↔ t ∈ ts := by
  constructor
  · rintro ⟨us, hu, hm⟩
    exact hu.unique h.linked.1 ▸ hm
  · exact fun hm => ⟨ts, h.linked.1, hm⟩

theorem SchedInv.zombie_iff (h : SchedInv s L ts zs xs) : s.Zombie t ↔ t ∈ zs := by
  constructor
  · rintro ⟨us, hu, hm⟩
    exact hu.unique h.linked.2 ▸ hm
  · exact fun hm => ⟨zs, h.linked.2, hm⟩

/-! ## The steps -/

/-- What holds of every state of a run, with the ledger. -/
def RunInv (s : Sched) (L : List Owned) : Prop :=
  ∃ ts zs xs, SchedInv s L ts zs xs ∧ s.Active

theorem runInv_init (hl : Vmm.ImageLayout endAddr k) {fuel : Nat}
    {magic infoAddr idleLoop : UInt32} {m : Mem} {pmm : Pmm}
    (h : Pmm.pmmInit fuel endAddr magic infoAddr m = some pmm)
    (hne : ((bootSched pmm k).taskCreate idleLoop).1 ≠ 0) :
    RunInv ((bootSched pmm k).taskInit idleLoop)
      (record [] ((bootSched pmm k).taskCreate idleLoop)) := by
  obtain ⟨xs, hcore⟩ := core_boot hl h
  rcases hcore.taskCreate idleLoop with hno | ⟨o, hd, -, -, ho, -, hc⟩
  · exact absurd hno.null hne
  · obtain ⟨hinv, hrun, hcur, -⟩ := taskInit_inv (s := bootSched pmm k) ⟨rfl, rfl⟩ hc ho hd
    rw [record_created hc ho]
    exact ⟨_, _, _, hinv, .inl (hcur ▸ hrun)⟩

theorem RunInv.created (h : RunInv s L) {r : UInt32 × Sched}
    (hr : ∀ xs, Core s.vmm L xs → (∃ ys, NotCreated s L r ys) ∨
      ∃ o ys, r.1 = o.pcb ∧ Created s L xs o r.2 ys) : RunInv r.2 (record L r) := by
  obtain ⟨ts, zs, xs, hinv, hact⟩ := h
  rcases hr xs hinv.core with ⟨ys, hno⟩ | ⟨o, ys, ho, hc⟩
  · rw [record_failed hno]
    exact ⟨ts, zs, ys, hinv.failed hno, hinv.active_of_old hact hno.old⟩
  · rw [record_created hc ho]
    exact ⟨_, zs, ys, hinv.created hc, hinv.active_of_old hact hc.old⟩

theorem RunInv.taskCreate (h : RunInv s L) (entry : UInt32) :
    RunInv (s.taskCreate entry).2 (record L (s.taskCreate entry)) := by
  refine h.created fun xs hcore => (hcore.taskCreate entry).imp (fun hno => ⟨_, hno⟩) ?_
  rintro ⟨o, -, -, -, ho, -, hc⟩
  exact ⟨o, _, ho, hc⟩

theorem RunInv.taskCreateUser (h : RunInv s L) (entry stack : UInt32) :
    RunInv (s.taskCreateUser entry stack).2 (record L (s.taskCreateUser entry stack)) := by
  refine h.created fun xs hcore => (hcore.taskCreateUser entry stack).imp (fun hno => ⟨_, hno⟩) ?_
  rintro ⟨o, d, -, -, -, -, ho, hc, -⟩
  exact ⟨o, _, ho, hc⟩

/-- A user task of a list has an entry with its directory. -/
theorem SchedInv.user_entry (h : SchedInv s L ts zs xs) (ht : t ∈ ts ++ zs)
    (hu : s.isUserTask t = true) : ∃ o ∈ L, o.pcb = t ∧ ∃ d, o.dir = some d := by
  obtain ⟨o, ho, rfl⟩ := h.entry ht
  refine ⟨o, ho, rfl, ?_⟩
  cases hd : o.dir with
  | none =>
    rw [Sched.isUserTask, (h.tasks.ok o ho).user, hd] at hu
    simp at hu
  | some d => exact ⟨d, rfl⟩

/-- From `s` to `s'` the lists, the current task and the states stay; `M` is the ledger then. -/
structure Still (s s' : Sched) (M : List Owned) (ts zs : List UInt32) : Prop where
  inv : ∃ ys, SchedInv s' M ts zs ys
  current : s'.currentTask = s.currentTask
  idle : s'.idleTask = s.idleTask
  states : ∀ t ∈ ts, s'.get t .state = s.get t .state

theorem Still.runInv (hs : Still s s' M ts zs) (h : SchedInv s L ts zs xs) (ha : s.Active) :
    RunInv s' M := by
  obtain ⟨ys, hinv⟩ := hs.inv
  exact ⟨ts, zs, ys, hinv, ha.congr hs.current hs.idle (hs.states _ h.tasks.current)⟩

theorem SchedInv.still_loadPage (h : SchedInv s L ts zs xs) {virt : UInt32} (ht : s.OnList t)
    (hu : s.isUserTask t = true) (hv : virt.toNat % 4096 = 0) (hslot : Loadable s.vmm virt) :
    Still s (s.loadPage t virt) (recordPage L s t virt) ts zs := by
  obtain ⟨o, ho, rfl, d, hd⟩ := h.user_entry (List.mem_append_left _ (h.onList_iff.1 ht)) hu
  obtain ⟨ys, hvars, hwords, -, hload⟩ := h.loadPage ho hd hv hslot
  refine ⟨⟨ys, ?_⟩, hvars.current, hvars.idle, fun u hu =>
    hwords u (List.mem_append_left _ hu) .state (by simp) (by simp)⟩
  unfold recordPage
  cases hload with
  | refused hsame hinv =>
    rw [if_pos hsame]
    exact hinv
  | registered hnew hinv =>
    rw [if_neg hnew]
    exact hinv

theorem RunInv.loadPage (h : RunInv s L) {virt : UInt32} (ht : s.OnList t)
    (hu : s.isUserTask t = true) (hv : virt.toNat % 4096 = 0) (hslot : Loadable s.vmm virt) :
    RunInv (s.loadPage t virt) (recordPage L s t virt) := by
  obtain ⟨ts, zs, xs, hinv, hact⟩ := h
  exact (hinv.still_loadPage ht hu hv hslot).runInv hinv hact

/-- A change of the memory managers that leaves the ledger's pages. -/
theorem SchedInv.still_keeps {w : Vmm} (h : SchedInv s L ts zs xs)
    (hw : ∃ ys gone, Core w L ys ∧ s.vmm.KeepsOff xs w ys gone ∧
      w.currentDirectory = s.vmm.currentDirectory ∧ ∀ p ∈ held L, p ∉ gone) :
    Still s { s with vmm := w } L ts zs := by
  obtain ⟨ys, gone, hcore, hkeep, hcur, hgone⟩ := hw
  have hold := h.core.sameOld hkeep hcur hgone
  refine ⟨⟨ys, hcore, h.tasks.congr hold rfl⟩, rfl, rfl, fun u hu => ?_⟩
  obtain ⟨o, ho, rfl⟩ := h.entry (List.mem_append_left _ hu)
  exact hold.get ho _

theorem RunInv.keeps {w : Vmm} (h : RunInv s L)
    (hw : ∀ xs, Core s.vmm L xs → ∃ ys gone, Core w L ys ∧ s.vmm.KeepsOff xs w ys gone ∧
      w.currentDirectory = s.vmm.currentDirectory ∧ ∀ p ∈ held L, p ∉ gone) :
    RunInv { s with vmm := w } L := by
  obtain ⟨ts, zs, xs, hinv, hact⟩ := h
  exact (hinv.still_keeps (hw xs hinv.core)).runInv hinv hact

theorem launch_eq (s : Sched) (t : UInt32) : ∃ e d, s.launch t =
    { s.set t .state TaskState.running.code with
      currentTask := t, esp0 := e,
      vmm := { (s.set t .state TaskState.running.code).vmm with currentDirectory := d } } := by
  unfold Sched.launch
  generalize s.set t .state TaskState.running.code = s₁
  simp only [Vmm.vmmSwitchDirectory]
  split
  · exact ⟨_, s₁.vmm.currentDirectory, rfl⟩
  · exact ⟨_, _, rfl⟩

/-- The task that is launched becomes current, with its directory. -/
theorem launch_vars {d : UInt32} (ht : t.toNat % 4096 = 0) (hd : s.get t .pageDirectory = d)
    (h0 : d ≠ 0) : (s.launch t).currentTask = t ∧ (s.launch t).idleTask = s.idleTask ∧
      (s.launch t).vmm.currentDirectory = d := by
  have hword : (s.set t .state TaskState.running.code).get t .pageDirectory = d := by
    rw [get_set_of_ne ht ht (.inl (by simp)), hd]
  refine ⟨rfl, rfl, ?_⟩
  unfold Sched.launch
  generalize s.set t .state TaskState.running.code = s₁ at hword ⊢
  change (Vmm.vmmSwitchDirectory s₁.vmm (s₁.get t .pageDirectory)).currentDirectory = d
  rw [hword, Vmm.vmmSwitchDirectory, if_neg h0]

/-- The state of the task that is launched is the only word that changes. -/
theorem SchedInv.launch_words (h : SchedInv s L ts zs xs) (ht : t ∈ ts) {u : UInt32}
    (hu : u ∈ ts ++ zs) (f : Field) :
    (s.launch t).get u f = if u = t ∧ f = .state then TaskState.running.code else s.get u f := by
  obtain ⟨e, d, heq⟩ := launch_eq s t
  rw [heq]
  exact get_set (h.aligned (List.mem_append_left zs ht)) (h.aligned hu)

theorem SchedInv.launch (h : SchedInv s L ts zs xs) (hcur : s.currentTask = s.idleTask)
    (ht : t ∈ ts) (hrun : s.hasState s.currentTask .running = true) :
    SchedInv (s.launch t) L ts zs xs := by
  have hget := fun u hu => h.launch_words ht (u := u) hu
  have hcore := h.setCore (List.mem_append_left zs ht) .state TaskState.running.code
  obtain ⟨e, d, heq⟩ := launch_eq s t
  rw [heq] at hget ⊢
  refine ⟨hcore.setDirectory d, h.tasks.rotate rfl rfl rfl (fun u hu f hf _ => ?_)
    ht fun u hu hne => ?_⟩
  · exact (hget u hu f).trans (if_neg fun e => hf e.2)
  · have hstate := (hget u (List.mem_append_left _ hu) .state).trans (if_neg fun e => hne e.1)
    by_cases he : u = s.currentTask
    · exact .inr ⟨he.trans hcur, hstate.trans (he ▸ hasState_iff.1 hrun)⟩
    · exact (h.tasks.ready u hu he).imp hstate.trans fun hi => ⟨hi.1, hstate.trans hi.2⟩

theorem RunInv.launch (h : RunInv s L) (hcur : s.currentTask = s.idleTask) (ht : s.OnList t)
    (hrun : s.hasState s.currentTask .running = true) : RunInv (s.launch t) L := by
  obtain ⟨ts, zs, xs, hinv, -⟩ := h
  have hmem := hinv.onList_iff.1 ht
  have hstate := hinv.launch_words hmem (List.mem_append_left _ hmem) .state
  refine ⟨ts, zs, xs, hinv.launch hcur hmem hrun, .inl ?_⟩
  obtain ⟨e, d, heq⟩ := launch_eq s t
  rw [heq] at hstate ⊢
  exact hstate.trans (if_pos ⟨rfl, rfl⟩)

/-- A task's other pages are not where its words are, or another task's. -/
theorem Core.pcb_ne_page {v : Vmm} (h : Core v L xs) (ho : o ∈ L) {p : UInt32}
    (hp : p ∈ o.stack :: o.maps.map Prod.snd) {o' : Owned} (ho' : o' ∈ L) : o'.pcb ≠ p := by
  rintro rfl
  obtain rfl := h.eq_of_held ho ho' (List.mem_cons_of_mem _ hp) List.mem_cons_self
  exact (List.nodup_cons.1 ((List.nodup_flatMap.1 h.heldNodup).1 o ho)).1 hp

/-- A task writes to its stack or to a user page: every task keeps its words. -/
theorem SchedInv.write (h : SchedInv s L ts zs xs) (ho : o ∈ L) {p : UInt32} {m : Mem}
    (hp : p ∈ o.stack :: o.maps.map Prod.snd)
    (hm : ∀ c, addrToIndex c ≠ addrToIndex p → m c = s.vmm.mem c) :
    SchedInv { s with vmm := s.vmm.setMem m } L ts zs xs ∧
      ∀ u ∈ ts ++ zs, ∀ f, Sched.get { s with vmm := s.vmm.setMem m } u f = s.get u f := by
  obtain ⟨hcore, he⟩ := h.core.write (mem_held ho (List.mem_cons_of_mem _ hp)) hm
  have hget : ∀ o' ∈ L, ∀ f, Sched.get { s with vmm := s.vmm.setMem m } o'.pcb f =
      s.get o'.pcb f := fun o' ho' f =>
    he.keeps.entry _ (h.core.pcb ho').inUse
      (fun e => h.core.pcb_ne_page ho hp ho' (List.mem_singleton.1 e)) _ f.index_lt
  have hlists : ∀ u ∈ ts ++ zs, ∀ f, Sched.get { s with vmm := s.vmm.setMem m } u f = s.get u f := by
    intro u hu f
    obtain ⟨o', ho', rfl⟩ := h.entry hu
    exact hget o' ho' f
  refine ⟨⟨hcore, h.tasks.of_links rfl rfl rfl rfl (fun u hu => hlists u hu _)
    (fun u hu => hlists u hu _) (fun o' ho' => ?_) (.refl _)⟩, hlists⟩
  exact (h.tasks.ok o' ho').congr rfl fun f _ _ _ => hget o' ho' f

theorem SchedInv.still_write (h : SchedInv s L ts zs xs) (ho : o ∈ L) {p : UInt32} {m : Mem}
    (hp : p ∈ o.stack :: o.maps.map Prod.snd)
    (hm : ∀ c, addrToIndex c ≠ addrToIndex p → m c = s.vmm.mem c) :
    Still s { s with vmm := s.vmm.setMem m } L ts zs := by
  obtain ⟨hinv, hget⟩ := h.write ho hp hm
  exact ⟨⟨xs, hinv⟩, rfl, rfl, fun u hu => hget u (List.mem_append_left _ hu) _⟩

theorem RunInv.write (h : RunInv s L) (ho : o ∈ L) {p : UInt32} {m : Mem}
    (hp : p ∈ o.stack :: o.maps.map Prod.snd)
    (hm : ∀ c, addrToIndex c ≠ addrToIndex p → m c = s.vmm.mem c) :
    RunInv { s with vmm := s.vmm.setMem m } L := by
  obtain ⟨ts, zs, xs, hinv, hact⟩ := h
  exact (hinv.still_write ho hp hm).runInv hinv hact

theorem SchedInv.still_interrupt (h : SchedInv s L ts zs xs) (sp : UInt32) :
    Still s (s.set s.currentTask .esp sp) L ts zs := by
  have hmem := List.mem_append_left zs h.tasks.current
  exact ⟨⟨xs, h.saveEsp hmem sp⟩, rfl, rfl, fun u hu =>
    get_set_of_ne (h.aligned hmem) (h.aligned (List.mem_append_left _ hu)) (.inl (by simp))⟩

theorem RunInv.interrupt (h : RunInv s L) (sp : UInt32) :
    RunInv (s.set s.currentTask .esp sp) L := by
  obtain ⟨ts, zs, xs, hinv, hact⟩ := h
  exact (hinv.still_interrupt sp).runInv hinv hact

/-- The current task is marked; it stays on the list. -/
theorem SchedInv.markTerminated (h : SchedInv s L ts zs xs) :
    SchedInv s.markTerminated L ts zs xs ∧
      s.markTerminated = s.set s.currentTask .state TaskState.terminated.code := by
  have hmem := List.mem_append_left zs h.tasks.current
  have ha := h.aligned hmem
  have heq : s.markTerminated = s.set s.currentTask .state TaskState.terminated.code :=
    if_neg h.current_ne_zero
  rw [heq]
  refine ⟨⟨h.setCore hmem _ _, h.tasks.rotate rfl rfl rfl (fun u hu f hf _ => ?_)
    h.tasks.current fun u hu hne => ?_⟩, rfl⟩
  · exact get_set_of_ne ha (h.aligned hu) (.inl hf)
  · rw [get_set_of_ne ha (h.aligned (List.mem_append_left _ hu)) (.inr hne)]
    exact h.tasks.ready u hu hne

theorem RunInv.markTerminated (h : RunInv s L) (hidle : s.currentTask ≠ s.idleTask) :
    RunInv s.markTerminated L := by
  obtain ⟨ts, zs, xs, hinv, -⟩ := h
  obtain ⟨hinv', heq⟩ := hinv.markTerminated
  refine ⟨ts, zs, xs, hinv', ?_⟩
  rw [heq]
  exact .inr ⟨get_set_self .., hidle⟩

/-- What a call of `schedule` does when it ends: nothing, a switch away from a task that has exited,
or a switch behind the reaping of every zombie. -/
inductive Outcome (s : Sched) (L : List Owned) (ts zs : List UInt32) : Sched.Scheduled → Prop where
  | stay : s.get s.currentTask .state = TaskState.running.code →
    Outcome s L ts zs ⟨[], false, s⟩
  | exit {l r ys : List UInt32} {s' : Sched} :
    s.get s.currentTask .state = TaskState.terminated.code → ts = l ++ s.currentTask :: r →
    SchedInv s' L (l ++ r) (s.currentTask :: zs) ys →
    Switched (dirs L) s s' (l ++ r) (s.firstReady (r ++ l)) →
    s'.esp0 = s.esp0 → Outcome s L ts zs ⟨[], true, s'⟩
  | switch {next : UInt32} {log : List (UInt32 × List UInt32)} {ys : List UInt32} {s' : Sched} :
    s.get s.currentTask .state = TaskState.running.code → s.findNext = some next →
    (∀ z ∈ zs, s.Reapable z) → Reaped s L zs log →
    SchedInv s' (L.filter fun o => o.pcb ∉ zs) ts [] ys →
    Switched (dirs (L.filter fun o => o.pcb ∉ zs)) s s' ts next →
    (s'.get next .kernelEsp0 ≠ 0 → s'.esp0 = s'.get next .kernelEsp0) →
    (∀ i, s'.Free i ↔ s.Free i ∨
      i < s.vmm.pmm.totalPages ∧ ∃ a ∈ log.flatMap Prod.snd, addrToIndex a = i) →
    Outcome s L ts zs ⟨log, true, s'⟩

theorem Outcome.kept {r : Sched.Scheduled} (h : Outcome s L ts zs r) :
    s.vmm.SameBoot r.state.vmm ∧ r.state.idleTask = s.idleTask := by
  cases h with
  | stay => exact ⟨.refl _, rfl⟩
  | exit _ _ _ hsw => exact ⟨hsw.tables.boot, hsw.idle⟩
  | switch _ _ _ _ _ hsw => exact ⟨hsw.tables.boot, hsw.idle⟩

/-- The call ends: the walks are no longer than the lists. -/
theorem SchedInv.schedule_ends (h : SchedInv s L ts zs xs) (ha : s.Active) (hok : s.ReapsOwn)
    (sp : UInt32) : ∃ r, s.schedule (ts.length + zs.length) sp = some r ∧ Outcome s L ts zs r := by
  rcases ha with hrun | ⟨hterm, hidle⟩
  · cases hn : s.findNext with
    | none => exact ⟨_, h.schedule_stay hrun hn _ sp, .stay hrun⟩
    | some next =>
      have hr : ∀ z ∈ zs, s.Reapable z := fun z hz =>
        hok (not_terminated hrun) (by rw [hn]; rfl) z (h.zombie_iff.2 hz)
      obtain ⟨log, s', ys, hcall, hreap, hinv, hsw, hesp, hback⟩ :=
        h.schedule_switch hrun hn hr (Nat.le_add_left zs.length ts.length) sp
      refine ⟨_, hcall, .switch hrun hn hr hreap hinv hsw hesp fun i => ?_⟩
      rw [hinv.core.free_iff, h.core.free_iff]
      exact hback i
  · obtain ⟨l, r, hts⟩ := List.append_of_mem h.tasks.current
    have hlen : l.length < ts.length + zs.length := by
      rw [hts, List.length_append, List.length_cons]
      omega
    obtain ⟨s', hcall, hinv, hsw, hesp, -⟩ :=
      SchedInv.schedule_exit (hts ▸ h) hterm hidle hlen sp
    exact ⟨_, hcall, .exit hterm hts hinv hsw hesp⟩

theorem SchedInv.schedule_outcome (h : SchedInv s L ts zs xs) (ha : s.Active) (hok : s.ReapsOwn)
    {fuel : Nat} {sp : UInt32} {r : Sched.Scheduled} (hr : s.schedule fuel sp = some r) :
    Outcome s L ts zs r := by
  obtain ⟨r', hr', hout⟩ := h.schedule_ends ha hok sp
  have h1 := schedule_mono (Nat.le_max_left fuel (ts.length + zs.length)) hr
  have h2 := schedule_mono (Nat.le_max_right fuel (ts.length + zs.length)) hr'
  rw [h1] at h2
  cases h2
  exact hout

theorem filter_not_mem_nil (L : List Owned) : (L.filter fun o => o.pcb ∉ ([] : List UInt32)) = L :=
  List.filter_eq_self.2 fun _ _ => by simp

theorem RunInv.schedule (h : RunInv s L) (hok : s.ReapsOwn) {fuel : Nat} {sp : UInt32}
    {r : Sched.Scheduled} (hr : s.schedule fuel sp = some r) :
    RunInv r.state (L.filter fun o => o.pcb ∉ r.reaped.map Prod.fst) := by
  obtain ⟨ts, zs, xs, hinv, ha⟩ := h
  cases hinv.schedule_outcome ha hok hr with
  | stay =>
    rw [List.map_nil, filter_not_mem_nil]
    exact ⟨ts, zs, xs, hinv, ha⟩
  | exit _ _ hinv' hsw =>
    rw [List.map_nil, filter_not_mem_nil]
    refine ⟨_, _, _, hinv', .inl ?_⟩
    rw [hsw.current]
    exact hsw.running
  | switch _ _ _ hreap hinv' hsw =>
    rw [hreap.tasks]
    refine ⟨_, _, _, hinv', .inl ?_⟩
    rw [hsw.current]
    exact hsw.running

/-- **The invariant holds along every run** in which `schedule` only reaps what is reapable. -/
theorem Reachable.inv (hl : Vmm.ImageLayout endAddr k) {ok : Sched → Prop}
    (hok : ∀ s, ok s → s.ReapsOwn) (h : Reachable endAddr k ok s L) : RunInv s L := by
  induction h with
  | init hp hne => exact runInv_init hl hp hne
  | create entry _ _ ih => exact ih.taskCreate entry
  | createUser entry stack _ _ ih => exact ih.taskCreateUser entry stack
  | load _ _ ht hu hv hslot ih => exact ih.loadPage ht hu hv hslot
  | map phys _ _ hslot hcur ih =>
    rw [hcur]
    exact ih.keeps fun xs hcore => hcore.mapKernel hslot phys pageWrite
  | unmap _ _ hslot hcur ih =>
    rw [hcur]
    exact ih.keeps fun xs hcore => ⟨xs, hcore.unmapKernel _⟩
  | launch _ hrun hcur ht _ ih => exact ih.launch hcur ht hrun
  | write _ ho hp hm ih => exact ih.write ho hp hm
  | interrupt sp _ ih => exact ih.interrupt sp
  | exit _ _ hidle ih => exact ih.markTerminated hidle
  | schedule _ hs hr ih => exact ih.schedule (hok _ hs) hr

theorem Reachable.mono {ok ok' : Sched → Prop} (hok : ∀ s, ok s → ok' s)
    (h : Reachable endAddr k ok s L) : Reachable endAddr k ok' s L := by
  induction h with
  | init hp hne => exact .init hp hne
  | create entry _ hrun ih => exact .create entry ih hrun
  | createUser entry stack _ hrun ih => exact .createUser entry stack ih hrun
  | load _ hrun ht hu hv hslot ih => exact .load ih hrun ht hu hv hslot
  | map phys _ hrun hslot hcur ih => exact .map phys ih hrun hslot hcur
  | unmap _ hrun hslot hcur ih => exact .unmap ih hrun hslot hcur
  | launch _ hrun hcur ht hu ih => exact .launch ih hrun hcur ht hu
  | write _ ho hp hm ih => exact .write ih ho hp hm
  | interrupt sp _ ih => exact .interrupt sp ih
  | exit _ hrun hidle ih => exact .exit ih hrun hidle
  | schedule _ hs hr ih => exact .schedule ih (hok _ hs) hr

/-! ## The stacks and the idle task of a run -/

/-- No stack of the ledger ends at 4 GB, so every `kernel_esp0` but the idle task's is set; the
idle task is a kernel task. -/
structure Settled (s : Sched) (L : List Owned) : Prop where
  total : s.vmm.pmm.totalPages.toNat < 2 ^ 20
  stack : ∀ o ∈ L, o.stack + 4096 ≠ 0
  idle : ∀ o ∈ L, o.pcb = s.idleTask → o.dir = none

theorem Settled.congr (h : Settled s L) (hb : s.vmm.SameBoot s'.vmm)
    (hidle : s'.idleTask = s.idleTask)
    (hL : ∀ o ∈ M, ∃ o' ∈ L, o'.pcb = o.pcb ∧ o'.stack = o.stack ∧ o'.dir = o.dir) :
    Settled s' M := by
  refine ⟨hb.2.1.2 ▸ h.total, fun o ho => ?_, fun o ho he => ?_⟩
  · obtain ⟨o', ho', -, he, -⟩ := hL o ho
    exact he ▸ h.stack o' ho'
  · obtain ⟨o', ho', hp, -, hd⟩ := hL o ho
    exact hd ▸ h.idle o' ho' (hp.trans (he.trans hidle))

theorem Settled.same (h : Settled s L) (hb : s.vmm.SameBoot s'.vmm)
    (hidle : s'.idleTask = s.idleTask) : Settled s' L :=
  h.congr hb hidle fun o ho => ⟨o, ho, rfl, rfl, rfl⟩

/-- The stack of a new task is a page of the machine. -/
theorem Core.stack_end {v : Vmm} (hcore : Core v L xs) (htotal : v.pmm.totalPages.toNat < 2 ^ 20) :
    indexToAddr (xs.tail.headD 0) + 4096 ≠ 0 := by
  have hlt : (xs.tail.headD 0).toNat < v.pmm.totalPages.toNat ∨ xs.tail.headD 0 = 0 := by
    cases hx : xs.tail with
    | nil => exact .inr rfl
    | cons x ys =>
      exact .inl (UInt32.lt_iff_toNat_lt.1 (hcore.inv.pmm.lt (List.mem_of_mem_tail (by simp [hx]))))
  intro h0
  have hnat := congrArg UInt32.toNat h0
  rw [UInt32.toNat_add, UInt32.toNat_zero] at hnat
  rcases hlt with hlt | hz
  · rw [indexToAddr_toNat (by omega)] at hnat
    simp only [UInt32.reduceToNat] at hnat
    omega
  · rw [hz] at hnat
    exact absurd hnat (by decide)

/-- A creation keeps it. -/
theorem Settled.created (h : Settled s L) (hinv : SchedInv s L ts zs xs) {r : UInt32 × Sched}
    (hr : (∃ ys, NotCreated s L r ys) ∨ ∃ o ys, o.stack = indexToAddr (xs.tail.headD 0) ∧
      r.1 = o.pcb ∧ Created s L xs o r.2 ys) : Settled r.2 (record L r) := by
  rcases hr with ⟨ys, hno⟩ | ⟨o, ys, hstack, ho, hc⟩
  · rw [record_failed hno]
    exact h.same hno.old.boot hno.old.idle
  · rw [record_created hc ho]
    have hold := h.same hc.old.boot hc.old.idle
    refine ⟨hold.total, fun o' ho' => ?_, fun o' ho' he => ?_⟩
    · rcases List.mem_cons.1 ho' with rfl | ho'
      · exact hstack ▸ hinv.core.stack_end h.total
      · exact hold.stack o' ho'
    · rcases List.mem_cons.1 ho' with rfl | ho'
      · rw [hc.old.idle] at he
        exact absurd he.symm (hc.new _ (hinv.fresh (List.mem_append_left _ hinv.tasks.idle)).inUse)
      · exact hold.idle o' ho' he

theorem Settled.init (hl : Vmm.ImageLayout endAddr k) {fuel : Nat}
    {magic infoAddr idleLoop : UInt32} {m : Mem} {pmm : Pmm}
    (h : Pmm.pmmInit fuel endAddr magic infoAddr m = some pmm)
    (hne : ((bootSched pmm k).taskCreate idleLoop).1 ≠ 0) :
    Settled ((bootSched pmm k).taskInit idleLoop)
      (record [] ((bootSched pmm k).taskCreate idleLoop)) := by
  obtain ⟨xs, hcore⟩ := core_boot hl h
  obtain ⟨hb, us, hs, himg⟩ := Pmm.pmmInit_inv hl.room h
  obtain ⟨hboot, -⟩ := Vmm.vmmInit_inv hs (hl.inUse hb himg) hl.ne_zero
  have htotal : (bootSched pmm k).vmm.pmm.totalPages.toNat < 2 ^ 20 := by
    change (Vmm.vmmInit ⟨pmm, k, 0⟩).pmm.totalPages.toNat < _
    rw [hboot.2.1.2]
    exact Pmm.pmmInit_totalPages h
  rcases hcore.taskCreate idleLoop with hno | ⟨o, hd, -, hstack, ho, -, hc⟩
  · exact absurd hno.null hne
  · rw [record_created hc ho]
    refine ⟨?_, fun o' ho' => ?_, fun o' ho' _ => ?_⟩
    · rw [taskInit_eq (s := bootSched pmm k) rfl hne]
      exact hc.old.boot.2.1.2 ▸ htotal
    · rw [List.mem_singleton.1 ho', hstack]
      exact hcore.stack_end htotal
    · rw [List.mem_singleton.1 ho', hd]

theorem Reachable.settled (hl : Vmm.ImageLayout endAddr k) {ok : Sched → Prop}
    (hok : ∀ s, ok s → s.ReapsOwn) (h : Reachable endAddr k ok s L) : Settled s L := by
  induction h with
  | init hp hne => exact .init hl hp hne
  | create entry h _ ih =>
    obtain ⟨ts, zs, xs, hinv, -⟩ := h.inv hl hok
    refine ih.created hinv ((hinv.core.taskCreate entry).imp (fun hno => ⟨_, hno⟩) ?_)
    rintro ⟨o, -, -, hstack, ho, -, hc⟩
    exact ⟨o, _, hstack, ho, hc⟩
  | createUser entry stack h _ ih =>
    obtain ⟨ts, zs, xs, hinv, -⟩ := h.inv hl hok
    refine ih.created hinv ((hinv.core.taskCreateUser entry stack).imp (fun hno => ⟨_, hno⟩) ?_)
    rintro ⟨o, d, -, -, hstack, -, ho, hc, -⟩
    exact ⟨o, _, hstack, ho, hc⟩
  | @load s L task virt h _ ht hu hv hslot ih =>
    obtain ⟨ts, zs, xs, hinv, -⟩ := h.inv hl hok
    obtain ⟨o, ho, rfl, d, hd⟩ :=
      hinv.user_entry (List.mem_append_left _ (hinv.onList_iff.1 ht)) hu
    obtain ⟨ys, hvars, -⟩ := hinv.loadPage ho hd hv hslot
    refine ih.congr hvars.boot hvars.idle fun o' ho' => ?_
    unfold recordPage at ho'
    split at ho'
    · exact ⟨o', ho', rfl, rfl, rfl⟩
    · obtain ⟨o₁, ho₁, rfl⟩ := List.mem_map.1 ho'
      refine ⟨o₁, ho₁, ?_⟩
      split <;> exact ⟨rfl, rfl, rfl⟩
  | @map s L virt phys h _ hslot hcur ih =>
    obtain ⟨ts, zs, xs, hinv, -⟩ := h.inv hl hok
    obtain ⟨ys, gone, -, hk, -⟩ := hinv.core.mapKernel hslot phys pageWrite
    rw [← hcur] at hk
    exact ih.same hk.boot rfl
  | @unmap s L virt h _ hslot hcur ih =>
    obtain ⟨ts, zs, xs, hinv, -⟩ := h.inv hl hok
    obtain ⟨gone, -, hk, -⟩ := hinv.core.unmapKernel virt
    rw [← hcur] at hk
    exact ih.same hk.boot rfl
  | @launch s L task _ _ _ _ _ ih =>
    obtain ⟨e, d, heq⟩ := launch_eq s task
    rw [heq]
    exact ih.same (Vmm.sameBoot_setMem ..) rfl
  | write _ _ _ _ ih => exact ih.same (Vmm.sameBoot_setMem ..) rfl
  | interrupt _ _ ih => exact ih.same (Vmm.sameBoot_setMem ..) rfl
  | exit h _ _ ih =>
    obtain ⟨ts, zs, xs, hinv, -⟩ := h.inv hl hok
    rw [hinv.markTerminated.2]
    exact ih.same (Vmm.sameBoot_setMem ..) rfl
  | schedule h hs hr ih =>
    obtain ⟨ts, zs, xs, hinv, ha⟩ := h.inv hl hok
    obtain ⟨hboot, hidle⟩ := (hinv.schedule_outcome ha (hok _ hs) hr).kept
    exact ih.congr hboot hidle fun o ho => ⟨o, List.mem_of_mem_filter ho, rfl, rfl, rfl⟩

end

end HaoSys.Proc
