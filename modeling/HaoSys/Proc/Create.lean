import HaoSys.Proc.TaskInv

/-!
# Creating tasks

What `task_create` and `task_create_user` do to the ledger. Pages are taken
from the allocator, so they are none of the ledger's, and everything is
written into the new ones.
-/

namespace HaoSys.Proc

open HaoSys.Lib HaoSys.Mm

/-- The calls that make tasks leave the scheduler's other variables and the pages of the tasks
there are. -/
structure SameOld (s s' : Sched) (L : List Owned) : Prop where
  boot : s.vmm.SameBoot s'.vmm
  current : s'.currentTask = s.currentTask
  idle : s'.idleTask = s.idleTask
  zombies : s'.zombieList = s.zombieList
  esp0 : s'.esp0 = s.esp0
  directory : s'.vmm.currentDirectory = s.vmm.currentDirectory
  page : ∀ p ∈ held L, ∀ i, i.toNat < 1024 → entryAt s'.vmm.mem p i = entryAt s.vmm.mem p i

section

variable {s s' : Sched} {L : List Owned} {ts zs xs ys gone : List UInt32} {o : Owned}
  {v w : Vmm}

theorem SameOld.get (h : SameOld s s' L) (ho : o ∈ L) (f : Field) :
    s'.get o.pcb f = s.get o.pcb f := h.page _ (pcb_mem_held ho) _ f.index_lt

/-- A change of the memory managers alone. -/
theorem Core.sameOld (h : Core s.vmm L xs) (hk : s.vmm.KeepsOff xs w ys gone)
    (hd : w.currentDirectory = s.vmm.currentDirectory) (hg : ∀ p ∈ held L, p ∉ gone) :
    SameOld s { s with vmm := w } L :=
  ⟨hk.boot, rfl, rfl, rfl, rfl, hd, fun p hp => hk.entry p (h.fresh p hp).inUse (hg p hp)⟩

/-- A change that leaves the lists and the states; the ledger may say more about its tasks. -/
theorem Tasks.of_links {L' : List Owned} (h : Tasks s L ts zs)
    (hcur : s'.currentTask = s.currentTask) (hidle : s'.idleTask = s.idleTask)
    (hlist : s'.taskList = s.taskList) (hz : s'.zombieList = s.zombieList)
    (hnext : ∀ t ∈ ts ++ zs, s'.get t .next = s.get t .next)
    (hstate : ∀ t ∈ ts ++ zs, s'.get t .state = s.get t .state) (hok : ∀ o ∈ L', TaskOk s' o)
    (hL : (L.map Owned.pcb).Perm (L'.map Owned.pcb)) : Tasks s' L' ts zs := by
  refine ⟨hok, ?_, ?_, h.perm.trans hL, hcur ▸ h.current, hidle ▸ h.idle, fun t ht hne => ?_⟩
  · rw [hlist]
    exact h.list.congr fun t ht => hnext t (List.mem_append_left _ ht)
  · rw [hz]
    exact h.zombies.congr fun t ht => hnext t (List.mem_append_right _ ht)
  · rw [hstate t (List.mem_append_left _ ht), hidle]
    exact h.ready t ht (hcur ▸ hne)

theorem Tasks.congr (h : Tasks s L ts zs) (hold : SameOld s s' L)
    (hlist : s'.taskList = s.taskList) : Tasks s' L ts zs := by
  have hget : ∀ t, t ∈ ts ++ zs → ∀ f, s'.get t f = s.get t f := by
    intro t ht f
    obtain ⟨o, ho, rfl⟩ := List.mem_map.1 (h.perm.subset ht)
    exact hold.get ho f
  exact h.of_links hold.current hold.idle hlist hold.zombies (fun t ht => hget t ht _)
    (fun t ht => hget t ht _)
    (fun o ho => (h.ok o ho).congr hold.idle fun f _ _ _ => hold.get ho f) (.refl _)

/-- A task put in front of the list. -/
theorem Tasks.push (h : Tasks s L ts zs) (hold : SameOld s s' L) (hok : TaskOk s' o)
    (hlist : s'.taskList = o.pcb) (hnext : s'.get o.pcb .next = s.taskList)
    (hready : s'.get o.pcb .state = TaskState.ready.code) :
    Tasks s' (o :: L) (o.pcb :: ts) zs := by
  have hsame : Tasks { s' with taskList := s.taskList } L ts zs :=
    h.congr ⟨hold.boot, hold.current, hold.idle, hold.zombies, hold.esp0, hold.directory, hold.page⟩
      rfl
  refine ⟨fun o' ho' => ?_, ?_, hsame.zombies, ?_, List.mem_cons_of_mem _ hsame.current,
    List.mem_cons_of_mem _ hsame.idle, fun t ht hne => ?_⟩
  · rcases List.mem_cons.1 ho' with rfl | ho'
    · exact hok
    · exact (hsame.ok o' ho').congr rfl fun _ _ _ _ => rfl
  · refine ⟨hlist, ?_⟩
    change Follows _ (s'.get o.pcb .next) ts 0
    rw [hnext]
    exact hsame.list
  · exact h.perm.cons _
  · rcases List.mem_cons.1 ht with rfl | ht
    · exact .inl hready
    · exact hsame.ready t ht hne

/-! ## Frames and fields -/

/-- A stack is filled from its top inside its page. -/
theorem layWords_apply {stack c : UInt32} (ha : stack.toNat % 4096 = 0)
    (hc : addrToIndex c ≠ addrToIndex stack) :
    ∀ {ws : List UInt32} {i : UInt32} {m : Mem}, i.toNat < 1024 → ws.length ≤ i.toNat →
      Sched.layWords stack i ws m c = m c := by
  intro ws
  induction ws with
  | nil => exact fun _ _ => rfl
  | cons w ws ih =>
    intro i m hi hlen
    rw [List.length_cons] at hlen
    have hpred : (i - 1).toNat = i.toNat - 1 :=
      UInt32.toNat_sub_of_le i 1 (UInt32.le_iff_toNat_le.2 (by rw [UInt32.toNat_one]; omega))
    unfold Sched.layWords
    rw [ih (by omega) (by omega), storeEntry_apply ha hi hc]

theorem fillTask_vmm (s : Sched) {task : UInt32} (ha : task.toNat % 4096 = 0)
    (esp eip kernelEsp0 isUser pd : UInt32) :
    ∃ m, (s.fillTask task esp eip kernelEsp0 isUser pd).vmm = s.vmm.setMem m ∧
      ∀ c, addrToIndex c ≠ addrToIndex task → m c = s.vmm.mem c := by
  refine ⟨_, rfl, fun c hc => ?_⟩
  have hstore := fun (m : Mem) (f : Field) (e : UInt32) =>
    storeEntry_apply (m := m) (e := e) ha f.index_lt hc
  simp only [Sched.set, Vmm.setMem_mem, hstore]

/-- The words of a new task. -/
theorem fillTask_get (s : Sched) {task : UInt32} (ha : task.toNat % 4096 = 0)
    (esp eip kernelEsp0 isUser pd : UInt32) (f : Field) :
    (s.fillTask task esp eip kernelEsp0 isUser pd).get task f =
      match f with
      | .esp => esp
      | .eip => eip
      | .pid => s.nextPid
      | .state => TaskState.ready.code
      | .kernelEsp0 => kernelEsp0
      | .isUser => isUser
      | .pageDirectory => pd
      | .next => s.taskList
      | f => s.get task f := by
  have hpid : ∀ (s : Sched) n t f, Sched.get { s with nextPid := n } t f = s.get t f :=
    fun _ _ _ _ => rfl
  have hlist : ∀ (s : Sched) n t f, Sched.get { s with taskList := n } t f = s.get t f :=
    fun _ _ _ _ => rfl
  unfold Sched.fillTask
  simp only [hlist, hpid, get_set ha ha, true_and]
  cases f <;> simp [Sched.set]

/-! ## The calls -/

/-- What a creation that succeeds makes of the state. -/
structure Created (s : Sched) (L : List Owned) (xs : List UInt32) (o : Owned) (s' : Sched)
    (ys : List UInt32) : Prop where
  core : Core s'.vmm (o :: L) ys
  old : SameOld s s' L
  keeps : s.vmm.KeepsOff xs s'.vmm ys []
  new : ∀ a, s.vmm.pmm.InUse xs a → a ≠ o.pcb
  maps : o.maps = []
  list : s'.taskList = o.pcb
  next : s'.get o.pcb .next = s.taskList
  state : s'.get o.pcb .state = TaskState.ready.code
  esp0 : s'.get o.pcb .kernelEsp0 = o.stack + 4096
  user : s'.get o.pcb .isUser = if o.dir.isSome then 1 else 0
  dir : ∀ d, o.dir = some d → s'.get o.pcb .pageDirectory = d
  count : s'.get o.pcb .userVirtCount = 0

/-- The frame and the words of a new task go into its two pages. -/
theorem Core.finish (h : Core s.vmm L xs) (hc : Core v (o :: L) ys)
    (hk : s.vmm.KeepsOff xs v ys []) (hd : v.currentDirectory = s.vmm.currentDirectory)
    (hmaps : o.maps = []) (hcount : entryAt v.mem o.pcb Field.userVirtCount.index = 0)
    (hnewp : ∀ a, s.vmm.pmm.InUse xs a → a ≠ o.pcb)
    (hnews : ∀ a, s.vmm.pmm.InUse xs a → a ≠ o.stack) (hne : o.pcb ≠ o.stack)
    (frame : List UInt32) (hlen : frame.length ≤ 1023) (esp eip isUser pd : UInt32)
    (huser : isUser = if o.dir.isSome then 1 else 0) (hpd : ∀ d, o.dir = some d → pd = d) :
    Created s L xs o
      (Sched.fillTask { s with vmm := v.setMem (Sched.layWords o.stack 1023 frame v.mem) }
        o.pcb esp eip (o.stack + 4096) isUser pd) ys ∧
      SameTables (dirs (o :: L)) v
        (Sched.fillTask { s with vmm := v.setMem (Sched.layWords o.stack 1023 frame v.mem) }
          o.pcb esp eip (o.stack + 4096) isUser pd).vmm := by
  have hso : o ∈ o :: L := List.mem_cons_self
  have hpa := (hc.pcb hso).inUse.aligned
  have hsa := (hc.stack hso).inUse.aligned
  have hlay : ∀ c, addrToIndex c ≠ addrToIndex o.stack →
      Sched.layWords o.stack 1023 frame v.mem c = v.mem c :=
    fun c hcne => layWords_apply hsa hcne (by decide) hlen
  obtain ⟨hc1, he1⟩ := hc.write (stack_mem_held hso) hlay
  obtain ⟨m, hvmm, hm⟩ := fillTask_vmm { s with vmm := v.setMem (Sched.layWords o.stack 1023 frame
    v.mem) } hpa esp eip (o.stack + 4096) isUser pd
  obtain ⟨hc2, he2⟩ := hc1.write (pcb_mem_held hso) hm
  rw [← hvmm] at hc2 he2
  have hkeep := ((hk.trans he1.keeps).trans he2.keeps).of_new fun a ha => by
    simp only [List.nil_append, List.mem_append, List.mem_singleton, not_or]
    exact ⟨hnews a ha, hnewp a ha⟩
  have hget := fillTask_get { s with vmm := v.setMem (Sched.layWords o.stack 1023 frame v.mem) } hpa
    esp eip (o.stack + 4096) isUser pd
  have htables : SameTables (dirs (o :: L)) v _ :=
    (hc.sameTables he1.keeps fun d hd hm => (hc.stack hso).notDir (List.mem_singleton.1 hm ▸ hd)).trans
      (hc1.sameTables he2.keeps fun d hd hm => (hc1.pcb hso).notDir (List.mem_singleton.1 hm ▸ hd))
  refine ⟨⟨hc2, ⟨hkeep.boot, rfl, rfl, rfl, rfl, ?_, fun p hp =>
    hkeep.entry p (h.fresh p hp).inUse List.not_mem_nil⟩, hkeep, hnewp, hmaps, rfl, hget .next,
    hget .state, hget .kernelEsp0, (hget .isUser).trans huser, fun d hod => ?_, ?_⟩, htables⟩
  · rw [hvmm]
    exact hd
  · exact (hget .pageDirectory).trans (hpd d hod)
  · rw [hget .userVirtCount]
    change entryAt (Sched.layWords o.stack 1023 frame v.mem) o.pcb _ = _
    rw [entryAt_congr hpa (Field.index_lt _) fun c hcp => hlay c (by
      rw [hcp]
      exact page_ne hsa hpa hne), hcount]

/-- A failed creation has taken pages at most. -/
theorem Core.failed (h : Core s.vmm L xs) (he : s.vmm.Evolves (dirs L) xs w (dirs L) ys gone)
    (hd : w.currentDirectory = s.vmm.currentDirectory)
    (hg : ∀ p ∈ gone, ¬ s.vmm.pmm.InUse xs p) :
    Core w L ys ∧ SameOld s { s with vmm := w } L ∧ SameTables (dirs L) s.vmm w := by
  have he' : s.vmm.Evolves (dirs L) xs w (dirs L) ys [] :=
    he.mono fun a ha hm => absurd ha (hg a hm)
  exact ⟨h.of_evolves_nil he', h.sameOld he'.keeps hd fun _ _ => List.not_mem_nil,
    h.sameTables he'.keeps fun _ _ => List.not_mem_nil⟩

theorem SameOld.refl (s : Sched) (L : List Owned) : SameOld s s L :=
  ⟨.refl _, rfl, rfl, rfl, rfl, rfl, fun _ _ _ _ => rfl⟩

theorem SameOld.trans {s'' : Sched} (h₁ : SameOld s s' L) (h₂ : SameOld s' s'' L) :
    SameOld s s'' L :=
  ⟨h₁.boot.trans h₂.boot, h₂.current.trans h₁.current, h₂.idle.trans h₁.idle,
    h₂.zombies.trans h₁.zombies, h₂.esp0.trans h₁.esp0, h₂.directory.trans h₁.directory,
    fun p hp i hi => (h₂.page p hp i hi).trans (h₁.page p hp i hi)⟩

/-- The two pages every new task starts with. -/
structure TwoPages (s : Sched) (L : List Owned) (xs : List UInt32) (task stack : UInt32) (v : Vmm) :
    Prop where
  evolves : s.vmm.Evolves (dirs L) xs v (dirs L) xs.tail.tail []
  directory : v.currentDirectory = s.vmm.currentDirectory
  freshTask : v.Fresh (dirs L) xs.tail.tail task
  freshStack : v.Fresh (dirs L) xs.tail.tail stack
  ne : task ≠ stack
  notTask : ∀ a, s.vmm.pmm.InUse xs a → a ≠ task
  notStack : ∀ a, s.vmm.pmm.InUse xs a → a ≠ stack
  cleared : ∀ i, i.toNat < 1024 → entryAt v.mem task i = 0

/-- A creation gets its two pages, or ends having lost page 0 at most. -/
theorem Core.twoPages (h : Core s.vmm L xs) :
    ∃ task v1, s.vmm.allocatePt = (task, v1) ∧ task = indexToAddr (xs.headD 0) ∧
      (task = 0 → Core v1 L (xs.erase 0) ∧ SameOld s { s with vmm := v1 } L ∧
        SameTables (dirs L) s.vmm v1) ∧
      (task ≠ 0 → ∃ stack pmm, v1.pmm.pmmAllocPage = (stack, pmm) ∧
        stack = indexToAddr (xs.tail.headD 0) ∧
        (stack = 0 → Core (Vmm.freePage { v1 with pmm := pmm } task) L (xs.erase 0) ∧
          SameOld s { s with vmm := Vmm.freePage { v1 with pmm := pmm } task } L ∧
          SameTables (dirs L) s.vmm (Vmm.freePage { v1 with pmm := pmm } task)) ∧
        (stack ≠ 0 → TwoPages s L xs task stack { v1 with pmm := pmm })) := by
  obtain ⟨task, v1, halloc, haddr, he1, hd1, hfr1⟩ := h.inv.evolves_allocatePt
  refine ⟨task, v1, halloc, haddr, fun h0 => ?_, fun h0 => ?_⟩
  · rw [h.inv.pmm.tail_eq_erase (haddr ▸ h0)] at he1
    exact h.failed he1 hd1 fun _ hm => absurd hm List.not_mem_nil
  obtain ⟨hft, holdt, hzero⟩ := hfr1 h0
  obtain ⟨stack, pmm, halloc2, haddr2, he2, hfr2⟩ := he1.inv.evolves_alloc
  have he := he1.trans he2
  have hft2 := he2.fresh task hft List.not_mem_nil
  refine ⟨stack, pmm, halloc2, haddr2, fun hs0 => ?_, fun hs0 => ?_⟩
  · rw [he1.inv.pmm.tail_eq_erase (haddr2 ▸ hs0)] at he he2 hft2
    subst haddr
    have he3 := h.inv.evolves_giveBack (List.Subset.refl xs) h0 he2.inv he.keeps.boot.2.1.2 hft2
    refine h.failed (he.trans he3) hd1 fun p hp hu => holdt p hu ?_
    simpa using hp
  · obtain ⟨hfs, holds⟩ := hfr2 hs0
    refine ⟨he, hd1, hft2, hfs, holds task hft.inUse, holdt, fun a ha => ?_, fun i hi => ?_⟩
    · exact holds a (he1.keeps.inUse a ha List.not_mem_nil)
    · rw [he2.keeps.entry task hft.inUse List.not_mem_nil i hi, hzero i hi]

theorem TwoPages.not_held {task stack : UInt32} (hp : TwoPages s L xs task stack v)
    (hc : Core s.vmm L xs) : task ∉ held L ∧ stack ∉ held L :=
  ⟨fun hm => hp.notTask task (hc.fresh task hm).inUse rfl,
    fun hm => hp.notStack stack (hc.fresh stack hm).inUse rfl⟩

/-- A creation that fails: the allocator may have lost page 0. -/
structure NotCreated (s : Sched) (L : List Owned) (r : UInt32 × Sched) (ys : List UInt32) :
    Prop where
  null : r.1 = 0
  core : Core r.2.vmm L ys
  old : SameOld s r.2 L
  tables : SameTables (dirs L) s.vmm r.2.vmm
  list : r.2.taskList = s.taskList

theorem Core.taskCreate (h : Core s.vmm L xs) (entry : UInt32) :
    NotCreated s L (s.taskCreate entry) (if entry = 0 then xs else xs.erase 0) ∨
      ∃ o : Owned, o.dir = none ∧ o.pcb = indexToAddr (xs.headD 0) ∧
        o.stack = indexToAddr (xs.tail.headD 0) ∧ (s.taskCreate entry).1 = o.pcb ∧
        (s.taskCreate entry).2.get o.pcb .pageDirectory = s.vmm.currentDirectory ∧
        Created s L xs o (s.taskCreate entry).2 xs.tail.tail := by
  unfold Sched.taskCreate
  by_cases h0 : entry = 0
  · rw [if_pos h0, if_pos h0]
    exact .inl ⟨rfl, h, .refl s L, .refl _ _, rfl⟩
  rw [if_neg h0, if_neg h0]
  obtain ⟨task, v1, halloc, haddr, hz, hnz⟩ := h.twoPages
  simp only [halloc]
  by_cases ht : task = 0
  · obtain ⟨hcore, hold, htables⟩ := hz ht
    rw [if_pos ht]
    exact .inl ⟨rfl, hcore, hold, htables, rfl⟩
  obtain ⟨stack, pmm, halloc2, haddr2, hsz, hsnz⟩ := hnz ht
  simp only [if_neg ht, halloc2]
  by_cases hs : stack = 0
  · obtain ⟨hcore, hold, htables⟩ := hsz hs
    rw [if_pos hs]
    exact .inl ⟨rfl, hcore, hold, htables, rfl⟩
  have hp := hsnz hs
  rw [if_neg hs]
  obtain ⟨hnt, hns⟩ := hp.not_held h
  have hcore : Core { v1 with pmm := pmm } (⟨task, stack, none, []⟩ :: L) xs.tail.tail :=
    (h.of_evolves_nil hp.evolves).add (.refl hp.evolves.inv) rfl (fun _ hd => by cases hd)
      hp.freshTask hp.freshStack hp.ne hnt hns
  obtain ⟨hcreated, -⟩ := h.finish hcore hp.evolves.keeps hp.directory rfl
    (hp.cleared _ (Field.index_lt _)) hp.notTask hp.notStack hp.ne (Sched.kernelFrame entry)
    (by simp [Sched.kernelFrame])
    (stack + 4096 - 4 * UInt32.ofNat (Sched.kernelFrame entry).length) entry 0 v1.currentDirectory
    rfl fun _ hd => by cases hd
  refine .inr ⟨⟨task, stack, none, []⟩, rfl, haddr, haddr2, rfl, ?_, hcreated⟩
  exact (fillTask_get _ hp.freshTask.inUse.aligned _ _ _ _ _ .pageDirectory).trans hp.directory

theorem Core.taskCreateUser (h : Core s.vmm L xs) (entry stack : UInt32) :
    NotCreated s L (s.taskCreateUser entry stack)
        (if entry = 0 ∨ stack = 0 then xs else xs.erase 0) ∨
      ∃ (o : Owned) (d : UInt32), o.dir = some d ∧ o.pcb = indexToAddr (xs.headD 0) ∧
        o.stack = indexToAddr (xs.tail.headD 0) ∧ d = indexToAddr (xs.tail.tail.headD 0) ∧
        (s.taskCreateUser entry stack).1 = o.pcb ∧
        Created s L xs o (s.taskCreateUser entry stack).2 xs.tail.tail.tail ∧
        ∀ i, tableOf (s.taskCreateUser entry stack).2.vmm.mem d i =
          tableOf s.vmm.mem s.vmm.kernelPageDirectory i := by
  unfold Sched.taskCreateUser
  by_cases h0 : entry = 0 ∨ stack = 0
  · rw [if_pos h0, if_pos h0]
    exact .inl ⟨rfl, h, .refl s L, .refl _ _, rfl⟩
  rw [if_neg h0, if_neg h0]
  obtain ⟨task, v1, halloc, haddr, hz, hnz⟩ := h.twoPages
  simp only [halloc]
  by_cases ht : task = 0
  · obtain ⟨hcore, hold, htables⟩ := hz ht
    rw [if_pos ht]
    exact .inl ⟨rfl, hcore, hold, htables, rfl⟩
  obtain ⟨kstack, pmm, halloc2, haddr2, hsz, hsnz⟩ := hnz ht
  simp only [if_neg ht, halloc2]
  by_cases hs : kstack = 0
  · obtain ⟨hcore, hold, htables⟩ := hsz hs
    rw [if_pos hs]
    exact .inl ⟨rfl, hcore, hold, htables, rfl⟩
  have hp := hsnz hs
  rw [if_neg hs]
  obtain ⟨hnt, hns⟩ := hp.not_held h
  obtain ⟨d, w, hcreate, haddr3, hdw, hdz, hdnz⟩ := hp.evolves.inv.evolves_create
  simp only [hcreate]
  by_cases hd0 : d = 0
  · -- no page for the directory: both pages go back
    rw [if_pos hd0]
    have he2 := hdz hd0
    rw [hp.evolves.inv.pmm.tail_eq_erase (haddr3 ▸ hd0)] at he2
    have hfs := he2.fresh kstack hp.freshStack List.not_mem_nil
    have hft := he2.fresh task hp.freshTask List.not_mem_nil
    have hboot := hp.evolves.keeps.boot.trans he2.keeps.boot
    subst haddr haddr2
    have he3 := h.inv.evolves_giveBack (List.tail_subset xs) hs he2.inv hboot.2.1.2 hfs
    have he4 := h.inv.evolves_giveBack (List.Subset.refl xs) ht he3.inv
      (he3.keeps.boot.2.1.2.trans hboot.2.1.2)
      (he3.fresh _ hft (by simpa using hp.ne))
    obtain ⟨hcore, hold, htables⟩ := h.failed (((hp.evolves.trans he2).trans he3).trans he4)
      (hdw.trans hp.directory) fun p hm hu => by
        have hpg : p = indexToAddr (xs.tail.headD 0) ∨ p = indexToAddr (xs.headD 0) := by
          simpa using hm
        rcases hpg with rfl | rfl
        · exact hp.notStack _ hu rfl
        · exact hp.notTask _ hu rfl
    exact .inl ⟨rfl, hcore, hold, htables, rfl⟩
  · rw [if_neg hd0]
    obtain ⟨he2, hnd, -, hcopy⟩ := hdnz hd0
    have hcore : Core w (⟨task, kstack, some d, []⟩ :: L) xs.tail.tail.tail :=
      (h.of_evolves_nil hp.evolves).add he2 rfl (fun d' hd' => by cases hd'; exact hnd)
        hp.freshTask hp.freshStack hp.ne hnt hns
    have hcount : entryAt w.mem task Field.userVirtCount.index = 0 := by
      rw [he2.keeps.entry task hp.freshTask.inUse List.not_mem_nil _ (Field.index_lt _),
        hp.cleared _ (Field.index_lt _)]
    obtain ⟨hcreated, htables⟩ := h.finish hcore (hp.evolves.keeps.trans he2.keeps)
      (hdw.trans hp.directory) rfl hcount hp.notTask hp.notStack hp.ne
      (Sched.userFrame entry stack) (by simp [Sched.userFrame])
      (kstack + 4096 - 4 * UInt32.ofNat (Sched.userFrame entry stack).length) entry 1 d rfl
      fun _ hd' => by cases hd'; rfl
    refine .inr ⟨⟨task, kstack, some d, []⟩, d, rfl, haddr, haddr2, haddr3, rfl, hcreated,
      fun i => ?_⟩
    have hk := (h.inv.dir _ List.mem_cons_self).2
    rw [htables.tables d (by simp [dirs]), tableOf_congr (hcopy i), hp.evolves.keeps.boot.1]
    exact hp.evolves.keeps.tableOf hk List.not_mem_nil

/-! ## The lists -/

theorem SchedInv.failed (h : SchedInv s L ts zs xs) {r : UInt32 × Sched}
    (hr : NotCreated s L r ys) : SchedInv r.2 L ts zs ys :=
  ⟨hr.core, h.tasks.congr hr.old hr.list⟩

theorem Created.taskOk (h : Created s L xs o s' ys) (hidle : o.pcb ≠ s.idleTask) :
    TaskOk s' o := by
  refine ⟨?_, h.user, h.dir, ?_, by simp [h.maps], fun i p hp => ?_⟩
  · rw [h.esp0, h.old.idle, if_neg hidle]
  · rw [h.count, h.maps]
    rfl
  · rw [h.maps] at hp
    cases hp

theorem SchedInv.created (h : SchedInv s L ts zs xs) (hc : Created s L xs o s' ys) :
    SchedInv s' (o :: L) (o.pcb :: ts) zs ys := by
  have hidle : o.pcb ≠ s.idleTask := fun e =>
    hc.new _ (h.fresh (List.mem_append_left _ h.tasks.idle)).inUse e.symm
  exact ⟨hc.core, h.tasks.push hc.old (hc.taskOk hidle) hc.list hc.next hc.state⟩

end

end HaoSys.Proc
