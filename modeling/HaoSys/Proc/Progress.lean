import HaoSys.Proc.Steps

/-!
# Every step keeps the tasks that are not at work

One lemma for each step of the machine (`Next`), in three groups: the steps that
create and load, those of the current task itself, and those that stop it and may
go on with another.
-/

namespace HaoSys.Proc

open HaoSys.Lib HaoSys.Mm

section

variable {s s' s₁ : Machine} {x x' : Sched} {L L' : List Owned} {ts zs xs ys : List UInt32}
  {o o' : Owned} {m : Mem} {c : Cpu} {fuel top b : Nat} {freed : List UInt32} {e : Event}
  {p task virt entry stack flags sp : UInt32} {r : Sched.Scheduled}

/-! ## Creating and loading -/

theorem Live.current_entry (h : Live s L) : ∃ o ∈ L, o.pcb = s.sched.currentTask := by
  obtain ⟨ts, zs, xs, hinv⟩ := h.inv
  exact hinv.entry (List.mem_append_left _ hinv.tasks.current)

/-- The memory managers change, but not on pages of the ledger. -/
theorem Live.keeps {w : Vmm} (h : Live s L)
    (hw : ∀ xs, Core s.sched.vmm L xs → ∃ ys gone, Core w L ys ∧ s.sched.vmm.KeepsOff xs w ys gone ∧
      w.currentDirectory = s.sched.vmm.currentDirectory ∧ ∀ p ∈ held L, p ∉ gone) :
    Quiets s L { s.sched with vmm := w } L := by
  obtain ⟨ts, zs, xs, hinv⟩ := h.inv
  have hkeep := hw xs hinv.core
  obtain ⟨hinv', -, -, hstate⟩ := hinv.still_keeps hkeep
  obtain ⟨ys, gone, -, hoff, hcur, hgone⟩ := hkeep
  have hold := hinv.core.sameOld hoff hcur hgone
  obtain ⟨ys', hinv'⟩ := hinv'
  have hlist := hinv.onList_congr hinv'
  refine ⟨rfl, rfl, rfl, ⟨ts, zs, ys', hinv'⟩, h.settled.same hold.boot rfl,
    hstate _ hinv.tasks.current, fun t ht => (hlist t).2 ht, fun o ho => hold.untouched ho,
    fun o' ho' hl => .inl ⟨o', ho', rfl, rfl, rfl, (hlist _).1 hl⟩⟩

theorem Live.created (h : Live s L) {r : UInt32 × Sched}
    (hr : ∀ xs, Core s.sched.vmm L xs → (∃ ys, NotCreated s.sched L r ys) ∨
      ∃ o ys, o.stack = indexToAddr (xs.tail.headD 0) ∧ r.1 = o.pcb ∧
        Created s.sched L xs o r.2 ys ∧ Parked r.2 o) : Quiets s L r.2 (record L r) := by
  obtain ⟨ts, zs, xs, hinv⟩ := h.inv
  obtain ⟨oc, hoc, hcur⟩ := h.current_entry
  have hr := hr xs hinv.core
  have hset : Settled r.2 (record L r) := h.settled.created hinv (hr.imp_right
    fun ⟨o, ys, hstack, ho, hc, _⟩ => ⟨o, ys, hstack, ho, hc⟩)
  rcases hr with ⟨ys, hno⟩ | ⟨o, ys, -, ho, hc, hpark⟩
  · rw [record_failed hno] at hset ⊢
    have hinv' := hinv.failed hno
    have hlist := hinv.onList_congr hinv'
    exact ⟨hno.old.current, hno.old.idle, hno.old.esp0, ⟨_, _, _, hinv'⟩, hset,
      hcur ▸ hno.old.get hoc _, fun t ht => (hlist t).2 ht, fun o ho => hno.old.untouched ho,
      fun o' ho' hl => .inl ⟨o', ho', rfl, rfl, rfl, (hlist _).1 hl⟩⟩
  · rw [record_created hc ho] at hset ⊢
    have hinv' := hinv.created hc
    have hnew : ∀ o' ∈ L, o'.pcb ≠ o.pcb := fun o' ho' => hc.new _ (hinv.core.pcb ho').inUse
    refine ⟨hc.old.current, hc.old.idle, hc.old.esp0, ⟨_, _, _, hinv'⟩, hset,
      hcur ▸ hc.old.get hoc _, fun t ht => ?_, fun o ho => hc.old.untouched ho,
      fun o' ho' hl => ?_⟩
    · exact hinv'.onList_iff.2 (List.mem_cons_of_mem _ (hinv.onList_iff.1 ht))
    · rcases List.mem_cons.1 ho' with rfl | ho'
      · exact .inr ⟨fun e => hnew oc hoc (hcur.trans e.symm), hpark⟩
      · refine .inl ⟨o', ho', rfl, rfl, rfl, hinv.onList_iff.2 ?_⟩
        exact (List.mem_cons.1 (hinv'.onList_iff.1 hl)).resolve_left (hnew o' ho')

theorem Live.taskCreate (h : Live s L) (entry : UInt32) :
    Quiets s L (s.sched.taskCreate entry).2 (record L (s.sched.taskCreate entry)) := by
  refine h.created fun xs hcore => (hcore.taskCreate entry).imp (fun hno => ⟨_, hno⟩) ?_
  rintro ⟨o, hd, -, hstack, ho, -, hc⟩
  exact ⟨o, _, hstack, ho, hc, (hc.fresh ho hd 0).parked⟩

theorem Live.taskCreateUser (h : Live s L) (entry stack : UInt32) :
    Quiets s L (s.sched.taskCreateUser entry stack).2
      (record L (s.sched.taskCreateUser entry stack)) := by
  refine h.created fun xs hcore => (hcore.taskCreateUser entry stack).imp (fun hno => ⟨_, hno⟩) ?_
  rintro ⟨o, d, hd, -, hstack, -, ho, hc, -⟩
  exact ⟨o, _, hstack, ho, hc, (hc.fresh_user ho (by rw [hd]; rfl)).parked⟩

theorem Live.loadPage (h : Live s L) (ht : s.sched.OnList task)
    (hu : s.sched.isUserTask task = true) (hv : virt.toNat % 4096 = 0)
    (hslot : Loadable s.sched.vmm virt) :
    Quiets s L (s.sched.loadPage task virt) (recordPage L s.sched task virt) := by
  obtain ⟨ts, zs, xs, hinv⟩ := h.inv
  obtain ⟨o, ho, rfl, d, hd⟩ := hinv.user_entry (List.mem_append_left _ (hinv.onList_iff.1 ht)) hu
  obtain ⟨⟨ys, hinv'⟩, -⟩ := hinv.still_loadPage ht hu hv hslot
  obtain ⟨_, hvars, hwords, -⟩ := hinv.loadPage ho hd hv hslot
  have hlist := hinv.onList_congr hinv'
  have hsame : ∀ o' ∈ recordPage L s.sched o.pcb virt,
      ∃ o₁ ∈ L, o₁.pcb = o'.pcb ∧ o₁.stack = o'.stack ∧ o₁.dir = o'.dir := by
    intro o' ho'
    unfold recordPage at ho'
    split at ho'
    · exact ⟨o', ho', rfl, rfl, rfl⟩
    · obtain ⟨o₁, ho₁, rfl⟩ := List.mem_map.1 ho'
      refine ⟨o₁, ho₁, ?_⟩
      split <;> exact ⟨rfl, rfl, rfl⟩
  refine ⟨hvars.current, hvars.idle, hvars.esp0, ⟨ts, zs, ys, hinv'⟩,
    h.settled.congr hvars.boot hvars.idle hsame,
    hwords _ (List.mem_append_left _ hinv.tasks.current) .state (by simp) (by simp),
    fun t ht => (hlist t).2 ht, fun o' ho' => hinv.loadPage_untouched ho hd ho',
    fun o' ho' hl => ?_⟩
  obtain ⟨o₁, ho₁, hp, hs, hdir⟩ := hsame o' ho'
  exact .inl ⟨o₁, ho₁, hp.symm, hs.symm, hdir.symm, hp ▸ (hlist _).1 hl⟩

/-- The entries of the other tasks stay when a page is recorded. -/
theorem mem_recordPage (ho : o ∈ L) (hne : o.pcb ≠ task) : o ∈ recordPage L x task virt := by
  unfold recordPage
  split
  · exact ho
  · exact List.mem_map.2 ⟨o, ho, if_neg hne⟩

theorem mem_record {r : UInt32 × Sched} (ho : o ∈ L) : o ∈ record L r := by
  unfold record
  split
  · exact ho
  · exact List.mem_cons_of_mem _ ho

theorem Live.next_quiets (h : Live s L) (hq : Quiets s L x L')
    (hmem : ∀ o ∈ L, ¬ e.by s.sched.currentTask o.pcb → o ∈ L') :
    Next e s L { s with sched := x } L' :=
  ⟨h.quiets hq, hq.idle, fun o ho hl _ hby =>
    ⟨hmem o ho hby, hq.list _ hl, h.quiets_kept hq ho (hmem o ho hby) hl⟩⟩

/-! ## The current task at work -/

/-- The current task, or the loader for `o`, writes a page of `o`. -/
theorem Live.write (h : Live s L) (ho : o ∈ L) (hp : p ∈ o.stack :: o.maps.map Prod.snd)
    (hm : ∀ a, addrToIndex a ≠ addrToIndex p → m a = s.mem a) :
    (∃ ts zs xs, SchedInv s.sched L ts zs xs ∧ SchedInv (s.setMem m).sched L ts zs xs) ∧
      Settled (s.setMem m).sched L ∧ (∀ t, (s.setMem m).sched.OnList t ↔ s.sched.OnList t) ∧
      (∀ o' ∈ L, ∀ f, (s.setMem m).sched.get o'.pcb f = s.sched.get o'.pcb f) ∧
      ∀ o' ∈ L, o' ≠ o → Untouched o' s.mem m := by
  obtain ⟨ts, zs, xs, hinv⟩ := h.inv
  obtain ⟨hinv', hget⟩ := hinv.write ho hp hm
  have hmem := mem_held ho (List.mem_cons_of_mem _ hp)
  refine ⟨⟨ts, zs, xs, hinv, hinv'⟩, h.settled.same (Vmm.sameBoot_setMem ..) rfl,
    hinv.onList_congr hinv', fun o' ho' => hget _ (hinv.mem_lists ho'), fun o' ho' hne => ?_⟩
  exact hinv.core.untouched_write ho' (hinv.core.fresh p hmem).inUse.aligned
    (fun hm' => hne (hinv.core.eq_of_held ho' ho hm' (List.mem_cons_of_mem _ hp))) hm

/-- After a write the registers may be other ones. -/
theorem Live.next_write (h : Live s L) (ho : o ∈ L) (hp : p ∈ o.stack :: o.maps.map Prod.snd)
    (hm : ∀ a, addrToIndex a ≠ addrToIndex p → m a = s.mem a)
    (hruns : ∀ o' ∈ L, o'.pcb = s.sched.currentTask → Runs { s.setMem m with cpu := c } o')
    (hpark : o.pcb ≠ s.sched.currentTask → s.sched.OnList o.pcb → Parked (s.setMem m).sched o)
    (hby : ∀ t, t = o.pcb → e.by s.sched.currentTask t)
    (hcpu : ∀ t, t = s.sched.currentTask → t ≠ s.sched.idleTask →
      e.by s.sched.currentTask t ∨ c = s.cpu) :
    Next e s L { s.setMem m with cpu := c } L := by
  obtain ⟨⟨ts, zs, xs, hinv, hinv'⟩, hset, hlist, hget, hothers⟩ := h.write ho hp hm
  obtain ⟨oc, hoc, hcur⟩ := h.current_entry
  refine ⟨⟨⟨ts, zs, xs, hinv'⟩, hset, ?_, hruns, fun o' ho' hl hne => ?_⟩, rfl,
    fun o' ho' hl hidle hnot => ?_⟩
  · change (s.setMem m).sched.get s.sched.currentTask .state = _
    rw [← hcur, hget oc hoc, hcur, h.running]
  · by_cases heq : o' = o
    · subst heq
      exact hpark hne ((hlist _).1 hl)
    · have hu : Untouched o' s.sched.vmm.mem (s.setMem m).sched.vmm.mem := hothers o' ho' heq
      exact (h.parked o' ho' ((hlist _).1 hl) hne).congr hu
  · have hne : o' ≠ o := fun heq => hnot (hby _ (congrArg Owned.pcb heq))
    refine ⟨ho', (hlist _).2 hl, h.kept ho' hl rfl (fun hpcb => ?_) (hinv'.placed hset ho')
      (hothers o' ho' hne)⟩
    exact (hcpu _ hpcb (hidle hpcb)).resolve_left hnot

/-- The only entry of the current task. -/
theorem Live.eq_of_pcb (h : Live s L) (ho : o ∈ L) (ho' : o' ∈ L) (hp : o.pcb = o'.pcb) : o = o' := by
  obtain ⟨ts, zs, xs, hinv⟩ := h.inv
  exact hinv.core.eq_of_pcb ho ho' hp

theorem Live.idle_dir (h : Live s L) (ho : o ∈ L) (hd : o.dir.isSome = true) :
    o.pcb ≠ s.sched.idleTask := fun e => by
  rw [h.settled.idle o ho e] at hd
  cases hd

theorem Live.program (h : Live s L) (ho : o ∈ L) (hpcb : o.pcb = s.sched.currentTask)
    (hp : p ∈ o.maps.map Prod.snd) (h3 : s.cpu.ring3 = true) (hc3 : c.ring3 = true)
    (hm : ∀ a, addrToIndex a ≠ addrToIndex p → m a = s.mem a) :
    Next .program s L { s.setMem m with cpu := c } L := by
  refine h.next_write ho (List.mem_cons_of_mem _ hp) hm (fun o' ho' hpcb' => ?_)
    (fun hne => absurd hpcb hne) (fun t ht => ht.trans hpcb) fun t ht _ => .inl ht
  obtain rfl := h.eq_of_pcb ho' ho (hpcb'.trans hpcb.symm)
  cases h.runs o' ho' hpcb with
  | idle _ h0 =>
    rw [h3] at h0
    cases h0
  | program hd _ he => exact .program hd hc3 he
  | syscall _ _ hin =>
    rw [hin.ring3] at h3
    cases h3
  | task _ _ hin =>
    rw [hin.ring3] at h3
    cases h3

theorem Live.work (h : Live s L) (ho : o ∈ L) (hpcb : o.pcb = s.sched.currentTask)
    (hidle : o.pcb ≠ s.sched.idleTask) (h0 : s.cpu.ring3 = false) (hw : Works o c s.mem m) :
    Next .work s L { s.setMem m with cpu := c } L := by
  obtain ⟨⟨p, hp, hm⟩, ⟨i, hin, hi⟩, hframe⟩ := hw
  refine h.next_write ho hp hm (fun o' ho' hpcb' => ?_)
    (fun hne => absurd hpcb hne) (fun t ht => ht.trans hpcb) fun t ht _ => .inl ht
  obtain rfl := h.eq_of_pcb ho' ho (hpcb'.trans hpcb.symm)
  cases h.runs o' ho' hpcb with
  | idle hid => exact absurd hid hidle
  | program _ h3 =>
    rw [h0] at h3
    cases h3
  | syscall hd he _ _ htrap =>
    rw [if_pos hd] at hi
    refine .syscall hd he hin hi ?_
    change stackWord m o'.stack 1020 &&& 3 = 3
    rw [hframe hd 1020 (by omega) (by omega) (by omega)]
    exact htrap
  | task hd hid _ _ =>
    rw [hd, if_neg (by simp)] at hi
    exact .task hd hid hin hi

theorem Live.idle_runs (h : Live s L) (hidle : s.sched.currentTask = s.sched.idleTask) (ho : o ∈ L)
    (hpcb : o.pcb = s.sched.currentTask) :
    s.cpu.ring3 = false ∧ s.cpu.interruptible = false ∧ Parked s.sched o := by
  cases h.runs o ho hpcb with
  | idle _ h0 hif hk => exact ⟨h0, hif, hk⟩
  | program hd => exact absurd (hpcb.trans hidle) (h.idle_dir ho hd)
  | syscall hd => exact absurd (hpcb.trans hidle) (h.idle_dir ho hd)
  | task _ hne => exact absurd (hpcb.trans hidle) hne

theorem Live.boot (h : Live s L) (hidle : s.sched.currentTask = s.sched.idleTask)
    (h0 : c.ring3 = false) (hif : c.interruptible = false) : Next .boot s L { s with cpu := c } L := by
  obtain ⟨ts, zs, xs, hinv⟩ := h.inv
  refine ⟨⟨h.inv, h.settled, h.running, fun o ho hpcb => ?_, h.parked⟩, rfl,
    fun o ho hl hne hby => ⟨ho, hl, ?_⟩⟩
  · exact .idle (hpcb.trans hidle) h0 hif (h.idle_runs hidle ho hpcb).2.2
  · exact h.kept ho hl rfl (fun hpcb => absurd hpcb hby) (hinv.placed h.settled ho) (.refl ..)

/-- What a task goes on with is on none of its user pages. -/
theorem Live.fill_untouched (h : Live s L) (ho : o ∈ L) (hp : p ∈ o.maps.map Prod.snd)
    (hm : ∀ a, addrToIndex a ≠ addrToIndex p → m a = s.mem a) :
    Untouched { o with maps := [] } s.sched.vmm.mem (s.setMem m).sched.vmm.mem := by
  have hpage : p ∈ o.stack :: o.maps.map Prod.snd := List.mem_cons_of_mem _ hp
  obtain ⟨⟨ts, zs, xs, hinv, -⟩, -, -, hget, -⟩ := h.write ho hpage hm
  have hpa := (hinv.core.fresh p (mem_held ho (List.mem_cons_of_mem _ hpage))).inUse.aligned
  have hne : o.stack ≠ p := (hinv.core.page_ne_stack ho hp).symm
  refine ⟨hget o ho .esp, fun q hq i hi => ?_⟩
  obtain rfl : q = o.stack := by simpa using hq
  exact entryAt_of_off hpa (hinv.core.stack ho).inUse.aligned hne hi hm

theorem Live.fill (h : Live s L) (hidle : s.sched.currentTask = s.sched.idleTask) (ho : o ∈ L)
    (hp : p ∈ o.maps.map Prod.snd) (hm : ∀ a, addrToIndex a ≠ addrToIndex p → m a = s.mem a) :
    Next (.load o.pcb) s L (s.setMem m) L := by
  obtain ⟨-, -, -, -, hothers⟩ := h.write ho (List.mem_cons_of_mem _ hp) hm
  have hpage : p ∈ o.stack :: o.maps.map Prod.snd := List.mem_cons_of_mem _ hp
  -- the task itself keeps what it is parked with
  have hself : Parked s.sched o → Parked (s.setMem m).sched o := fun hk => by
    have hk' : Parked s.sched { o with maps := [] } := hk.alike rfl rfl rfl
    exact (hk'.congr (h.fill_untouched ho hp hm)).alike rfl rfl rfl
  refine h.next_write (c := s.cpu) ho hpage hm (fun o' ho' hpcb' => ?_) (fun hne hl => ?_)
    (fun t ht => ht) fun t _ _ => .inr rfl
  · obtain ⟨h0, hif, hk⟩ := h.idle_runs hidle ho' hpcb'
    refine .idle (hpcb'.trans hidle) h0 hif ?_
    by_cases heq : o' = o
    · exact heq ▸ hself (heq ▸ hk)
    · have hu : Untouched o' s.sched.vmm.mem (s.setMem m).sched.vmm.mem := hothers o' ho' heq
      exact hk.congr hu
  · exact hself (h.parked o ho hl hne)

theorem SchedInv.launch_untouched (h : SchedInv s.sched L ts zs xs) (ht : task ∈ ts) (ho : o ∈ L)
    (entry stack : UInt32) : Untouched o s.mem (s.launch task entry stack).mem := by
  obtain ⟨e, d, heq⟩ := launch_eq s.sched task
  have hmem : (s.launch task entry stack).mem =
      (s.sched.set task .state TaskState.running.code).vmm.mem := by
    change (s.sched.launch task).vmm.mem = _
    rw [heq]
    rfl
  rw [hmem]
  exact h.untouched_set ho (List.mem_append_left _ ht) (fun e => by cases e) _ _

theorem Live.launch (h : Live s L) (hidle : s.sched.currentTask = s.sched.idleTask)
    (ht : s.sched.OnList task) (hu : s.sched.isUserTask task = true) (entry stack : UInt32) :
    Next (.launch task) s L (s.launch task entry stack) L := by
  obtain ⟨ts, zs, xs, hinv⟩ := h.inv
  have hmem := hinv.onList_iff.1 ht
  obtain ⟨o, ho, rfl, d, hd⟩ := hinv.user_entry (List.mem_append_left _ hmem) hu
  have hsome : o.dir.isSome = true := by rw [hd]; rfl
  have hne : o.pcb ≠ s.sched.idleTask := h.idle_dir ho hsome
  have hinv' : SchedInv (s.launch o.pcb entry stack).sched L ts zs xs :=
    hinv.launch hidle hmem (hasState_iff.2 h.running)
  have hword := fun u hu f => hinv.launch_words hmem (u := u) hu f
  obtain ⟨e, d', heq⟩ := launch_eq s.sched o.pcb
  have hkeep : ∀ o' ∈ L, Untouched o' s.mem (s.launch o.pcb entry stack).mem := fun o' ho' =>
    hinv.launch_untouched hmem ho' entry stack
  have hset : Settled (s.launch o.pcb entry stack).sched L := by
    change Settled (s.sched.launch o.pcb) L
    rw [heq]
    exact h.settled.same (Vmm.sameBoot_setMem ..) rfl
  have hcur : (s.launch o.pcb entry stack).sched.currentTask = o.pcb := rfl
  have hidle' : (s.launch o.pcb entry stack).sched.idleTask = s.sched.idleTask := by
    change (s.sched.launch o.pcb).idleTask = _
    rw [heq]
    rfl
  have hlist := hinv.onList_congr hinv'
  refine ⟨⟨⟨ts, zs, xs, hinv'⟩, hset, ?_, fun o' ho' hpcb' => ?_, fun o' ho' hl hne' => ?_⟩, hidle',
    fun o' ho' hl hid hby => ⟨ho', (hlist _).2 hl, ?_⟩⟩
  · exact (hword o.pcb (List.mem_append_left _ hmem) .state).trans (if_pos ⟨rfl, rfl⟩)
  · obtain rfl := h.eq_of_pcb ho' ho hpcb'
    refine .program hsome (decide_eq_true (by decide : (0x1B : UInt32) &&& 3 = 3)) ?_
    have hesp0 := (hinv.tasks.ok o' ho').esp0
    rw [if_neg hne] at hesp0
    refine Eq.trans ?_ hesp0
    exact get_set_of_ne (hinv.aligned (List.mem_append_left _ hmem))
      (hinv.aligned (List.mem_append_left _ hmem)) (.inl (by simp))
  · have hpark : Parked s.sched o' := by
      by_cases hpcb : o'.pcb = s.sched.currentTask
      · exact (h.idle_runs hidle ho' hpcb).2.2
      · exact h.parked o' ho' ((hlist _).1 hl) hpcb
    exact hpark.congr (hkeep o' ho')
  · have hpcb : o'.pcb ≠ s.sched.currentTask := fun e => hid e (e.trans hidle)
    have hp := hinv.placed h.settled ho'
    have hk := h.parked o' ho' hl hpcb
    exact ((Stores.of_parked hpcb).untouched hk hp (hinv'.placed hset ho') (hkeep o' ho')).kept hby

end

end HaoSys.Proc
