import HaoSys.Proc.Run

/-!
# What a call leaves of a task

The saved stack pointer, the kernel stack and the user pages of a task stay when
the scheduler works on others (`Untouched`): creating and loading write new pages
and the words of the task they are about, reaping writes pages of the zombies,
and a switch writes words of `task_t`s. Of the two tasks of a switch only a kernel
task that goes has its stack pointer saved (`Moved`).
-/

namespace HaoSys.Proc

open HaoSys.Lib HaoSys.Mm

/-- The kernel stack and the user pages of a task. -/
def SamePages (o : Owned) (m m' : Mem) : Prop :=
  ∀ p ∈ o.stack :: o.maps.map Prod.snd, ∀ i, i.toNat < 1024 → entryAt m' p i = entryAt m p i

structure Untouched (o : Owned) (m m' : Mem) : Prop where
  esp : entryAt m' o.pcb Field.esp.index = entryAt m o.pcb Field.esp.index
  page : SamePages o m m'

section

variable {s s' s₁ : Sched} {L : List Owned} {ts zs xs ys gone : List UInt32} {o : Owned}
  {v w : Vmm} {m m' m'' : Mem} {t next sp : UInt32} {f : Field} {fuel : Nat} {r : Sched.Scheduled}

theorem Untouched.refl (o : Owned) (m : Mem) : Untouched o m m := ⟨rfl, fun _ _ _ _ => rfl⟩

theorem SamePages.trans (h₁ : SamePages o m m') (h₂ : SamePages o m' m'') : SamePages o m m'' :=
  fun p hp i hi => (h₂ p hp i hi).trans (h₁ p hp i hi)

theorem Untouched.trans (h₁ : Untouched o m m') (h₂ : Untouched o m' m'') : Untouched o m m'' :=
  ⟨h₂.esp.trans h₁.esp, h₁.page.trans h₂.page⟩

theorem untouched_of_held (ho : o ∈ L)
    (h : ∀ p ∈ held L, ∀ i, i.toNat < 1024 → entryAt m' p i = entryAt m p i) : Untouched o m m' :=
  ⟨h _ (pcb_mem_held ho) _ (Field.index_lt _),
    fun p hp => h p (mem_held ho (List.mem_cons_of_mem _ hp))⟩

theorem SameOld.untouched (h : SameOld s s' L) (ho : o ∈ L) : Untouched o s.vmm.mem s'.vmm.mem :=
  untouched_of_held ho h.page

/-- A page other than the one that is written. -/
theorem entryAt_of_off {p q i : UInt32} (hp : p.toNat % 4096 = 0) (hq : q.toNat % 4096 = 0)
    (hne : q ≠ p) (hi : i.toNat < 1024) (hm : ∀ c, addrToIndex c ≠ addrToIndex p → m' c = m c) :
    entryAt m' q i = entryAt m q i :=
  entryAt_congr hq hi fun c hc => hm c (hc ▸ page_ne hp hq hne)

/-- The stack of a task is none of its user pages. -/
theorem Core.page_ne_stack (h : Core v L xs) (ho : o ∈ L) {p : UInt32}
    (hp : p ∈ o.maps.map Prod.snd) : p ≠ o.stack := by
  rintro rfl
  have hnd := (List.nodup_flatMap.1 h.heldNodup).1 o ho
  exact (List.nodup_cons.1 (List.nodup_cons.1 hnd).2).1 hp

/-- A store to a page that is none of the task's. -/
theorem Core.untouched_write (h : Core v L xs) (ho : o ∈ L) {p : UInt32} (hp : p.toNat % 4096 = 0)
    (hno : p ∉ o.held) (hm : ∀ c, addrToIndex c ≠ addrToIndex p → m' c = m c) :
    Untouched o m m' := by
  have hpage : ∀ q ∈ o.held, ∀ i, i.toNat < 1024 → entryAt m' q i = entryAt m q i := by
    intro q hq i hi
    have hqa := (h.fresh q (mem_held ho hq)).inUse.aligned
    exact entryAt_of_off hp hqa (fun e => hno (e ▸ hq)) hi hm
  exact ⟨hpage _ List.mem_cons_self _ (Field.index_lt _),
    fun q hq => hpage q (List.mem_cons_of_mem _ hq)⟩

/-- A store to a word of a task. -/
theorem SchedInv.samePages_set (h : SchedInv s L ts zs xs) (ho : o ∈ L) (ht : t ∈ ts ++ zs)
    (f : Field) (m : Mem) (x : UInt32) : SamePages o m (storeEntry m t f.index x) := by
  intro p hp i hi
  have hta := h.aligned ht
  obtain ⟨o', ho', rfl⟩ := h.entry ht
  have hpa := (h.core.fresh p (mem_held ho (List.mem_cons_of_mem _ hp))).inUse.aligned
  exact entryAt_storeEntry_of_ne hta hpa f.index_lt hi (h.core.pcb_ne_page ho hp ho').symm

theorem SchedInv.untouched_set (h : SchedInv s L ts zs xs) (ho : o ∈ L) (ht : t ∈ ts ++ zs)
    (hf : f = .esp → o.pcb ≠ t) (m : Mem) (x : UInt32) :
    Untouched o m (storeEntry m t f.index x) := by
  refine ⟨?_, h.samePages_set ho ht f m x⟩
  rw [entryAt_storeEntry (h.aligned ht) (h.core.pcb ho).inUse.aligned f.index_lt (Field.index_lt _),
    if_neg]
  rintro ⟨e, he⟩
  exact hf (Field.index_inj he).symm e

theorem switchDirectory_mem (s : Sched) (t : UInt32) :
    (s.switchDirectory t).vmm.mem = s.vmm.mem := by
  rw [switchDirectory_vmm]
  rfl

/-! ## The terminated branch -/

theorem findCurrent_prev {n : Nat} {prev p u : UInt32}
    (hl : Follows (fun t => s.get t .next) t ts 0) (h : s.findCurrent n prev t = some (p, u)) :
    p = prev ∨ p ∈ ts := by
  induction n generalizing prev t ts with
  | zero => cases h
  | succ n ih =>
    unfold Sched.findCurrent at h
    split at h
    · cases h
      exact .inl rfl
    · next hne =>
      cases ts with
      | nil => exact absurd (.inl hl) hne
      | cons x ts =>
        obtain ⟨rfl, hl⟩ := hl
        rcases ih hl h with rfl | hp
        · exact .inr List.mem_cons_self
        · exact .inr (List.mem_cons_of_mem _ hp)

theorem SchedInv.unlinkCurrent_untouched (h : SchedInv s L ts zs xs) (ho : o ∈ L)
    (hr : s.unlinkCurrent fuel = some s₁) :
    s₁.currentTask = s.currentTask ∧ Untouched o s.vmm.mem s₁.vmm.mem := by
  unfold Sched.unlinkCurrent at hr
  rw [Option.map_eq_some_iff] at hr
  obtain ⟨⟨p, u⟩, hfind, hr⟩ := hr
  have hp := findCurrent_prev h.tasks.list hfind
  simp only at hr
  split at hr
  · split at hr
    · next hp0 =>
      subst hr
      have hmem : p ∈ ts ++ zs := List.mem_append_left _ (hp.resolve_left hp0)
      exact ⟨rfl, h.untouched_set ho hmem (fun e => by cases e) _ _⟩
    · subst hr
      exact ⟨rfl, .refl ..⟩
  · subst hr
    exact ⟨rfl, .refl ..⟩

theorem SchedInv.scheduleTerminated_untouched (h : SchedInv s L ts zs xs) (ho : o ∈ L)
    (hr : s.scheduleTerminated fuel = some r) (hnext : r.state.currentTask ∈ ts ++ zs) :
    Untouched o s.vmm.mem r.state.vmm.mem := by
  unfold Sched.scheduleTerminated at hr
  rw [Option.bind_eq_some_iff] at hr
  obtain ⟨s₁, hunlink, hr⟩ := hr
  obtain ⟨hcur, hkeep⟩ := h.unlinkCurrent_untouched ho hunlink
  have hzombie : Untouched o s₁.vmm.mem (s₁.freeTaskLater s₁.currentTask).vmm.mem :=
    h.untouched_set ho (hcur ▸ List.mem_append_left _ h.tasks.current) (fun e => by cases e) _ _
  generalize s₁.freeTaskLater s₁.currentTask = s₂ at hr hzombie
  simp only at hr
  generalize (if s₁.get s₁.currentTask .next = 0 then s₂.taskList
    else s₁.get s₁.currentTask .next) = x at hr
  split at hr
  · cases hr
  · -- the task that is picked, whatever the search
    generalize (if s₂.hasState (s₂.pickReady maxTasks x) .ready then s₂.pickReady maxTasks x
      else x) = n at hr
    have hstate : r.state = Sched.switchDirectory
        (Sched.set { s₂ with currentTask := n } n .state TaskState.running.code) n := by
      rw [← Option.some.inj hr]
      rfl
    rw [hstate] at hnext ⊢
    rw [(switchDirectory_vars ..).2.1] at hnext
    rw [switchDirectory_mem]
    exact (hkeep.trans hzombie).trans (h.untouched_set ho hnext (fun e => by cases e) _ _)

/-! ## The normal branch -/

theorem SchedInv.enter_untouched (h : SchedInv s L ts zs xs) (ho : o ∈ L) (hn : next ∈ ts) :
    SamePages o s.vmm.mem (s.enter sp next).vmm.mem ∧
      ((s.isUserTask s.currentTask = false → o.pcb ≠ s.currentTask) →
        Untouched o s.vmm.mem (s.enter sp next).vmm.mem) := by
  obtain ⟨esp0, -, heq⟩ := enter_eq s sp next
  rw [heq]
  have hcur := List.mem_append_left zs h.tasks.current
  have hnext := List.mem_append_left zs hn
  have hstates : Untouched o s.vmm.mem ((s.set s.currentTask .state TaskState.ready.code).set next
      .state TaskState.running.code).vmm.mem :=
    (h.untouched_set ho hcur (fun e => by cases e) _ _).trans
      (h.untouched_set ho hnext (fun e => by cases e) _ _)
  have huser : ((s.set s.currentTask .state TaskState.ready.code).set next .state
      TaskState.running.code).isUserTask s.currentTask = s.isUserTask s.currentTask := by
    unfold Sched.isUserTask
    rw [get_set_of_ne (h.aligned hnext) (h.aligned hcur) (.inl (by simp)),
      get_set_of_ne (h.aligned hcur) (h.aligned hcur) (.inl (by simp))]
  generalize (s.set s.currentTask .state TaskState.ready.code).set next .state
    TaskState.running.code = s₂ at *
  have huser₃ : (Sched.switchDirectory { s₂ with esp0 := esp0, currentTask := next } next).isUserTask
      s.currentTask = s.isUserTask s.currentTask := by
    unfold Sched.isUserTask
    rw [switchDirectory_get]
    exact huser
  have hmem := switchDirectory_mem { s₂ with esp0 := esp0, currentTask := next } next
  rw [huser₃]
  generalize Sched.switchDirectory { s₂ with esp0 := esp0, currentTask := next } next = s₃ at *
  change s₃.vmm.mem = s₂.vmm.mem at hmem
  cases hu : s.isUserTask s.currentTask with
  | true =>
    rw [if_pos rfl, hmem]
    exact ⟨hstates.page, fun _ => hstates⟩
  | false =>
    rw [if_neg (by simp)]
    rw [← hmem] at hstates
    exact ⟨hstates.page.trans (h.samePages_set ho hcur .esp _ _),
      fun hne => hstates.trans (h.untouched_set ho hcur (fun _ => hne rfl) _ _)⟩

/-- `switch_to` saves the stack pointer of a kernel task. -/
theorem SchedInv.enter_saves (h : SchedInv s L ts zs xs) (hn : next ∈ ts)
    (hu : s.isUserTask s.currentTask = false) : (s.enter sp next).get s.currentTask .esp = sp := by
  obtain ⟨esp0, -, heq⟩ := enter_eq s sp next
  obtain ⟨-, hsw, -⟩ := h.setCurrent esp0 hn
  rw [heq]
  generalize Sched.switchDirectory _ next = s₃ at *
  have huser : s₃.isUserTask s.currentTask = false := by
    rw [← hu]
    unfold Sched.isUserTask
    rw [hsw.words s.currentTask (List.mem_append_left _ h.tasks.current) .isUser (by simp) (by simp)
      (by simp)]
  rw [huser, if_neg (by simp)]
  exact get_set_self ..

theorem searchReady_ready {n : Nat} {u : UInt32} (h : s.searchReady n t = some u) :
    s.hasState u .ready = true := by
  induction n generalizing t with
  | zero =>
    unfold Sched.searchReady at h
    split at h
    · next hc =>
      cases h
      exact hc
    · cases h
  | succ n ih =>
    unfold Sched.searchReady at h
    split at h
    · next hc =>
      cases h
      exact hc
    · split at h
      · cases h
      · exact ih h

theorem findNext_ready {u : UInt32} (h : s.findNext = some u) : s.hasState u .ready = true := by
  unfold Sched.findNext at h
  split at h
  · cases h
  · exact searchReady_ready h

/-! ## The call -/

/-- A call of `schedule` that switches, for the tasks on the list; the last two are for a task that
has not exited. -/
structure Moved (s : Sched) (L : List Owned) (sp : UInt32) (r : Sched.Scheduled) : Prop where
  next : r.state.currentTask ≠ s.currentTask
  running : r.state.get r.state.currentTask .state = TaskState.running.code
  pages : ∀ o ∈ L, s.OnList o.pcb → SamePages o s.vmm.mem r.state.vmm.mem
  untouched : ∀ o ∈ L, s.OnList o.pcb →
    (s.isUserTask s.currentTask = false → o.pcb ≠ s.currentTask) →
    Untouched o s.vmm.mem r.state.vmm.mem
  listed : ∀ t, s.OnList t → t ≠ s.currentTask → r.state.OnList t ∧ t ∉ r.reaped.map Prod.fst
  list : ∀ t, r.state.OnList t → s.OnList t
  stays : s.hasState s.currentTask .terminated = false →
    r.state.OnList s.currentTask ∧ s.currentTask ∉ r.reaped.map Prod.fst
  leaves : s.hasState s.currentTask .terminated = true → ¬ r.state.OnList s.currentTask
  saves : s.hasState s.currentTask .terminated = false → s.isUserTask s.currentTask = false →
    r.state.get s.currentTask .esp = sp
  esp0 : s.hasState s.currentTask .terminated = false →
    r.state.get r.state.currentTask .kernelEsp0 ≠ 0 →
    r.state.esp0 = r.state.get r.state.currentTask .kernelEsp0

/-- A task that does not exit loses none of the list. -/
theorem Moved.stays_listed (h : Moved s L sp r) (hs : s.hasState s.currentTask .terminated = false)
    {t : UInt32} (ht : s.OnList t) : r.state.OnList t ∧ t ∉ r.reaped.map Prod.fst := by
  by_cases hne : t = s.currentTask
  · rw [hne]
    exact h.stays hs
  · exact h.listed t ht hne

theorem SchedInv.exit_moved (h : SchedInv s L ts zs xs)
    (hs : s.get s.currentTask .state = TaskState.terminated.code)
    (hidle : s.currentTask ≠ s.idleTask) (hr : s.schedule fuel sp = some r) :
    r.switched = true ∧ Moved s L sp r := by
  have hterm : s.hasState s.currentTask .terminated = true := hasState_iff.2 hs
  have hok : s.ReapsOwn := fun e => by rw [hterm] at e; cases e
  have hcall : s.scheduleTerminated fuel = some r := by
    unfold Sched.schedule at hr
    rwa [if_neg h.current_ne_zero, if_pos hterm] at hr
  cases h.schedule_outcome (.inr ⟨hs, hidle⟩) hok hr with
  | stay hrun =>
    rw [hs] at hrun
    exact absurd hrun (by decide)
  | switch hrun =>
    rw [hs] at hrun
    exact absurd hrun (by decide)
  | @exit l r' ys s' _ hts hinv hsw =>
    subst hts
    have hnd := h.nodup
    have hcur := hsw.current ▸ hinv.tasks.current
    have hkeep : ∀ o ∈ L, Untouched o s.vmm.mem s'.vmm.mem := fun o ho =>
      h.scheduleTerminated_untouched ho hcall (by
        rw [hsw.current]
        grind)
    refine ⟨rfl, ?_, ?_, fun o ho _ => (hkeep o ho).page, fun o ho _ _ => hkeep o ho,
      fun t ht hne => ?_, fun t ht => ?_, fun e => ?_, fun _ ht => ?_, fun e => ?_, fun e => ?_⟩
    · rw [hsw.current]
      rintro e
      rw [e] at hcur
      grind
    · rw [hsw.current]
      exact hsw.running
    · have hmem := h.onList_iff.1 ht
      exact ⟨hinv.onList_iff.2 (by grind), List.not_mem_nil⟩
    · have hmem := hinv.onList_iff.1 ht
      exact h.onList_iff.2 (by grind)
    · rw [hterm] at e
      cases e
    · have hmem := hinv.onList_iff.1 ht
      grind
    · rw [hterm] at e
      cases e
    · rw [hterm] at e
      cases e

theorem SchedInv.isUserTask_reaped
    (h : SchedInv { s with zombieList := 0, vmm := w } L ts [] ys) (hleft : Left s.vmm L w ys) :
    Sched.isUserTask { s with zombieList := 0, vmm := w } s.currentTask =
      s.isUserTask s.currentTask := by
  obtain ⟨o, ho, he⟩ := h.entry (List.mem_append_left _ h.tasks.current)
  have hpcb : o.pcb = s.currentTask := he
  unfold Sched.isUserTask Sched.get
  rw [← hpcb, hleft.held _ (pcb_mem_held ho) _ (Field.index_lt _)]

/-- Reaping and entering the next task, for a task that is left. -/
theorem SchedInv.reaped_untouched
    (h : SchedInv { s with zombieList := 0, vmm := w } L ts [] ys) (hleft : Left s.vmm L w ys)
    (ho : o ∈ L) (hnext : next ∈ ts) :
    SamePages o s.vmm.mem (Sched.enter { s with zombieList := 0, vmm := w } sp next).vmm.mem ∧
      ((s.isUserTask s.currentTask = false → o.pcb ≠ s.currentTask) → Untouched o s.vmm.mem
        (Sched.enter { s with zombieList := 0, vmm := w } sp next).vmm.mem) := by
  have hreap : Untouched o s.vmm.mem w.mem := untouched_of_held ho hleft.held
  have hent : SamePages o w.mem (Sched.enter { s with zombieList := 0, vmm := w } sp next).vmm.mem ∧
      ((Sched.isUserTask { s with zombieList := 0, vmm := w } s.currentTask = false →
        o.pcb ≠ s.currentTask) → Untouched o w.mem
          (Sched.enter { s with zombieList := 0, vmm := w } sp next).vmm.mem) :=
    h.enter_untouched ho hnext
  rw [h.isUserTask_reaped hleft] at hent
  exact ⟨hreap.page.trans hent.1, fun hne => hreap.trans (hent.2 hne)⟩

/-- The switch enters the next task from the state that `reap_zombies` leaves. -/
theorem SchedInv.schedule_reaps (h : SchedInv s L ts zs xs)
    (hs : s.hasState s.currentTask .terminated = false) (hn : s.findNext = some next)
    (hreap : ∀ z ∈ zs, s.Reapable z) {log : List (UInt32 × List UInt32)}
    (hr : s.schedule fuel sp = some ⟨log, true, s'⟩) :
    ∃ w ys, Left s.vmm (L.filter fun o => o.pcb ∉ zs) w ys ∧
      SchedInv { s with zombieList := 0, vmm := w } (L.filter fun o => o.pcb ∉ zs) ts [] ys ∧
      s' = Sched.enter { s with zombieList := 0, vmm := w } sp next := by
  obtain ⟨log', w, ys, hrun, -, hleft, hinv, -⟩ := h.reapZombies hreap (Nat.le_max_right fuel _)
  unfold Sched.schedule at hr
  rw [if_neg h.current_ne_zero, if_neg (by simp [hs]), hn] at hr
  simp only [Sched.switchTo, Option.map_eq_some_iff] at hr
  obtain ⟨y, hy, he⟩ := hr
  rw [reapZombies_mono (Nat.le_max_left fuel zs.length) hy] at hrun
  cases hrun
  cases he
  exact ⟨w, ys, hleft, hinv, rfl⟩

theorem SchedInv.switch_moved (h : SchedInv s L ts zs xs)
    (hs : s.get s.currentTask .state = TaskState.running.code) (hok : s.ReapsOwn)
    (hr : s.schedule fuel sp = some r) : r = ⟨[], false, s⟩ ∨ r.switched = true ∧ Moved s L sp r := by
  have hterm := not_terminated hs
  cases hout : h.schedule_outcome (.inl hs) hok hr with
  | stay => exact .inl rfl
  | exit e =>
    rw [hs] at e
    exact absurd e (by decide)
  | @switch next log ys s' _ hn hreap hreaped hinv hsw hesp =>
    refine .inr ⟨rfl, ?_⟩
    have hmem := h.tasks.findNext hn
    have hzs : log.map Prod.fst = zs := hreaped.tasks
    have hnd := h.nodup
    obtain ⟨w, ys', hleft, hinv', hs'⟩ := h.schedule_reaps hterm hn hreap hr
    have hcur : s.currentTask ∈ ts := h.tasks.current
    have huser := hinv'.isUserTask_reaped hleft
    have hkeep : ∀ o ∈ L, s.OnList o.pcb → SamePages o s.vmm.mem s'.vmm.mem ∧
        ((s.isUserTask s.currentTask = false → o.pcb ≠ s.currentTask) →
          Untouched o s.vmm.mem s'.vmm.mem) := by
      intro o ho hlist
      have hmem' : o ∈ L.filter fun o => o.pcb ∉ zs := by
        have := h.onList_iff.1 hlist
        refine List.mem_filter.2 ⟨ho, ?_⟩
        grind
      rw [hs']
      exact hinv'.reaped_untouched hleft hmem' hmem
    refine ⟨?_, ?_, fun o ho hlist => (hkeep o ho hlist).1, fun o ho hlist => (hkeep o ho hlist).2,
      fun t ht hne => ?_, fun t ht => ?_, fun _ => ?_, fun e => ?_, fun _ hu => ?_, fun _ hne0 => ?_⟩
    · rw [hsw.current]
      rintro rfl
      have hready := hasState_iff.1 (findNext_ready hn)
      rw [hs] at hready
      exact absurd hready (by decide)
    · rw [hsw.current]
      exact hsw.running
    · have hmem' := h.onList_iff.1 ht
      refine ⟨hinv.onList_iff.2 hmem', ?_⟩
      rw [hzs]
      grind
    · exact h.onList_iff.2 (hinv.onList_iff.1 ht)
    · refine ⟨hinv.onList_iff.2 hcur, ?_⟩
      rw [hzs]
      grind
    · rw [hterm] at e
      cases e
    · have hsave : (Sched.enter { s with zombieList := 0, vmm := w } sp next).get s.currentTask .esp =
          sp := hinv'.enter_saves hmem (huser.trans hu)
      rwa [← hs'] at hsave
    · rw [hsw.current] at hne0 ⊢
      exact hesp hne0

/-! ## Creating and loading -/

/-- The mappings and stores of the loader. -/
theorem SchedInv.loadPage_untouched (h : SchedInv s L ts zs xs) {o' : Owned} (ho' : o' ∈ L)
    {d virt : UInt32} (hd : o'.dir = some d) (ho : o ∈ L) :
    Untouched o s.vmm.mem (s.loadPage o'.pcb virt).vmm.mem := by
  have hmem : d ∈ dirs L := mem_dirs ho' hd
  have hpcb' : o'.pcb ∈ ts ++ zs := h.mem_lists ho'
  obtain ⟨p, pmm, halloc, -, he1, hnew⟩ := h.core.inv.evolves_alloc
  have hcore1 := h.core.of_evolves_nil he1
  unfold Sched.loadPage
  simp only [halloc]
  by_cases hp0 : p = 0
  · rw [if_pos hp0]
    exact untouched_of_held ho fun q hq i hi =>
      he1.keeps.entry q (h.core.fresh q hq).inUse List.not_mem_nil i hi
  obtain ⟨hfp, hpold⟩ := hnew hp0
  have hpd : entryAt (Vmm.mem { s.vmm with pmm := pmm }) o'.pcb Field.pageDirectory.index = d :=
    (he1.keeps.entry _ (h.core.pcb ho').inUse List.not_mem_nil _ (Field.index_lt _)).trans
      ((h.tasks.ok o' ho').dir d hd)
  rw [if_neg hp0, hpd]
  obtain ⟨ys, hcore2, hw, -⟩ := hcore1.mapUser hmem virt p (pageWrite ||| pageUser)
  have hmap : Untouched o s.vmm.mem
      (Vmm.vmmMapPage { s.vmm with pmm := pmm } d virt p (pageWrite ||| pageUser)).2.mem := by
    refine untouched_of_held ho fun q hq i hi => ?_
    rw [hw.evolves.keeps.entry q (hcore1.fresh q hq).inUse
      (hcore1.not_written hq (List.mem_cons_of_mem _ hmem)) i hi]
    exact he1.keeps.entry q (h.core.fresh q hq).inUse List.not_mem_nil i hi
  have hfresh := hw.evolves.fresh p hfp (fresh_not_written hfp (List.mem_cons_of_mem _ hmem))
  generalize Vmm.vmmMapPage { s.vmm with pmm := pmm } d virt p (pageWrite ||| pageUser) = a at *
  obtain ⟨ok, w⟩ := a
  cases ok with
  | false =>
    obtain ⟨us, he3, -⟩ := hcore2.inv.evolves_free hfresh
    refine hmap.trans (untouched_of_held ho fun q hq i hi => ?_)
    refine he3.keeps.entry q (hcore2.fresh q hq).inUse (fun hm => ?_) i hi
    exact hpold q (h.core.fresh q hq).inUse (List.mem_singleton.1 hm)
  | true =>
    simp only
    split
    · refine (hmap.trans (h.untouched_set ho hpcb' (fun e => by cases e) _ _)).trans
        (h.untouched_set ho hpcb' (fun e => by cases e) _ _)
    · exact hmap

end

end HaoSys.Proc
