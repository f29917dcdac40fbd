import HaoSys.Proc.Contexts

/-!
# Stopping a task

An interrupt or a system call stops the current task: the frame of the stub is on
its kernel stack, and its stack pointer is saved. The handler works below the
frame, and the timer counts the ticks of a user task (`Stopped`). A task that is
stopped goes on as it was if the stub returns; a user task is parked, so that it
may also be switched away from.
-/

namespace HaoSys.Proc

open HaoSys.Lib HaoSys.Mm

/-- Memory that differs on the stack `k` below `sp` only. -/
def Below (k sp : UInt32) (m m' : Mem) : Prop :=
  (∀ c, addrToIndex c ≠ addrToIndex k → m' c = m c) ∧
    ∀ j, j < 1024 → sp ≤ slot k j → stackWord m' k j = stackWord m k j

/-- Where the frame of a stub goes: the slots of the stack pointer before and behind it. -/
inductive StopsAt (s : Machine) (o : Owned) : Nat → Nat → Prop where
  | program : s.cpu.ring3 = true → s.sched.esp0 = slot o.stack 1024 → StopsAt s o 1024 1011
  | kernel {b : Nat} : s.cpu.InKernel o.stack (b + 11) → b + 11 ≤ 1024 → StopsAt s o (b + 11) b

/-- `s₁` is `s` with the current task `o` stopped and its frame at slot `b`. -/
structure Stopped (s s₁ : Machine) (L : List Owned) (o : Owned) (top b : Nat) : Prop where
  sched : s₁.sched = { s.sched with vmm := s.sched.vmm.setMem s₁.mem }
  cpu : s₁.cpu = { s.cpu.cli with cs := 0x08, esp := slot o.stack b, ss := 0x10 }
  esp : s₁.sched.get o.pcb .esp = slot o.stack b
  frame : popFrame s₁.mem (slot o.stack b) = s.cpu
  cs : stackWord s₁.mem o.stack (b + 9) = s.cpu.cs
  rest : ∀ j, j < 1024 → top ≤ j → stackWord s₁.mem o.stack j = stackWord s.mem o.stack j
  page : ∀ p ∈ o.maps.map Prod.snd, ∀ i, i.toNat < 1024 → entryAt s₁.mem p i = entryAt s.mem p i
  others : ∀ o' ∈ L, o' ≠ o → Untouched o' s.mem s₁.mem
  inv : ∀ {ts zs xs}, SchedInv s.sched L ts zs xs → SchedInv s₁.sched L ts zs xs
  states : ∀ t, s.sched.OnList t → s₁.sched.get t .state = s.sched.get t .state

section

variable {s s₁ : Machine} {x x' x'' : Sched} {L : List Owned} {ts zs xs : List UInt32} {o o' : Owned}
  {m : Mem} {k : UInt32} {top b : Nat}

theorem StopsAt.le (h : StopsAt s o top b) : b + 11 ≤ top ∧ top ≤ 1024 := by
  cases h with
  | program => omega
  | kernel _ hle => omega

theorem StopsAt.entered (h : StopsAt s o top b) (hp : Placed s.sched o)
    (hcur : s.sched.currentTask ≠ 0) : ∃ m, Entered s o.stack top b m := by
  cases h with
  | program hring hesp0 => exact enterKernel_ring3 hp.aligned hcur hring hesp0
  | kernel hin hle =>
    have h := enterKernel_ring0 hp.aligned hcur hin.cs hin.ss (by omega) hle hin.esp
    rwa [Nat.add_sub_cancel] at h

/-- What the stub pops depends on the stack from its frame up. -/
theorem StopsAt.popFrame_congr {m m' : Mem} (h : StopsAt s o top b)
    (hcs : stackWord m o.stack (b + 9) = s.cpu.cs)
    (hm : ∀ j, j < 1024 → b ≤ j → stackWord m' o.stack j = stackWord m o.stack j) :
    popFrame m' (slot o.stack b) = popFrame m (slot o.stack b) := by
  cases h with
  | program =>
    exact Proc.popFrame_congr (fun n hn => hm (1011 + n) (by omega) (by omega))
      (fun _ n hn => hm (1011 + n) (by omega) (by omega))
  | @kernel b hin hle =>
    refine Proc.popFrame_congr (fun n hn => hm (b + n) (by omega) (by omega)) fun hring => ?_
    rw [hcs, hin.cs] at hring
    exact absurd hring (by decide)

/-- The words of a stack when a word of a task is written. -/
theorem SchedInv.stackWord_set (h : SchedInv x L ts zs xs) (ho : o ∈ L) (ho' : o' ∈ L) (f : Field)
    (m : Mem) (y : UInt32) {j : Nat} (hj : j < 1024) :
    stackWord (storeEntry m o'.pcb f.index y) o.stack j = stackWord m o.stack j :=
  entryAt_storeEntry_of_ne (h.core.pcb ho').inUse.aligned (h.core.stack ho).inUse.aligned f.index_lt
    (ofNat_lt hj) (h.core.pcb_ne_page ho List.mem_cons_self ho').symm

/-- **A stub and its handler stop the current task.** -/
theorem SchedInv.stopped (h : SchedInv s.sched L ts zs xs) (hp : Placed s.sched o) (ho : o ∈ L)
    (hpcb : o.pcb = s.sched.currentTask) (hat : StopsAt s o top b)
    (hm : Below o.stack s.enterKernel.cpu.esp s.enterKernel.mem m) :
    Stopped s (s.enterKernel.setMem m) L o top b := by
  obtain ⟨m₀, heq, hoff, hframe, hcs, hrest⟩ := hat.entered hp h.current_ne_zero
  have hstack : ∀ y ∈ o.stack :: o.maps.map Prod.snd, y.toNat % 4096 = 0 := fun y hy =>
    (h.core.fresh y (mem_held ho (List.mem_cons_of_mem _ hy))).inUse.aligned
  have hself : o.stack ∈ o.stack :: o.maps.map Prod.snd := List.mem_cons_self
  -- the frame, the saved stack pointer, what the handler leaves
  obtain ⟨h₀, hget₀⟩ := h.write ho hself hoff
  have hcur : s.sched.currentTask ∈ ts ++ zs := List.mem_append_left _ h.tasks.current
  have h₁ := h₀.saveEsp hcur (slot o.stack b)
  rw [heq] at hm ⊢
  obtain ⟨hbelow, habove⟩ := hm
  obtain ⟨h₂, hget₂⟩ := h₁.write ho hself hbelow
  have hle := hat.le
  have hword₁ : ∀ j, j < 1024 →
      stackWord (storeEntry m₀ s.sched.currentTask Field.esp.index (slot o.stack b)) o.stack j =
        stackWord m₀ o.stack j := fun j hj => hpcb ▸ h.stackWord_set ho ho _ m₀ _ hj
  have hword : ∀ j, j < 1024 → b ≤ j → stackWord m o.stack j = stackWord m₀ o.stack j := by
    intro j hj hbj
    rw [← hword₁ j hj]
    exact habove j hj ((slot_le hp.aligned hp.stackEnd (by omega) (by omega)).2 hbj)
  refine ⟨rfl, rfl, ?_, ?_, ?_, fun j hj htop => ?_, fun p hmem i hi => ?_, fun o' ho' hne => ?_,
    fun {ts zs xs} hinv => ?_, fun t ht => ?_⟩
  · exact (hget₂ _ (hpcb ▸ hcur) .esp).trans (hpcb ▸ get_set_self ..)
  · exact (hat.popFrame_congr hcs hword).trans hframe
  · exact (hword _ (by omega) (by omega)).trans hcs
  · exact (hword j hj (by omega)).trans (hrest j hj (.inr htop))
  · have hpage : p ∈ o.stack :: o.maps.map Prod.snd := List.mem_cons_of_mem _ hmem
    have hne : p ≠ o.stack := h.core.page_ne_stack ho hmem
    change entryAt m p i = entryAt s.mem p i
    rw [entryAt_of_off (hstack _ hself) (hstack p hpage) hne hi hbelow]
    refine Eq.trans ?_ (entryAt_of_off (hstack _ hself) (hstack p hpage) hne hi hoff)
    exact entryAt_storeEntry_of_ne (h.aligned hcur) (hstack p hpage) (Field.index_lt _) hi
      (hpcb ▸ (h.core.pcb_ne_page ho hpage ho).symm)
  · have hno : o.stack ∉ o'.held := fun hm =>
      hne (h.core.eq_of_held ho' ho hm (List.mem_cons_of_mem _ hself))
    have hpcb' : o'.pcb ≠ s.sched.currentTask := fun e =>
      hne (h.core.eq_of_pcb ho' ho (e.trans hpcb.symm))
    exact ((h.core.untouched_write ho' (hstack _ hself) hno hoff).trans
      (h.untouched_set ho' hcur (fun _ => hpcb') m₀ (slot o.stack b))).trans
      (h.core.untouched_write ho' (hstack _ hself) hno hbelow)
  · obtain ⟨hinv₀, -⟩ := hinv.write ho hself hoff
    exact ((hinv₀.saveEsp (List.mem_append_left _ hinv.tasks.current) _).write ho hself hbelow).1
  · have hmem : t ∈ ts ++ zs := List.mem_append_left _ (h.onList_iff.1 ht)
    refine (hget₂ t hmem .state).trans ?_
    exact (get_set_of_ne (h.aligned hcur) (h.aligned hmem) (.inl (by simp))).trans (hget₀ t hmem .state)

/-! ## The tick -/

/-- The words that count ticks are the only ones that change. -/
structure Ticked (x x' : Sched) (L : List Owned) : Prop where
  sched : x' = { x with vmm := x.vmm.setMem x'.vmm.mem }
  untouched : ∀ o ∈ L, Untouched o x.vmm.mem x'.vmm.mem
  inv : ∀ {ts zs xs}, SchedInv x L ts zs xs → SchedInv x' L ts zs xs
  states : ∀ t, x.OnList t → x'.get t .state = x.get t .state

theorem Ticked.refl (x : Sched) (L : List Owned) : Ticked x x L :=
  ⟨rfl, fun _ _ => .refl .., fun h => h, fun _ _ => rfl⟩

theorem SchedInv.setTicks (h : SchedInv x L ts zs xs) (n : UInt32) :
    Ticked x (x.set x.currentTask .ticksUsed n) L := by
  have hget : ∀ {ts zs xs}, SchedInv x L ts zs xs → ∀ u ∈ ts ++ zs, ∀ f, f ≠ .ticksUsed →
      (x.set x.currentTask .ticksUsed n).get u f = x.get u f := fun h u hu f hf =>
    get_set_of_ne (h.aligned (List.mem_append_left _ h.tasks.current)) (h.aligned hu) (.inl hf)
  refine ⟨rfl, fun o ho => ?_, fun {ts zs xs} h => ⟨h.setCore ?_ _ _, ?_⟩, fun t ht => ?_⟩
  · exact h.untouched_set ho (List.mem_append_left _ h.tasks.current) (fun e => by cases e) _ _
  · exact List.mem_append_left _ h.tasks.current
  · refine h.tasks.of_links rfl rfl rfl rfl (fun t ht => hget h t ht _ (by simp))
      (fun t ht => hget h t ht _ (by simp)) (fun o ho => ?_) (.refl _)
    have hok := h.tasks.ok o ho
    have hword : ∀ f, f ≠ .ticksUsed →
        (x.set x.currentTask .ticksUsed n).get o.pcb f = x.get o.pcb f := hget h _ (h.mem_lists ho)
    refine ⟨?_, ?_, fun d hd => ?_, ?_, hok.bound, fun i p hp => ?_⟩
    · rw [hword _ (by simp)]
      exact hok.esp0
    · rw [hword _ (by simp)]
      exact hok.user
    · rw [hword _ (by simp)]
      exact hok.dir d hd
    · rw [hword _ (by simp)]
      exact hok.count
    · rw [hword _ (by simp)]
      exact hok.virt i p hp
  · exact hget h t (List.mem_append_left _ (h.onList_iff.1 ht)) _ (by simp)

theorem SchedInv.onList_congr {M : List Owned} {us ys : List UInt32} (h : SchedInv x L ts zs xs)
    (h' : SchedInv x' M ts us ys) (t : UInt32) : x'.OnList t ↔ x.OnList t := by
  rw [h.onList_iff, h'.onList_iff]

theorem SchedInv.pitTickHandler (h : SchedInv x L ts zs xs) : Ticked x x.pitTickHandler.2 L := by
  unfold Sched.pitTickHandler
  simp only
  split
  · have h₁ := h.setTicks (x.get x.currentTask .ticksUsed + 1)
    generalize hx' : x.set x.currentTask .ticksUsed (x.get x.currentTask .ticksUsed + 1) = x' at h₁ ⊢
    have hcur : x'.currentTask = x.currentTask := by rw [h₁.sched]
    split
    · have h₂ := (h₁.inv h).setTicks 0
      rw [hcur] at h₂
      refine ⟨?_, fun o ho => (h₁.untouched o ho).trans (h₂.untouched o ho),
        fun hinv => h₂.inv (h₁.inv hinv), fun t ht => ?_⟩
      · rw [← hx']
        rfl
      · have ht' := ((h.onList_congr (h₁.inv h)) t).2 ht
        exact (h₂.states t ht').trans (h₁.states t ht)
    · exact h₁
  · exact .refl x L

theorem Stopped.ticked (h : Stopped s s₁ L o top b) (hinv : SchedInv s.sched L ts zs xs)
    (hat : StopsAt s o top b) (ho : o ∈ L) (ht : Ticked s₁.sched x L) :
    Stopped s { s₁ with sched := x } L o top b := by
  have hu : Untouched o s₁.mem x.vmm.mem := ht.untouched o ho
  have hle := hat.le
  refine ⟨?_, h.cpu, ?_, ?_, ?_, fun j hj htop => ?_, fun p hp i hi => ?_, fun o' ho' hne => ?_,
    fun hi => ht.inv (h.inv hi), fun t hl => ?_⟩
  · have hsched := ht.sched
    rw [h.sched] at hsched
    exact hsched
  · exact hu.esp.trans h.esp
  · exact (hat.popFrame_congr h.cs fun j hj _ => hu.stackWord hj).trans h.frame
  · exact (hu.stackWord (by omega)).trans h.cs
  · exact (hu.stackWord hj).trans (h.rest j hj htop)
  · exact (hu.page p (List.mem_cons_of_mem _ hp) i hi).trans (h.page p hp i hi)
  · exact (h.others o' ho' hne).trans (ht.untouched o' ho')
  · exact (ht.states t ((hinv.onList_congr (h.inv hinv) t).2 hl)).trans (h.states t hl)

/-! ## Going on, and being parked -/

theorem Stopped.placed (h : Stopped s s₁ L o top b) (hinv : SchedInv s.sched L ts zs xs)
    (hset : Settled s.sched L) (ho' : o' ∈ L) : Placed s₁.sched o' := by
  refine (h.inv hinv).placed (hset.same ?_ ?_) ho'
  · rw [h.sched]
    exact Vmm.sameBoot_setMem ..
  · rw [h.sched]

/-- The stub returns: the task has its registers back. -/
theorem Stopped.kept (h : Stopped s s₁ L o top b) (hpcb : o.pcb = s.sched.currentTask)
    (hat : StopsAt s o top b) (hp : Placed s.sched o) (hp' : Placed s₁.sched o) :
    s₁.leaveKernel.cpu = s.cpu ∧ Kept s s₁.leaveKernel o := by
  have hcpu : s₁.leaveKernel.cpu = s.cpu := by
    unfold Machine.leaveKernel
    rw [h.cpu]
    exact h.frame
  have hcur : s₁.leaveKernel.sched.currentTask = s.sched.currentTask := by
    change s₁.sched.currentTask = _
    rw [h.sched]
  refine ⟨hcpu, .of_current hcur hpcb hcpu hp hp' (fun hring j hj hesp => ?_) h.page⟩
  cases hat with
  | program h3 =>
    rw [hring] at h3
    cases h3
  | kernel hin hle =>
    rw [hin.esp, slot_le hp.aligned hp.stackEnd hle (by omega)] at hesp
    exact h.rest j hj hesp

/-- A user task that is stopped is parked. -/
theorem Stopped.parked (h : Stopped s s₁ L o top b) (hpcb : o.pcb = s.sched.currentTask)
    (hat : StopsAt s o top b) (hp : Placed s.sched o) (hp' : Placed s₁.sched o)
    (hd : o.dir.isSome = true) (hidle : o.pcb ≠ s.sched.idleTask) (hr : Runs s o) :
    Parked s₁.sched o ∧ Stores s s₁.sched o := by
  have hctx : s.context o.pcb = s.cpu := by
    unfold Machine.context
    rw [if_pos hpcb, hp.user, if_pos hd]
  refine ⟨⟨fun _ => ?_, fun hno => ?_⟩, ⟨?_, fun hring j hj hesp => ?_, h.page⟩⟩
  · rw [h.esp]
    cases hat with
    | program h3 =>
      refine ⟨?_, .program rfl⟩
      unfold Trapped
      rw [show stackWord s₁.sched.vmm.mem o.stack 1020 = s.cpu.cs from h.cs]
      exact of_decide_eq_true h3
    | @kernel b hin hle =>
      have htop : b + 11 ≤ 1011 ∧ Trapped s.mem o.stack := by
        cases hr with
        | idle hi => exact absurd hi hidle
        | program _ h3 =>
          rw [hin.ring3] at h3
          cases h3
        | @syscall i _ _ hin' hi htrap =>
          have : b + 11 = i := slot_inj hp.aligned hp.stackEnd hle (by omega) (hin.esp.symm.trans hin'.esp)
          exact ⟨by omega, htrap⟩
        | task hno =>
          rw [hno] at hd
          cases hd
      refine ⟨?_, .kernel rfl htop.1 (h.cs.trans hin.cs)⟩
      unfold Trapped
      rw [show stackWord s₁.sched.vmm.mem o.stack 1020 = stackWord s.mem o.stack 1020 from
        h.rest 1020 (by omega) (by omega)]
      exact htop.2
  · rw [hno] at hd
    cases hd
  · rw [hctx]
    unfold Sched.parked
    rw [hp'.user, if_pos hd, h.esp]
    exact h.frame
  · rw [hctx] at hring hesp
    cases hat with
    | program h3 =>
      rw [hring] at h3
      cases h3
    | kernel hin hle =>
      rw [hin.esp, slot_le hp.aligned hp.stackEnd hle (by omega)] at hesp
      exact h.rest j hj hesp

/-- The other tasks stay parked. -/
theorem Stopped.other (h : Stopped s s₁ L o top b) (hpcb : o.pcb = s.sched.currentTask)
    (ho' : o' ∈ L) (hne : o'.pcb ≠ s.sched.currentTask) (hk : Parked s.sched o')
    (hp : Placed s.sched o') (hp' : Placed s₁.sched o') :
    Parked s₁.sched o' ∧ Stores s s₁.sched o' := by
  have hu : Untouched o' s.sched.vmm.mem s₁.sched.vmm.mem := h.others o' ho' fun e =>
    hne (e ▸ hpcb)
  exact ⟨hk.congr hu, (Stores.of_parked hne).untouched hk hp hp' hu⟩

end

end HaoSys.Proc
