import HaoSys.Proc.Run

/-!
# Following a run

As long as no program is loaded the tasks take turns: every task of the list
but the current one is ready, and `schedule` goes on with the task behind it.
`Turn` is a state of such a run, with the list around the current task, the
directory of each task and the free pages in their order. There is one lemma
for each step; the last section boots the small machine.
-/

namespace HaoSys.Proc

open HaoSys.Lib HaoSys.Mm

/-- The tasks are pairs of the task and its directory: `l ++ c :: r` is the list and `c` the
current task, `zs` are the zombies, `e` is the idle task. -/
structure Turn (endAddr k : UInt32) (ok : Sched → Prop) (e : UInt32) (s : Sched) (L : List Owned)
    (l : List (UInt32 × UInt32)) (c : UInt32 × UInt32) (r zs : List (UInt32 × UInt32))
    (xs : List UInt32) : Prop where
  reach : Reachable endAddr k ok s L
  inv : SchedInv s L ((l ++ c :: r).map Prod.fst) (zs.map Prod.fst) xs
  idle : s.idleTask = e
  task : s.currentTask = c.1
  running : s.get c.1 .state = TaskState.running.code
  ready : ∀ t ∈ r ++ l, s.get t.1 .state = TaskState.ready.code
  dir : ∀ t ∈ (l ++ c :: r) ++ zs, s.get t.1 .pageDirectory = t.2 ∧ t.2 ≠ 0
  current : s.vmm.currentDirectory = c.2
  kernel : s.vmm.kernelPageDirectory = k
  room : ∀ i ∈ xs, indexToAddr i ≠ 0
  bound : ∀ p ∈ held L ++ dirs L, addrToIndex p < s.vmm.pmm.totalPages
  /-- The kernel's directory has no table behind the bound of the scan. -/
  scan : ∀ i, s.vmm.kernelPdes ≤ i →
    tableOf s.vmm.mem s.vmm.kernelPageDirectory i = none

section

variable {endAddr k e : UInt32} {ok : Sched → Prop} {s s' : Sched} {L : List Owned}
  {l l' r r' zs rest : List (UInt32 × UInt32)} {xs ys : List UInt32} {c u z : UInt32 × UInt32}
  {x y d : UInt32} {o : Owned}

theorem SameTables.scan {ds : List UInt32} {v w : Vmm} (h : SameTables ds v w)
    (hs : ∀ i, v.kernelPdes ≤ i → tableOf v.mem v.kernelPageDirectory i = none) :
    ∀ i, w.kernelPdes ≤ i → tableOf w.mem w.kernelPageDirectory i = none := by
  intro i hi
  rw [Vmm.kernelPdes, h.boot.2.2] at hi
  rw [h.boot.1, h.tables _ List.mem_cons_self]
  exact hs i hi

theorem Turn.fst_mem {t : UInt32 × UInt32} (ht : t ∈ (l ++ c :: r) ++ zs) :
    t.1 ∈ (l ++ c :: r).map Prod.fst ++ zs.map Prod.fst := by
  rw [← List.map_append]
  exact List.mem_map_of_mem ht

/-- The current task is none of the others. -/
theorem Turn.ne (h : Turn endAddr k ok e s L l c r zs xs) {t : UInt32 × UInt32}
    (ht : t ∈ r ++ l) : t.1 ≠ c.1 := by
  have hnd := h.inv.nodup
  have hm := List.mem_map_of_mem (f := Prod.fst) ht
  simp only [List.map_append, List.map_cons] at hnd hm
  grind

/-! ## Creating -/

/-- The first free pages are pages of the machine. -/
theorem Turn.index_lt (h : Turn endAddr k ok e s L l c r zs xs) {i : UInt32} (hi : i ∈ xs) :
    addrToIndex (indexToAddr i) < s.vmm.pmm.totalPages := by
  have hlt := h.inv.core.inv.pmm.lt hi
  rw [addrToIndex_indexToAddr (h.inv.core.inv.pmm.fits.lt hlt)]
  exact hlt

/-- A creation that had its pages. -/
theorem Turn.created (h : Turn endAddr k ok e s L l c r zs xs) {t : UInt32 × Sched} {d : UInt32}
    (hr : t.1 = o.pcb) (hc : Created s L xs o t.2 ys) (hys : ys ⊆ xs) (hd : d ≠ 0)
    (hpd : t.2.get o.pcb .pageDirectory = d)
    (hbound : ∀ p ∈ o.pcb :: o.stack :: o.dir.toList, addrToIndex p < s.vmm.pmm.totalPages)
    (hreach : Reachable endAddr k ok t.2 (record L t)) :
    Turn endAddr k ok e t.2 (o :: L) ((o.pcb, d) :: l) c r zs ys := by
  have hold := hc.old
  rw [record_created hc hr] at hreach
  have hget : ∀ t' ∈ (l ++ c :: r) ++ zs, ∀ f, t.2.get t'.1 f = s.get t'.1 f := by
    intro t' ht' f
    obtain ⟨o', ho', he⟩ := h.inv.entry (Turn.fst_mem ht')
    rw [← he]
    exact hold.get ho' f
  refine ⟨hreach, h.inv.created hc, hold.idle.trans h.idle, hold.current.trans h.task, ?_,
    fun t' ht' => ?_, fun t' ht' => ?_, hold.directory.trans h.current, hold.boot.1.trans h.kernel,
    fun i hi => h.room i (hys hi), fun p hp => ?_, ?_⟩
  · rw [hget c (by simp)]
    exact h.running
  · have hcase : t' = (o.pcb, d) ∨ t' ∈ r ++ l := by
      simp only [List.mem_append, List.mem_cons] at ht' ⊢
      tauto
    rcases hcase with rfl | ht'
    · exact hc.state
    · rw [hget t' (by grind)]
      exact h.ready t' ht'
  · rcases List.mem_cons.1 ht' with rfl | ht'
    · exact ⟨hpd, hd⟩
    · rw [hget t' ht']
      exact h.dir t' ht'
  · rw [hold.boot.2.1.2]
    have hcase : p ∈ o.pcb :: o.stack :: o.dir.toList ∨ p ∈ held L ++ dirs L := by
      have hmaps := hc.maps
      simp only [held, dirs, List.flatMap_cons, List.filterMap_cons, Owned.held, hmaps,
        List.map_nil] at hp ⊢
      cases hod : o.dir <;> rw [hod] at hp <;> grind
    exact hcase.elim (hbound p) (h.bound p)
  · exact (h.inv.core.sameTables hc.keeps fun _ _ => List.not_mem_nil).scan h.scan

/-- `task_create` with two free pages at hand. -/
theorem Core.taskCreate_pages (h : Core s.vmm L (x :: y :: xs)) (hx : indexToAddr x ≠ 0)
    (hy : indexToAddr y ≠ 0) {entry : UInt32} (he : entry ≠ 0) :
    (s.taskCreate entry).1 = indexToAddr x ∧
      (s.taskCreate entry).2.get (indexToAddr x) .pageDirectory = s.vmm.currentDirectory ∧
      Created s L (x :: y :: xs) ⟨indexToAddr x, indexToAddr y, none, []⟩
        (s.taskCreate entry).2 xs := by
  rcases h.taskCreate entry with hno | ⟨o, hd, hpcb, hstack, hr, hpd, hc⟩
  · -- there were pages
    have hnull := hno.null
    unfold Sched.taskCreate at hnull
    obtain ⟨task, v1, halloc, haddr, -, hnz⟩ := h.twoPages
    have ht : task ≠ 0 := haddr ▸ hx
    obtain ⟨stack, pmm, halloc2, haddr2, -, -⟩ := hnz ht
    have hs : stack ≠ 0 := haddr2 ▸ hy
    simp only [halloc, halloc2, if_neg he, if_neg ht, if_neg hs] at hnull
    exact absurd hnull ht
  · have ho : o = ⟨indexToAddr x, indexToAddr y, none, []⟩ := by
      obtain ⟨b, k, od, qs⟩ := o
      have hmaps : qs = [] := hc.maps
      simp only at hd hpcb hstack
      rw [hd, hpcb, hstack, hmaps]
      rfl
    subst ho
    exact ⟨hr, hpd, hc⟩

theorem Turn.taskCreate (h : Turn endAddr k ok e s L l c r zs (x :: y :: xs)) {entry : UInt32}
    (he : entry ≠ 0) : s.vmm.SameBoot (s.taskCreate entry).2.vmm ∧
      Turn endAddr k ok e (s.taskCreate entry).2
        (⟨indexToAddr x, indexToAddr y, none, []⟩ :: L) ((indexToAddr x, c.2) :: l) c r zs xs := by
  obtain ⟨hr, hpd, hc⟩ := h.inv.core.taskCreate_pages (h.room x (by simp)) (h.room y (by simp)) he
  have hrun : s.hasState s.currentTask .running = true := by
    rw [h.task]
    exact hasState_iff.2 h.running
  refine ⟨hc.old.boot, h.created hr hc (fun i hi => by simp [hi]) (h.dir c (by simp)).2 ?_ ?_
    (.create entry h.reach hrun)⟩
  · rw [hpd, h.current]
  · intro p hp
    have hcase : p = indexToAddr x ∨ p = indexToAddr y := by simpa using hp
    rcases hcase with rfl | rfl
    · exact h.index_lt (by simp)
    · exact h.index_lt (by simp)

theorem Turn.create (h : Turn endAddr k ok e s L l c r zs (x :: y :: xs)) {entry : UInt32}
    (he : entry ≠ 0) : ∃ s', Turn endAddr k ok e s'
      (⟨indexToAddr x, indexToAddr y, none, []⟩ :: L) ((indexToAddr x, c.2) :: l) c r zs xs :=
  ⟨_, (h.taskCreate he).2⟩

/-- `task_create_user` does not fail with three free pages at hand. -/
theorem Core.taskCreateUser_ne_zero (h : Core s.vmm L (x :: y :: d :: xs))
    (hx : indexToAddr x ≠ 0) (hy : indexToAddr y ≠ 0) (hd : indexToAddr d ≠ 0)
    {entry stack : UInt32} (he : entry ≠ 0) (hst : stack ≠ 0) :
    (s.taskCreateUser entry stack).1 ≠ 0 := by
  intro hnull
  unfold Sched.taskCreateUser at hnull
  obtain ⟨task, v1, halloc, haddr, -, hnz⟩ := h.twoPages
  have ht : task ≠ 0 := haddr ▸ hx
  obtain ⟨kstack, pmm, halloc2, haddr2, -, htwo⟩ := hnz ht
  have hs : kstack ≠ 0 := haddr2 ▸ hy
  obtain ⟨d', w, hcreate, haddr3, -⟩ := (htwo hs).evolves.inv.evolves_create
  have hd0 : d' ≠ 0 := haddr3 ▸ hd
  simp only [halloc, halloc2, hcreate, if_neg ht, if_neg hs, if_neg hd0,
    if_neg (not_or.2 ⟨he, hst⟩)] at hnull
  exact ht hnull

theorem Turn.taskCreateUser (h : Turn endAddr k ok e s L l c r zs (x :: y :: d :: xs))
    {entry stack : UInt32} (he : entry ≠ 0) (hst : stack ≠ 0) :
    (s.taskCreateUser entry stack).1 = indexToAddr x ∧
      record L (s.taskCreateUser entry stack) =
        ⟨indexToAddr x, indexToAddr y, some (indexToAddr d), []⟩ :: L ∧
      Turn endAddr k ok e (s.taskCreateUser entry stack).2
        (⟨indexToAddr x, indexToAddr y, some (indexToAddr d), []⟩ :: L)
        ((indexToAddr x, indexToAddr d) :: l) c r zs xs := by
  have hd0 := h.room d (by simp)
  have hne := h.inv.core.taskCreateUser_ne_zero (h.room x (by simp)) (h.room y (by simp)) hd0 he hst
  rcases h.inv.core.taskCreateUser entry stack with hno |
    ⟨o, d', hd, hpcb, hstack, rfl, hr, hc, -⟩
  · exact absurd hno.null hne
  have ho : o = ⟨indexToAddr x, indexToAddr y, some (indexToAddr d), []⟩ := by
    obtain ⟨b, k, od, qs⟩ := o
    have hmaps : qs = [] := hc.maps
    simp only at hd hpcb hstack
    rw [hd, hpcb, hstack, hmaps]
    rfl
  subst ho
  have hrun : s.hasState s.currentTask .running = true := by
    rw [h.task]
    exact hasState_iff.2 h.running
  refine ⟨hr, record_created hc hr, h.created hr hc (fun i hi => by simp [hi]) hd0 (hc.dir _ hd) ?_
    (.createUser entry stack h.reach hrun)⟩
  intro p hp
  have hcase : p = indexToAddr x ∨ p = indexToAddr y ∨ p = indexToAddr d := by simpa using hp
  rcases hcase with rfl | rfl | rfl
  · exact h.index_lt (by simp)
  · exact h.index_lt (by simp)
  · exact h.index_lt (by simp)

theorem Turn.createUser (h : Turn endAddr k ok e s L l c r zs (x :: y :: d :: xs))
    {entry stack : UInt32} (he : entry ≠ 0) (hst : stack ≠ 0) :
    ∃ s', Turn endAddr k ok e s'
      (⟨indexToAddr x, indexToAddr y, some (indexToAddr d), []⟩ :: L)
      ((indexToAddr x, indexToAddr d) :: l) c r zs xs := by
  obtain ⟨-, -, h'⟩ := h.taskCreateUser he hst
  exact ⟨_, h'⟩

/-! ## Taking turns -/

/-- The pages of the machine stay in the ledger when the memory keeps its size. -/
theorem Turn.bound_of_boot (h : Turn endAddr k ok e s L l c r zs xs) {M : List Owned} {w : Vmm}
    (hM : M.Sublist L) (hboot : s.vmm.SameBoot w) :
    ∀ p ∈ held M ++ dirs M, addrToIndex p < w.pmm.totalPages := by
  intro p hp
  rw [hboot.2.1.2]
  refine h.bound p ?_
  rcases List.mem_append.1 hp with hp | hp
  · exact List.mem_append_left _ ((held_sublist hM).subset hp)
  · exact List.mem_append_right _ ((dirs_sublist hM).subset hp)

theorem Turn.findNext (h : Turn endAddr k ok e s L l c r zs xs) (hrot : r ++ l = u :: rest) :
    s.findNext = some u.1 := by
  have hu : u ∈ r ++ l := hrot ▸ List.mem_cons_self
  have hlist := h.inv.tasks.list
  rw [List.map_append] at hlist
  have h0 : (0 : UInt32) ∉ l.map Prod.fst ++ (c :: r).map Prod.fst := fun hm => by
    rw [← List.map_append] at hm
    exact h.inv.zero_not_mem (List.mem_append_left _ hm)
  have hnext : s.nextOf s.currentTask = u.1 := by
    rw [h.task, nextOf_eq hlist h0 (show _ = c.1 :: (r ++ l).map Prod.fst by simp), hrot]
    rfl
  unfold Sched.findNext
  rw [hnext, h.task, if_neg (h.ne hu), maxTasks, Sched.searchReady,
    if_pos (hasState_iff.2 (h.ready u hu))]

/-- The call, once it is known what it reaps. -/
theorem Turn.schedule_eq (h : Turn endAddr k ok e s L l c r zs xs) (hrot : r ++ l = u :: rest)
    {fuel : Nat} {log : List (UInt32 × List UInt32)}
    (hreap : Sched.reapZombies fuel s = some (log, s')) (sp : UInt32) :
    s.schedule fuel sp = some ⟨log, true, s'.enter sp u.1⟩ := by
  have hterm : s.hasState s.currentTask .terminated = false := by
    rw [h.task]
    exact not_terminated h.running
  unfold Sched.schedule Sched.switchTo
  rw [if_neg h.inv.current_ne_zero, if_neg (by simp [hterm]), h.findNext hrot]
  simp only [hreap, Option.map_some]

/-- What a switch to `u` leaves, with the list around `u` and the zombies `zs'`. -/
theorem Turn.switched (h : Turn endAddr k ok e s L l c r zs xs) {M : List Owned}
    {zs' : List (UInt32 × UInt32)} (hM : M.Sublist L) (hsub : l' ++ u :: r' ⊆ l ++ c :: r)
    (hzs : zs' ⊆ (l ++ c :: r) ++ zs) {s₀ : Sched}
    (hs₀ : ∀ t ∈ (l' ++ u :: r') ++ zs', s₀.get t.1 .pageDirectory = s.get t.1 .pageDirectory ∧
      (t ∈ r' ++ l' → t.1 ≠ c.1 → s₀.get t.1 .state = s.get t.1 .state))
    (hcur : s₀.currentTask = s.currentTask) (hidle : s₀.idleTask = s.idleTask)
    (htables : SameTables (dirs M) s.vmm s₀.vmm)
    (hsw : Switched (dirs M) s₀ s' ((l' ++ u :: r').map Prod.fst) u.1)
    (hz : ∀ t ∈ zs', s'.get t.1 .pageDirectory = s₀.get t.1 .pageDirectory)
    (hinv : SchedInv s' M ((l' ++ u :: r').map Prod.fst) (zs'.map Prod.fst) ys)
    (hys : ∀ i ∈ ys, indexToAddr i ≠ 0) (hreach : Reachable endAddr k ok s' M) :
    Turn endAddr k ok e s' M l' u r' zs' ys := by
  have hsame := htables.trans hsw.tables
  have hmem : ∀ t ∈ l' ++ u :: r', t.1 ∈ (l' ++ u :: r').map Prod.fst := fun t ht =>
    List.mem_map_of_mem ht
  have hdir : ∀ t ∈ (l' ++ u :: r') ++ zs', s'.get t.1 .pageDirectory = t.2 ∧ t.2 ≠ 0 := by
    intro t ht
    have hs' : s'.get t.1 .pageDirectory = s₀.get t.1 .pageDirectory := by
      rcases List.mem_append.1 ht with ht | ht
      · exact hsw.words t.1 (hmem t ht) _ (by simp) (by simp) (by simp)
      · exact hz t ht
    rw [hs', (hs₀ t ht).1]
    refine h.dir t ?_
    rcases List.mem_append.1 ht with ht | ht
    · exact List.mem_append_left _ (hsub ht)
    · exact hzs ht
  refine ⟨hreach, hinv, hsw.idle.trans (hidle.trans h.idle), hsw.current, hsw.running,
    fun t ht => ?_, hdir, ?_, hsame.boot.1.trans h.kernel, hys, h.bound_of_boot hM hsame.boot,
    hsame.scan h.scan⟩
  · have ht' : t ∈ l' ++ u :: r' := by grind
    have hne : t.1 ≠ u.1 := by
      have hnd := hinv.nodup
      have hm := List.mem_map_of_mem (f := Prod.fst) ht
      simp only [List.map_append, List.map_cons] at hnd hm
      grind
    rw [hsw.states t.1 (hmem t ht') hne, hcur, h.task]
    split
    · rfl
    · next hc =>
      rw [(hs₀ t (List.mem_append_left _ ht')).2 ht hc]
      have hm := hsub ht'
      refine h.ready t ?_
      have : t ≠ c := fun e => hc (congrArg Prod.fst e)
      grind
  · obtain ⟨hpd, h0⟩ := hdir u (by simp)
    rw [hsw.directory (hpd ▸ h0), hpd]

/-- A switch with nothing to reap. -/
theorem Turn.switch (h : Turn endAddr k ok e s L l c r [] xs) (hok : ok s)
    (hrot : r ++ l = u :: rest) (hts : l ++ c :: r = l' ++ u :: r') :
    ∃ s', Turn endAddr k ok e s' L l' u r' [] xs ∧
      (s'.get u.1 .kernelEsp0 ≠ 0 → s'.esp0 = s'.get u.1 .kernelEsp0) ∧
      s.schedule 0 0 = some ⟨[], true, s'⟩ := by
  have hu := h.inv.tasks.findNext (h.findNext hrot)
  obtain ⟨hinv, hsw, hesp⟩ := h.inv.enter 0 hu
  have hz : s.zombieList = 0 := h.inv.tasks.zombies
  have hreap : Sched.reapZombies 0 s = some ([], s) := if_pos hz
  have hcall := h.schedule_eq hrot hreap 0
  have hreach := Reachable.schedule h.reach hok hcall
  rw [List.map_nil, filter_not_mem_nil] at hreach
  rw [List.map_nil, List.append_nil] at hsw
  rw [hts] at hinv hsw
  generalize s.enter 0 u.1 = s' at *
  refine ⟨s', ?_, hesp, hcall⟩
  have hsub : l' ++ u :: r' ⊆ l ++ c :: r := by
    rw [hts]
    exact fun _ h => h
  have hsame : ∀ t ∈ (l' ++ u :: r') ++ [], s.get t.1 .pageDirectory = s.get t.1 .pageDirectory ∧
      (t ∈ r' ++ l' → t.1 ≠ c.1 → s.get t.1 .state = s.get t.1 .state) :=
    fun _ _ => ⟨rfl, fun _ _ => rfl⟩
  exact h.switched (.refl L) hsub (by simp) hsame rfl rfl (.refl _ _) hsw (by simp) hinv h.room hreach

/-- A task exits, and the task behind it goes on. -/
theorem Turn.exit (h : Turn endAddr k ok e s L l c r zs xs) (hidle : c.1 ≠ e)
    (hok : ok s.markTerminated) (hrot : r ++ l = u :: rest) (hts : l ++ r = l' ++ u :: r') :
    Reachable endAddr k ok s.markTerminated L ∧
      ∃ s', s.markTerminated.schedule (l.length + 1) 0 = some ⟨[], true, s'⟩ ∧
        Turn endAddr k ok e s' L l' u r' (c :: zs) xs ∧ s'.esp0 = s.esp0 := by
  have hrun : s.hasState s.currentTask .running = true := by
    rw [h.task]
    exact hasState_iff.2 h.running
  have hidle' : s.currentTask ≠ s.idleTask := by
    rw [h.task, h.idle]
    exact hidle
  have hreach := Reachable.exit h.reach hrun hidle'
  obtain ⟨hinv, heq⟩ := h.inv.markTerminated
  have hcur : s.currentTask ∈ (l ++ c :: r).map Prod.fst ++ zs.map Prod.fst := by
    rw [h.task]
    simp
  have hget : ∀ t ∈ (l ++ c :: r) ++ zs, ∀ f, f ≠ .state ∨ t.1 ≠ s.currentTask →
      s.markTerminated.get t.1 f = s.get t.1 f := by
    intro t ht f hf
    rw [heq]
    exact get_set_of_ne (h.inv.aligned hcur) (h.inv.aligned (Turn.fst_mem ht)) hf
  have htables : SameTables (dirs L) s.vmm s.markTerminated.vmm := by
    rw [heq]
    exact h.inv.set_sameTables hcur .state TaskState.terminated.code
  have hterm : s.markTerminated.get s.markTerminated.currentTask .state =
      TaskState.terminated.code := by
    rw [heq]
    exact get_set_self ..
  have hcur' : s.markTerminated.currentTask = c.1 ∧ s.markTerminated.idleTask = e ∧
      s.markTerminated.esp0 = s.esp0 := by
    rw [heq]
    exact ⟨h.task, h.idle, rfl⟩
  refine ⟨hreach, ?_⟩
  generalize s.markTerminated = s₀ at *
  obtain ⟨hcur₀, hidle₀, hesp₀⟩ := hcur'
  have hfirst : s₀.firstReady ((r ++ l).map Prod.fst) = u.1 := by
    have hu : u ∈ r ++ l := hrot ▸ List.mem_cons_self
    have hready : s₀.hasState u.1 .ready = true := by
      refine hasState_iff.2 ?_
      rw [hget u (by grind) _ (.inr (h.task ▸ h.ne hu))]
      exact h.ready u hu
    rw [hrot, List.map_cons]
    unfold Sched.firstReady
    rw [List.find?_cons, hready]
    rfl
  rw [List.map_append, List.map_cons, ← hcur₀] at hinv
  obtain ⟨s', hcall, hinv', hsw, hesp, hwords⟩ :=
    SchedInv.schedule_exit hinv hterm (by rw [hcur₀, hidle₀]; exact hidle)
      (Nat.lt_succ_self (l.map Prod.fst).length) 0
  rw [List.length_map] at hcall
  have hreach' := Reachable.schedule hreach hok hcall
  rw [List.map_nil, filter_not_mem_nil] at hreach'
  rw [← List.map_append] at hsw hinv'
  rw [← List.map_append, hfirst] at hsw
  rw [hts] at hsw hinv'
  rw [hcur₀] at hinv' hwords
  have hmem : ∀ t ∈ (l' ++ u :: r') ++ (c :: zs), t ∈ (l ++ c :: r) ++ zs := by
    rw [← hts]
    grind
  refine ⟨s', hcall, h.switched (.refl L) ?_ ?_ ?_ (hcur₀.trans h.task.symm)
    (hidle₀.trans h.idle.symm) htables hsw ?_ hinv' h.room hreach', hesp.trans hesp₀⟩
  · rw [← hts]
    grind
  · grind
  · exact fun t ht => ⟨hget t (hmem t ht) _ (.inl (by simp)), fun _ hne =>
      hget t (hmem t ht) _ (.inr (h.task ▸ hne))⟩
  · intro t ht
    refine hwords t.1 ?_ _ (by simp) (by simp)
    have := Turn.fst_mem (hmem t (List.mem_append_right _ ht))
    rwa [List.map_append, List.map_cons] at this

/-! ## Booting -/

/-- What `task_init` does to the memory managers, and the directory of the idle task. -/
theorem taskInit_kernel (h : Core s.vmm [] xs)
    {idleLoop : UInt32} {o : Owned}
    (hc : Created { s with esp0 := 0 } [] xs o (Sched.taskCreate { s with esp0 := 0 } idleLoop).2 ys)
    (ho : (Sched.taskCreate { s with esp0 := 0 } idleLoop).1 = o.pcb) :
    SameTables [] s.vmm (s.taskInit idleLoop).vmm ∧
      (s.taskInit idleLoop).vmm.currentDirectory = s.vmm.currentDirectory ∧
      (s.taskInit idleLoop).get o.pcb .pageDirectory =
        (Sched.taskCreate { s with esp0 := 0 } idleLoop).2.get o.pcb .pageDirectory := by
  have ha := (hc.core.pcb List.mem_cons_self).inUse.aligned
  have hheld : o.pcb ∈ held [o] := pcb_mem_held List.mem_cons_self
  obtain ⟨hc₁, -⟩ := hc.core.set hheld .state TaskState.running.code
  obtain ⟨hc₂, -⟩ := hc₁.set hheld .kernelEsp0 0
  rw [taskInit_eq ho (hc.core.pcb List.mem_cons_self).ne_zero]
  refine ⟨?_, hc.old.directory, ?_⟩
  · have hnil : ∀ ds : List UInt32, [] ⊆ ds := List.nil_subset
    exact (((h.sameTables hc.keeps fun _ _ => List.not_mem_nil).trans
      ((hc.core.set_sameTables hheld .state TaskState.running.code).mono (hnil _))).trans
      ((hc₁.set_sameTables hheld .kernelEsp0 0).mono (hnil _))).trans
      ((hc₂.set_sameTables hheld .next 0).mono (hnil _))
  · change ((((Sched.taskCreate { s with esp0 := 0 } idleLoop).2.set o.pcb .state _).set o.pcb
      .kernelEsp0 0).set o.pcb .next 0).get o.pcb .pageDirectory = _
    simp [get_set ha ha]

end

/-- After `task_init` the idle task is alone. -/
structure Booted (endAddr k : UInt32) (ok : Sched → Prop) (pmm : Pmm) (s : Sched) (o : Owned)
    (xs : List UInt32) : Prop where
  reach : Reachable endAddr k ok s [o]
  inv : SchedInv s [o] [o.pcb] [] xs
  idle : s.idleTask = o.pcb
  task : s.currentTask = o.pcb
  running : s.get o.pcb .state = TaskState.running.code
  kernelTask : o.dir = none
  maps : o.maps = []
  count : xs.length + 2 = (bootSched pmm k).vmm.pmm.freePages.toNat
  room : ∀ i ∈ xs, indexToAddr i ≠ 0
  bound : ∀ p ∈ o.held, addrToIndex p < s.vmm.pmm.totalPages
  kernel : s.vmm.kernelPageDirectory = k
  tables : SameTables [] (bootSched pmm k).vmm s.vmm
  current : s.vmm.currentDirectory = (bootSched pmm k).vmm.currentDirectory
  word : s.get o.pcb .pageDirectory = (bootSched pmm k).vmm.currentDirectory

theorem boot_idle {endAddr k : UInt32} (hl : Vmm.ImageLayout endAddr k) {fuel : Nat}
    {magic infoAddr : UInt32} {m : Mem} {pmm : Pmm}
    (hp : Pmm.pmmInit fuel endAddr magic infoAddr m = some pmm)
    (hfree : 2 ≤ (bootSched pmm k).vmm.pmm.freePages.toNat)
    (hbit : (bootSched pmm k).vmm.pmm.getPageBit 0 = false) (ok : Sched → Prop) :
    ∃ s o xs, Booted endAddr k ok pmm s o xs := by
  obtain ⟨us, hcore⟩ := core_boot hl hp
  have hk : (bootSched pmm k).vmm.kernelPageDirectory = k := by
    obtain ⟨hb, zs, hinv, himg⟩ := Pmm.pmmInit_inv hl.room hp
    exact (Vmm.vmmInit_inv hinv (hl.inUse hb himg) hl.ne_zero).1.1
  have hcount := hcore.inv.pmm.count
  have hroom : ∀ i ∈ us, indexToAddr i ≠ 0 := fun i => hcore.inv.pmm.indexToAddr_ne_zero hbit
  obtain ⟨x, y, xs, rfl⟩ : ∃ x y xs, us = x :: y :: xs := by
    rw [hcount] at hfree
    match us, hfree with
    | x :: y :: xs, _ => exact ⟨x, y, xs, rfl⟩
  obtain ⟨hr, hpd, hc⟩ := hcore.taskCreate_pages (hroom x (by simp)) (hroom y (by simp))
    (show (1 : UInt32) ≠ 0 by decide)
  have hne : ((bootSched pmm k).taskCreate 1).1 ≠ 0 := hr ▸ hroom x (by simp)
  have hreach : Reachable endAddr k ok _ _ := .init hp hne
  obtain ⟨hinv, hrun, hcur, hidle⟩ := taskInit_inv (s := bootSched pmm k) ⟨rfl, rfl⟩ hc hr rfl
  obtain ⟨htables, hdir, hpd'⟩ := taskInit_kernel (s := bootSched pmm k) hcore hc hr
  rw [show record [] ((bootSched pmm k).taskCreate 1) =
    [⟨indexToAddr x, indexToAddr y, none, []⟩] from record_created hc hr] at hreach
  refine ⟨_, _, xs, hreach, hinv, hidle, hcur, hrun, rfl, rfl, by simpa using hcount.symm,
    fun i hi => hroom i (by simp [hi]), fun p hp => ?_, htables.boot.1.trans hk, htables, hdir,
    hpd'.trans hpd⟩
  have hlt : ∀ i ∈ x :: y :: xs, addrToIndex (indexToAddr i) <
      (bootSched pmm k).vmm.pmm.totalPages := fun i hi => by
    have hlt := hcore.inv.pmm.lt hi
    rwa [addrToIndex_indexToAddr (hcore.inv.pmm.fits.lt hlt)]
  rw [htables.boot.2.1.2]
  have hcase : p = indexToAddr x ∨ p = indexToAddr y := by simpa [Owned.held] using hp
  rcases hcase with rfl | rfl
  · exact hlt _ (by simp)
  · exact hlt _ (by simp)

/-! ## Booting the small machine -/

theorem small_boot_facts : (bootSched smallPmm 0x101000).vmm.pmm.freePages.toNat = 12 ∧
    (bootSched smallPmm 0x101000).vmm.pmm.getPageBit 0 = false ∧
    (bootSched smallPmm 0x101000).vmm.currentDirectory = 0x101000 := by
  decide +kernel

/-- The small machine with its idle task. -/
theorem small_booted (ok : Sched → Prop) : ∃ s b q xs,
    Booted 0x102000 0x101000 ok smallPmm s ⟨b, q, none, []⟩ xs := by
  obtain ⟨hfree, hbit, -⟩ := small_boot_facts
  obtain ⟨s, ⟨b, q, od, qs⟩, xs, h⟩ :=
    boot_idle Vmm.smallLayout smallPmm_init (hfree ▸ by decide) hbit ok
  obtain rfl : od = none := h.kernelTask
  obtain rfl : qs = [] := h.maps
  exact ⟨s, b, q, xs, h⟩

/-- It has ten free pages left. -/
theorem Booted.small {ok : Sched → Prop} {s : Sched} {b q : UInt32} {xs : List UInt32}
    (h : Booted 0x102000 0x101000 ok smallPmm s ⟨b, q, none, []⟩ xs) :
    Turn 0x102000 0x101000 ok b s [⟨b, q, none, []⟩] [] (b, 0x101000) [] [] xs ∧
      xs.length = 10 := by
  obtain ⟨hfree, -, hcur⟩ := small_boot_facts
  have hlen := h.count
  rw [hfree] at hlen
  refine ⟨⟨h.reach, h.inv, h.idle, h.task, h.running, by simp, fun t ht => ?_,
    h.current.trans hcur, h.kernel, h.room, fun p hp => h.bound p ?_,
    h.tables.scan fun i hi => boot_scan Vmm.smallLayout smallPmm_init hi⟩, by omega⟩
  · obtain rfl : t = (b, 0x101000) := by simpa using ht
    exact ⟨h.word.trans hcur, Vmm.smallLayout.ne_zero⟩
  · simpa [held, dirs] using hp

theorem small_turn (ok : Sched → Prop) : ∃ s b q xs,
    Turn 0x102000 0x101000 ok b s [⟨b, q, none, []⟩] [] (b, 0x101000) [] [] xs ∧
      xs.length = 10 := by
  obtain ⟨s, b, q, xs, h⟩ := small_booted ok
  exact ⟨s, b, q, xs, h.small⟩

/-- Seven of them by name. -/
theorem seven_pages {xs : List UInt32} (h : 7 ≤ xs.length) : ∃ x₁ x₂ x₃ x₄ x₅ x₆ x₇ us,
    xs = x₁ :: x₂ :: x₃ :: x₄ :: x₅ :: x₆ :: x₇ :: us := by
  match xs, h with
  | x₁ :: x₂ :: x₃ :: x₄ :: x₅ :: x₆ :: x₇ :: us, _ => exact ⟨x₁, x₂, x₃, x₄, x₅, x₆, x₇, us, rfl⟩

end HaoSys.Proc
