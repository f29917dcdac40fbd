import HaoSys.Proc.Trace

/-!
# Reaping what is not the task's

A kernel task's directory is the one that was current when the task was made,
and `free_task` destroys it unless it is the current one. In the first of the
runs at the end of this module that is the kernel's own directory. The others
give the page of a user task's directory to another task as its stack, and let
that task be the one that reaps; its CR3 is the kernel's, but on the way a task
runs under the directory that was freed, whose first word `pmm_free_page` has
made the link of its free list.
-/

namespace HaoSys.Proc

open HaoSys.Lib HaoSys.Mm

section

variable {endAddr k e : UInt32} {ok : Sched → Prop} {s s' : Sched} {L M : List Owned}
  {l l' r r' zs rest : List (UInt32 × UInt32)} {xs ys : List UInt32} {c u : UInt32 × UInt32}
  {o : Owned} {d pd : UInt32}

/-- `free_task` for a task without user pages. -/
theorem Core.freeTask_eq (h : Core s.vmm (o :: M) xs) (hok : TaskOk s o) (hmaps : o.maps = [])
    (hidle : o.pcb ≠ s.idleTask) (hstack : o.stack + 4096 ≠ 0)
    (hpd : s.get o.pcb .pageDirectory = pd) {pages : List UInt32} {w : Vmm}
    (hdir : (if pd ≠ 0 ∧ pd ≠ s.vmm.currentDirectory then
      (s.vmm.freePage o.stack).vmmDestroyDirectory pd else ([], s.vmm.freePage o.stack)) =
        (pages, w)) :
    s.freeTask o.pcb = (o.stack :: pages ++ [o.pcb], { s with vmm := w.freePage o.pcb }) := by
  have hb := h.pcb List.mem_cons_self
  have hcount : (entryAt s.vmm.mem o.pcb Field.userVirtCount.index).toNat = 0 := by
    have := hok.count
    rwa [hmaps] at this
  have hpages : ∀ dir, Sched.freeUserPages o.pcb dir 96 0 s.vmm = ([], s.vmm) := fun dir => by
    unfold Sched.freeUserPages
    rw [dif_neg (by rw [hcount]; omega)]
  have hesp : s.get o.pcb .kernelEsp0 = o.stack + 4096 := hok.esp0.trans (if_neg hidle)
  -- the stack goes first, and leaves the words
  obtain ⟨ys, he, -⟩ := h.inv.evolves_free (h.stack List.mem_cons_self)
  have hword : Sched.get { s with vmm := s.vmm.freePage o.stack } o.pcb .pageDirectory = pd := by
    rw [← hpd]
    refine he.keeps.entry _ hb.inUse (fun hm => ?_) _ (Field.index_lt _)
    have hnd := (List.nodup_flatMap.1 h.heldNodup).1 o List.mem_cons_self
    exact (List.nodup_cons.1 hnd).1 (List.mem_singleton.1 hm ▸ List.mem_cons_self)
  have hcur : (s.vmm.freePage o.stack).currentDirectory = s.vmm.currentDirectory := rfl
  unfold Sched.freeTask
  rw [if_neg hb.ne_zero]
  simp only [hpages, hesp, UInt32.add_sub_cancel]
  rw [if_pos hstack]
  simp only [hword, hcur]
  split at hdir
  · next hne =>
    rw [if_pos hne, hdir]
    rfl
  · next hne =>
    rw [if_neg hne]
    cases hdir
    rfl

/-- The same, where the directory is not the current one. -/
theorem Core.freeTask_plain (h : Core s.vmm (o :: M) xs) (hok : TaskOk s o) (hmaps : o.maps = [])
    (hidle : o.pcb ≠ s.idleTask) (hstack : o.stack + 4096 ≠ 0)
    (hpd : s.get o.pcb .pageDirectory = pd) (hne : pd ≠ 0 ∧ pd ≠ s.vmm.currentDirectory) :
    s.freeTask o.pcb =
      ((o.stack :: ((s.vmm.freePage o.stack).vmmDestroyDirectory pd).1) ++ [o.pcb],
        { s with vmm := ((s.vmm.freePage o.stack).vmmDestroyDirectory pd).2.freePage o.pcb }) :=
  h.freeTask_eq hok hmaps hidle hstack hpd (if_pos hne)

/-- And where it is: the task gives back its two pages. -/
theorem Core.freeTask_current (h : Core s.vmm (o :: M) xs) (hok : TaskOk s o) (hmaps : o.maps = [])
    (hidle : o.pcb ≠ s.idleTask) (hstack : o.stack + 4096 ≠ 0)
    (hpd : s.get o.pcb .pageDirectory = s.vmm.currentDirectory) :
    s.freeTask o.pcb =
      ([o.stack, o.pcb], { s with vmm := [o.stack, o.pcb].foldl Vmm.freePage s.vmm }) :=
  h.freeTask_eq hok hmaps hidle hstack hpd (if_neg fun hne => hne.2 rfl)

/-- Without zombies there is nothing to reap. -/
theorem Turn.reapsOwn (h : Turn endAddr k ok e s L l c r [] xs) : s.ReapsOwn := fun _ _ _ hz =>
  absurd (h.inv.zombie_iff.1 hz) List.not_mem_nil

/-- No directory has a table of the kernel's behind the bound of the scan. -/
theorem Turn.unshared (h : Turn endAddr k ok e s L l c r zs xs) (d : UInt32) : s.vmm.Unshared d :=
  fun i _ hge _ hk => by
    rw [h.scan i hge] at hk
    cases hk

/-- A zombie that is a user task is reapable. -/
theorem Turn.reapsOwn_user (h : Turn endAddr k ok e s L l c r [(o.pcb, d)] xs) (ho : o ∈ L)
    (hd : o.dir = some d) : s.ReapsOwn := by
  intro _ _ z hz
  obtain rfl := List.mem_singleton.1 (h.inv.zombie_iff.1 hz)
  refine .inr ⟨?_, h.unshared _⟩
  rw [Sched.isUserTask, (h.inv.tasks.ok o ho).user, hd]
  simp

/-- A task that has exited reaps nothing. -/
theorem SchedInv.reapsOwn_exit {ts zs : List UInt32} (h : SchedInv s L ts zs xs) :
    s.markTerminated.ReapsOwn := by
  intro hs
  obtain ⟨-, heq⟩ := h.markTerminated
  rw [heq] at hs
  change (s.set s.currentTask .state TaskState.terminated.code).hasState s.currentTask _ = _ at hs
  rw [hasState_iff.2 (get_set_self ..)] at hs
  cases hs

theorem Turn.reapsOwn_exit (h : Turn endAddr k ok e s L l c r zs xs) : s.markTerminated.ReapsOwn :=
  h.inv.reapsOwn_exit

/-- The free pages behind `free_task` without user pages. -/
theorem Core.freePlain {v : Vmm} (h : Core v (o :: M) xs) (hd : o.dir = some d) (hu : v.Unshared d)
    (hlt : ∀ p ∈ [o.pcb, o.stack, d], addrToIndex p < v.pmm.totalPages) :
    ∃ ys, (((v.freePage o.stack).vmmDestroyDirectory d).2.freePage o.pcb).pmm.Inv
        (addrToIndex o.pcb :: addrToIndex d :: ys) ∧
      Vmm.FreesMore (addrToIndex o.stack :: xs) ys := by
  have hmem := mem_dirs (L := o :: M) List.mem_cons_self hd
  have hb := h.pcb List.mem_cons_self
  have hk := h.stack List.mem_cons_self
  -- the stack
  have he : v.Evolves (dirs (o :: M)) xs (v.freePage o.stack) (dirs (o :: M))
      (addrToIndex o.stack :: xs) [o.stack] :=
    h.inv.evolves_frees (show ∀ p ∈ [o.stack], _ from by simpa using hk) (List.nodup_singleton _)
      fun p hp => hlt p (by simp [List.mem_singleton.1 hp])
  have hne : o.pcb ∉ [o.stack] := fun hm => by
    have hnd := (List.nodup_flatMap.1 h.heldNodup).1 o List.mem_cons_self
    exact (List.nodup_cons.1 hnd).1 (List.mem_singleton.1 hm ▸ List.mem_cons_self)
  have hoff : ∀ d' ∈ v.kernelPageDirectory :: dirs (o :: M), d' ∉ [o.stack] := fun d' hd' hm =>
    hk.notDir (List.mem_singleton.1 hm ▸ hd')
  have hu' := unshared_of_keeps he.keeps
    ⟨(h.inv.dir d (List.mem_cons_of_mem _ hmem)).2, hoff d (List.mem_cons_of_mem _ hmem)⟩
    ⟨(h.inv.dir _ List.mem_cons_self).2, hoff _ List.mem_cons_self⟩ hu
  -- the directory
  obtain ⟨ys, hinv, hkeep, hexact, -⟩ :=
    he.inv.vmmDestroyDirectory hmem hu' (dirs_subset_cons o M) (h.head_not_dir hd)
  obtain ⟨zs, he', -⟩ := he.inv.evolves_destroy hmem hu' (dirs_subset_cons o M) (h.head_not_dir hd)
  obtain rfl := he'.inv.pmm.unique hinv.pmm
  obtain ⟨us, rfl, hmore⟩ := hexact (by rw [he.keeps.boot.2.1.2]; exact hlt d (by simp))
  -- the `task_t`
  have hfresh := he'.fresh o.pcb (he.fresh o.pcb hb hne) fun hm => ?_
  · obtain ⟨ys, hinv'', -, -, hys⟩ := hinv.freePage hfresh
    obtain rfl := hys (by
      rw [hkeep.boot.2.1.2, he.keeps.boot.2.1.2]
      exact hlt o.pcb (by simp))
    exact ⟨us, hinv''.pmm, hmore⟩
  · have hnot := he.fresh o.pcb hb hne
    rw [he.inv.mem_vmmDestroyDirectory (List.mem_cons_of_mem _ hmem)] at hm
    rcases hm with e | ⟨i, hi⟩
    · exact hnot.notDir (List.mem_cons_of_mem _ (e ▸ hmem))
    · exact hnot.notTable d (List.mem_cons_of_mem _ hmem) i (Vmm.ownTable_eq_some.1 hi).1

/-- `reap_zombies` with one zombie, whose directory is not the current one. -/
theorem Turn.reapOne_eq (hl : Vmm.ImageLayout endAddr k) (hle : ∀ s, ok s → s.ReapsOwn)
    (h : Turn endAddr k ok e s L l c r [(o.pcb, d)] xs) (ho : o ∈ L) (hmaps : o.maps = [])
    (hne : d ≠ c.2) :
    Sched.reapZombies 1 s =
      some ([(o.pcb, (o.stack :: ((s.vmm.freePage o.stack).vmmDestroyDirectory d).1) ++ [o.pcb])],
        { s with
          zombieList := 0
          vmm := ((s.vmm.freePage o.stack).vmmDestroyDirectory d).2.freePage o.pcb }) := by
  obtain ⟨hpd, hd0⟩ := h.dir (o.pcb, d) (by simp)
  obtain ⟨hz, hnext⟩ : s.zombieList = o.pcb ∧ s.get o.pcb .next = 0 := h.inv.tasks.zombies
  have hz0 : s.zombieList ≠ 0 := hz ▸ (h.inv.core.pcb ho).ne_zero
  have hidle : o.pcb ≠ s.idleTask := fun heq => by
    have hnd := h.inv.nodup
    have hmem := h.inv.tasks.idle
    rw [← heq] at hmem
    exact (List.nodup_append.1 hnd).2.2 _ hmem _ (by simp) rfl
  have hok : TaskOk { s with zombieList := 0 } o :=
    (h.inv.tasks.ok o ho).congr rfl fun _ _ _ _ => rfl
  have hfree := Core.freeTask_plain (s := { s with zombieList := 0 })
    (h.inv.core.perm (h.inv.core.filter_perm ho)) hok hmaps hidle
    ((h.reach.settled hl hle).stack o ho) hpd ⟨hd0, h.current ▸ hne⟩
  unfold Sched.reapZombies
  rw [if_neg hz0, hz]
  simp only [hnext, hfree]
  rfl

/-- A call that reaps a zombie under another directory than the zombie's frees that one. -/
theorem Turn.frees_directory (hl : Vmm.ImageLayout endAddr k) (hle : ∀ s, ok s → s.ReapsOwn)
    (h : Turn endAddr k ok e s L l c r [(o.pcb, d)] xs) (ho : o ∈ L) (hmaps : o.maps = [])
    (hne : d ≠ c.2) (hrot : r ++ l = u :: rest) : ∃ freed s',
      s.schedule 1 0 = some ⟨[(o.pcb, freed)], true, s'⟩ ∧ d ∈ freed := by
  have hreap := h.reapOne_eq hl hle ho hmaps hne
  refine ⟨_, _, h.schedule_eq hrot hreap 0, ?_⟩
  unfold Vmm.vmmDestroyDirectory
  rw [if_neg (h.dir (o.pcb, d) (by simp)).2]
  simp

/-- The zombie is freed and the rest of the call is a switch. -/
theorem Turn.reap (hl : Vmm.ImageLayout endAddr k) (hle : ∀ s, ok s → s.ReapsOwn)
    (h : Turn endAddr k ok e s L l c r [(o.pcb, d)] xs) (hok : ok s)
    (ho : o ∈ L) (hd : o.dir = some d) (hmaps : o.maps = []) (hne : d ≠ c.2)
    (hrot : r ++ l = u :: rest) (hts : l ++ c :: r = l' ++ u :: r') :
    ∃ s' ys, Turn endAddr k ok e s' (L.filter fun o' => o'.pcb ∉ [o.pcb]) l' u r' []
        (addrToIndex o.pcb :: addrToIndex d :: ys) ∧
      Vmm.FreesMore (addrToIndex o.stack :: xs) ys := by
  have hz : ∀ z ∈ [o.pcb], s.Reapable z := fun z hm =>
    hle s hok (by rw [h.task]; exact not_terminated h.running)
      (by rw [h.findNext hrot]; rfl) z (h.inv.zombie_iff.2 hm)
  have hu : u.1 ∈ (l ++ c :: r).map Prod.fst := h.inv.tasks.findNext (h.findNext hrot)
  have hcore := h.inv.core.perm (h.inv.core.filter_perm ho)
  have hbound : ∀ p ∈ [o.pcb, o.stack, d], addrToIndex p < s.vmm.pmm.totalPages := by
    intro p hp
    refine h.bound p (List.mem_append.2 ?_)
    have hcase : p = o.pcb ∨ p = o.stack ∨ p = d := by simpa using hp
    rcases hcase with rfl | rfl | rfl
    · exact .inl (pcb_mem_held ho)
    · exact .inl (stack_mem_held ho)
    · exact .inr (mem_dirs ho hd)
  obtain ⟨us, hus, hmore⟩ := hcore.freePlain hd (h.unshared d) hbound
  obtain ⟨log, w, ys, hrun, hreap, hleft, hinv, -⟩ :=
    h.inv.reapZombies hz (show [o.pcb].length ≤ 1 from Nat.le_refl 1)
  have hw : w = ((s.vmm.freePage o.stack).vmmDestroyDirectory d).2.freePage o.pcb := by
    have heq := h.reapOne_eq hl hle ho hmaps hne
    rw [hrun] at heq
    exact congrArg Sched.vmm (Prod.mk.inj (Option.some.inj heq)).2
  rw [← hw] at hus
  obtain rfl := hinv.core.inv.pmm.unique hus
  have hreach : Reachable endAddr k ok (Sched.enter { s with zombieList := 0, vmm := w } 0 u.1)
      (L.filter fun o' => o'.pcb ∉ [o.pcb]) := by
    have hcall := Reachable.schedule h.reach hok (h.schedule_eq hrot hrun 0)
    simp only [hreap.tasks] at hcall
    exact hcall
  -- the tasks of the list keep their words
  have hget : ∀ t ∈ l ++ c :: r, ∀ f,
      Sched.get { s with zombieList := 0, vmm := w } t.1 f = s.get t.1 f := by
    intro t ht f
    obtain ⟨o', ho', he⟩ := hinv.entry (List.mem_append_left _ (List.mem_map_of_mem ht))
    rw [← he]
    exact hleft.held _ (pcb_mem_held ho') _ (Field.index_lt f)
  have hvars : ∃ s₁ : Sched, s₁ = { s with zombieList := 0, vmm := w } ∧
      s₁.currentTask = s.currentTask ∧ s₁.idleTask = s.idleTask ∧
      SameTables (dirs (L.filter fun o' => o'.pcb ∉ [o.pcb])) s.vmm s₁.vmm :=
    ⟨_, rfl, rfl, rfl, hleft.sameTables⟩
  obtain ⟨s₁, hs₁, hcur, hidle, htables⟩ := hvars
  rw [← hs₁] at hinv hreach
  simp only [← hs₁] at hget
  obtain ⟨hinv', hsw, -⟩ := hinv.enter 0 hu
  rw [List.append_nil] at hsw
  rw [hts] at hinv' hsw
  generalize s₁.enter 0 u.1 = s' at *
  have hsub : l' ++ u :: r' ⊆ l ++ c :: r := by
    rw [hts]
    exact fun _ hm => hm
  refine ⟨s', us, h.switched List.filter_sublist hsub (by simp) (fun t ht => ?_) hcur hidle htables
    hsw (by simp) hinv' (fun i hi => ?_) hreach, hmore⟩
  · rw [List.append_nil] at ht
    exact ⟨hget t (hsub ht) _, fun _ _ => hget t (hsub ht) _⟩
  · have hfresh := hcore.pcb List.mem_cons_self
    have hdir := h.inv.core.inv.dir d (List.mem_cons_of_mem _ (mem_dirs ho hd))
    rcases List.mem_cons.1 hi with rfl | hi
    · rw [indexToAddr_addrToIndex hfresh.inUse.aligned]
      exact hfresh.ne_zero
    rcases List.mem_cons.1 hi with rfl | hi
    · rw [indexToAddr_addrToIndex hdir.2.aligned]
      exact hdir.1
    rcases hmore.room i hi with hi | hi
    · rcases List.mem_cons.1 hi with rfl | hi
      · rw [indexToAddr_addrToIndex (hcore.stack List.mem_cons_self).inUse.aligned]
        exact (hcore.stack List.mem_cons_self).ne_zero
      · exact h.room i hi
    · exact hi

theorem Turn.write (h : Turn endAddr k ok e s L l c r zs xs) (ho : o ∈ L) {p : UInt32} {m : Mem}
    (hp : p ∈ o.stack :: o.maps.map Prod.snd)
    (hm : ∀ c, addrToIndex c ≠ addrToIndex p → m c = s.vmm.mem c) :
    Turn endAddr k ok e { s with vmm := s.vmm.setMem m } L l c r zs xs := by
  obtain ⟨hinv, hget⟩ := h.inv.write ho hp hm
  have hsame : ∀ t ∈ (l ++ c :: r) ++ zs, ∀ f,
      Sched.get { s with vmm := s.vmm.setMem m } t.1 f = s.get t.1 f := fun t ht f =>
    hget t.1 (Turn.fst_mem ht) f
  have htables : SameTables (dirs L) s.vmm (s.vmm.setMem m) := by
    obtain ⟨-, he⟩ := h.inv.core.write (mem_held ho (List.mem_cons_of_mem _ hp)) hm
    refine h.inv.core.sameTables he.keeps fun d hd hk => ?_
    exact (h.inv.core.fresh p (mem_held ho (List.mem_cons_of_mem _ hp))).notDir
      (List.mem_singleton.1 hk ▸ hd)
  refine ⟨h.reach.write ho hp hm, hinv, h.idle, h.task, ?_, fun t ht => ?_, fun t ht => ?_,
    h.current, h.kernel, h.room, h.bound, htables.scan h.scan⟩
  · rw [hsame c (by simp)]
    exact h.running
  · rw [hsame t (by grind)]
    exact h.ready t ht
  · rw [hsame t ht]
    exact h.dir t ht

end

/-! ## The run -/

/-- The task `y` is about to reap the kernel task `b`, whose directory `d` is the page of its own
stack. -/
structure Standing (s : Sched) (L : List Owned) (t y x : UInt32 × UInt32)
    (r : List (UInt32 × UInt32)) (b : Owned) (d : UInt32) (xs : List UInt32) : Prop where
  turn : ∃ e, Turn 0x102000 0x101000 Sched.ReapsOwn e s L [t] y (x :: r) [(b.pcb, d)] xs
  zombie : b ∈ L
  kernel : b.dir = none
  maps : b.maps = []
  other : d ≠ y.2
  stack : ∃ o ∈ L, o.pcb = y.1 ∧ o.stack = d

/-- And the task has written there what reads as one entry, for the page of the task in front. -/
structure Astray (s : Sched) (L : List Owned) (t y x : UInt32 × UInt32)
    (r : List (UInt32 × UInt32)) (b : Owned) (d : UInt32) (xs : List UInt32) : Prop extends
    Standing s L t y x r b d xs where
  first : entryAt s.vmm.mem d 0 = mkEntry t.1 0
  rest : ∀ i, i ≠ 0 → i.toNat < 1024 → entryAt s.vmm.mem d i = 0

/-- A kernel task of the idle task's has exited, and a user task is about to reap it. -/
theorem small_kernelZombie : ∃ s L b c o xs,
    Turn 0x102000 0x101000 Sched.ReapsOwn b.1 s L [] c [b] [(o.pcb, 0x101000)] xs ∧ o ∈ L ∧
      o.dir = none ∧ o.maps = [] ∧ 0x101000 ≠ c.2 := by
  obtain ⟨s₀, b, q, xs, h₀, hlen⟩ := small_turn Sched.ReapsOwn
  obtain ⟨x₁, x₂, x₃, x₄, x₅, xs, rfl⟩ : ∃ x₁ x₂ x₃ x₄ x₅ us,
      xs = x₁ :: x₂ :: x₃ :: x₄ :: x₅ :: us := by
    match xs, hlen with
    | x₁ :: x₂ :: x₃ :: x₄ :: x₅ :: us, _ => exact ⟨x₁, x₂, x₃, x₄, x₅, us, rfl⟩
  have hone : (1 : UInt32) ≠ 0 := by decide
  obtain ⟨s₁, h₁⟩ := h₀.createUser hone hone
  have hne : indexToAddr x₃ ≠ 0x101000 := fun e => by
    refine h₁.inv.core.inv.kernel ?_
    rw [h₁.kernel, ← e]
    simp [dirs]
  obtain ⟨s₂, h₂⟩ := h₁.create hone
  generalize indexToAddr x₁ = p, indexToAddr x₃ = d, indexToAddr x₄ = k at *
  obtain ⟨s₃, h₃, -⟩ := h₂.switch h₂.reapsOwn rfl
    (show _ = [] ++ (k, 0x101000) :: [(p, d), (b, 0x101000)] from rfl)
  have hidle : k ≠ b := Ne.symm (h₃.ne (t := (b, 0x101000)) (by simp))
  obtain ⟨-, s₄, -, h₄, -⟩ := h₃.exit hidle h₃.reapsOwn_exit rfl
    (show _ = [] ++ (p, d) :: [(b, 0x101000)] from rfl)
  exact ⟨s₄, _, (b, 0x101000), (p, d), ⟨k, indexToAddr x₅, none, []⟩, xs, h₄, by simp, rfl, rfl,
    hne.symm⟩

/-- A user task has left a kernel task `c` behind, which keeps its directory, and a kernel task of
the idle task's is about to run. -/
theorem small_zombie : ∃ s L b c o d y xs,
    Turn 0x102000 0x101000 Sched.ReapsOwn b.1 s L [y, c] b [] [(o.pcb, d)] xs ∧ xs.length = 3 ∧
      b.2 = 0x101000 ∧ y.2 = 0x101000 ∧ c.2 = d ∧ d ≠ 0x101000 ∧ o ∈ L ∧ o.dir = some d ∧
      o.maps = [] := by
  obtain ⟨s₀, b, q, xs, h₀, hlen⟩ := small_turn Sched.ReapsOwn
  obtain ⟨x₁, x₂, x₃, x₄, x₅, x₆, x₇, xs, rfl⟩ := seven_pages (show 7 ≤ xs.length by omega)
  have hone : (1 : UInt32) ≠ 0 := by decide
  obtain ⟨s₁, h₁⟩ := h₀.createUser hone hone
  have hne : indexToAddr x₃ ≠ 0x101000 := fun e => by
    refine h₁.inv.core.inv.kernel ?_
    rw [h₁.kernel, ← e]
    simp [dirs]
  generalize indexToAddr x₁ = p, indexToAddr x₂ = k, indexToAddr x₃ = d at *
  obtain ⟨s₂, h₂, -⟩ := h₁.switch h₁.reapsOwn rfl
    (show _ = [] ++ (p, d) :: [(b, 0x101000)] from rfl)
  obtain ⟨s₃, h₃⟩ := h₂.create hone
  have hidle : p ≠ b := Ne.symm (h₃.ne (t := (b, 0x101000)) (by simp))
  obtain ⟨-, s₄, -, h₄, -⟩ := h₃.exit hidle h₃.reapsOwn_exit rfl
    (show _ = [(indexToAddr x₄, d)] ++ (b, 0x101000) :: [] from rfl)
  obtain ⟨s₅, h₅⟩ := h₄.create hone
  refine ⟨s₅, _, (b, 0x101000), (indexToAddr x₄, d), ⟨p, k, some d, []⟩, d,
    (indexToAddr x₆, 0x101000), xs, h₅, ?_, rfl, rfl, rfl, hne, by simp, rfl, rfl⟩
  simpa using hlen

/-- The next task finds the pages of the user task free: the directory becomes its stack. -/
theorem small_secondLife : ∃ s L b c o y ys,
    Turn 0x102000 0x101000 Sched.ReapsOwn b.1 s L [(o.pcb, 0x101000)] y [c, b] [] ys ∧
      4 ≤ ys.length ∧ y.2 = 0x101000 ∧ c.2 ≠ 0x101000 ∧ o ∈ L ∧ o.stack = c.2 := by
  obtain ⟨s₀, L, b, c, o, d, y, xs, h₀, hlen, hb, hy, hc, hne, ho, hd, hmaps⟩ := small_zombie
  have ha := (h₀.inv.core.inv.dir d (List.mem_cons_of_mem _ (mem_dirs ho hd))).2.aligned
  obtain ⟨s₁, us, h₁, hmore⟩ := h₀.reap Vmm.smallLayout (fun _ h => h) (h₀.reapsOwn_user ho hd) ho
    hd hmaps (hb.symm ▸ hne) rfl (show _ = [] ++ y :: [c, b] from rfl)
  obtain ⟨s₂, h₂⟩ := h₁.create (show (1 : UInt32) ≠ 0 by decide)
  rw [indexToAddr_addrToIndex ha, hy] at h₂
  refine ⟨s₂, _, b, c, _, y, us, h₂, ?_, hy, hc.symm ▸ hne, List.mem_cons_self, hc.symm⟩
  have := hmore.suffix.length_le
  simp only [List.length_cons, hlen] at this
  exact this

/-- The task left behind makes two more, and the first of them exits. -/
theorem small_standing : ∃ s L t y x r b d xs, Standing s L t y x r b d xs := by
  obtain ⟨s₀, L, b, c, o, y, us, h₀, hlen, hy, hc, ho, hstack⟩ := small_secondLife
  obtain ⟨x₁, x₂, x₃, x₄, us, rfl⟩ : ∃ x₁ x₂ x₃ x₄ xs, us = x₁ :: x₂ :: x₃ :: x₄ :: xs := by
    match us, hlen with
    | x₁ :: x₂ :: x₃ :: x₄ :: xs, _ => exact ⟨x₁, x₂, x₃, x₄, xs, rfl⟩
  have hone : (1 : UInt32) ≠ 0 := by decide
  obtain ⟨s₁, h₁, -⟩ := h₀.switch h₀.reapsOwn rfl
    (show _ = [(o.pcb, 0x101000), y] ++ c :: [b] from rfl)
  obtain ⟨s₂, h₂⟩ := h₁.create hone
  obtain ⟨s₃, h₃⟩ := h₂.create hone
  generalize indexToAddr x₁ = z, indexToAddr x₂ = q, indexToAddr x₃ = t at *
  -- round to the one that exits
  obtain ⟨s₄, h₄, -⟩ := h₃.switch h₃.reapsOwn rfl
    (show _ = [(t, c.2), (z, c.2), (o.pcb, 0x101000), y, c] ++ b :: [] from rfl)
  obtain ⟨s₅, h₅, -⟩ := h₄.switch h₄.reapsOwn rfl
    (show _ = [] ++ (t, c.2) :: [(z, c.2), (o.pcb, 0x101000), y, c, b] from rfl)
  obtain ⟨s₆, h₆, -⟩ := h₅.switch h₅.reapsOwn rfl
    (show _ = [(t, c.2)] ++ (z, c.2) :: [(o.pcb, 0x101000), y, c, b] from rfl)
  have hz : (z, c.2).1 ≠ b.1 := fun e => h₆.ne (t := b) (by simp) e.symm
  obtain ⟨-, s₇, -, h₇, -⟩ := h₆.exit hz h₆.reapsOwn_exit rfl
    (show _ = [(t, c.2)] ++ (o.pcb, 0x101000) :: [y, c, b] from rfl)
  exact ⟨s₇, _, (t, c.2), (o.pcb, 0x101000), y, [c, b], ⟨z, q, none, []⟩, c.2, us, ⟨_, h₇⟩, by simp,
    rfl, rfl, hc, o, by simp [ho], rfl, hstack⟩

/-- The task whose stack is the directory writes an entry there. -/
theorem small_astray : ∃ s L t y x r b d xs, Astray s L t y x r b d xs := by
  obtain ⟨s, L, t, y, x, r, b, d, xs, ⟨e, h⟩, hb, hkernel, hmaps, hother, o, ho, hpcb, hstack⟩ :=
    small_standing
  have ha := (h.inv.core.stack ho).inUse.aligned
  rw [hstack] at ha
  have h' := h.write ho (p := d)
    (m := storeEntry (zeroMemory s.vmm.mem d 4096) d 0 (mkEntry t.1 0)) (by simp [hstack])
    fun a hne => by
      rw [storeEntry_apply ha (by decide) hne, zeroMemory_apply_other ha hne]
  refine ⟨_, L, t, y, x, r, b, d, xs, ⟨⟨e, h'⟩, hb, hkernel, hmaps, hother, o, ho, hpcb, hstack⟩,
    entryAt_storeEntry_self .., fun i hi hlt => ?_⟩
  rw [Vmm.setMem_mem, entryAt_storeEntry ha ha (by decide) hlt, if_neg fun h => hi h.2,
    entryAt_zeroMemory ha hlt]

section

variable {s : Sched} {L : List Owned} {t y x : UInt32 × UInt32} {r : List (UInt32 × UInt32)}
  {b : Owned} {d : UInt32} {xs : List UInt32}

/-- The call frees the page of the directory. -/
theorem Standing.call (h : Standing s L t y x r b d xs) : ∃ freed s',
    s.schedule 1 0 = some ⟨[(b.pcb, freed)], true, s'⟩ ∧ d ∈ freed := by
  obtain ⟨e, hturn⟩ := h.turn
  exact hturn.frees_directory Vmm.smallLayout (fun _ h => h) h.zombie h.maps h.other rfl

/-- Pages of two tasks. -/
theorem Core.held_ne {v : Vmm} {o o' : Owned} {p p' : UInt32} (h : Core v L xs) (ho : o ∈ L)
    (ho' : o' ∈ L) (hne : o.pcb ≠ o'.pcb) (hp : p ∈ o.held) (hp' : p' ∈ o'.held) : p ≠ p' := by
  rintro rfl
  exact hne (congrArg Owned.pcb (h.eq_of_held ho ho' hp hp'))

theorem Core.pcb_ne_stack {v : Vmm} {o : Owned} (h : Core v L xs) (ho : o ∈ L) :
    o.pcb ≠ o.stack := h.pcb_ne_page ho List.mem_cons_self ho

/-- The pages that the call frees are none of them free. -/
theorem Standing.pages (h : Standing s L t y x r b d xs) :
    (∀ p ∈ [b.stack, t.1, d, b.pcb], p ∈ held L) ∧ [b.stack, t.1, d, b.pcb].Nodup ∧
      x.1 ∉ [b.stack, t.1, d, b.pcb] ∧ y.1 ∉ [b.stack, t.1, d, b.pcb] := by
  obtain ⟨e, hturn⟩ := h.turn
  obtain ⟨o, ho, hpcb, hstack⟩ := h.stack
  have hcore := hturn.inv.core
  have hb := h.zombie
  have hnd := hturn.inv.nodup
  obtain ⟨ot, hot, het⟩ := hturn.inv.entry (t := t.1) (by simp)
  obtain ⟨ox, hox, hex⟩ := hturn.inv.entry (t := x.1) (by simp)
  simp only [List.map_cons, List.map_nil, List.cons_append, List.nil_append, List.nodup_cons,
    List.mem_cons, List.mem_append, not_or, ← het, ← hex, ← hpcb] at hnd
  have hs : ∀ o : Owned, o.stack ∈ o.held := fun o => by simp [Owned.held]
  have hp : ∀ o : Owned, o.pcb ∈ o.held := fun o => List.mem_cons_self
  obtain ⟨⟨hty, htx, -, htb, -⟩, ⟨hyx, -, hyb, -⟩, ⟨-, hxb, -⟩, -⟩ := hnd
  rw [← het, ← hex, ← hpcb, ← hstack]
  have hbt := hcore.held_ne hb hot (Ne.symm htb) (hs b) (hp ot)
  have hby := hcore.held_ne hb ho (Ne.symm hyb) (hs b) (hp o)
  have hbs := hcore.held_ne hb ho (Ne.symm hyb) (hs b) (hs o)
  have hbx := hcore.held_ne hb hox (Ne.symm hxb) (hs b) (hp ox)
  have hts := hcore.held_ne hot ho hty (hp ot) (hs o)
  have hsb := hcore.held_ne ho hb hyb (hs o) (hp b)
  have hxs := hcore.held_ne hox ho (Ne.symm hyx) (hp ox) (hs o)
  have hbb := hcore.pcb_ne_stack hb
  have hys := hcore.pcb_ne_stack ho
  refine ⟨fun p hm => ?_, ?_, ?_, ?_⟩
  · have hcase : p = b.stack ∨ p = ot.pcb ∨ p = o.stack ∨ p = b.pcb := by simpa using hm
    rcases hcase with rfl | rfl | rfl | rfl
    · exact stack_mem_held hb
    · exact pcb_mem_held hot
    · exact stack_mem_held ho
    · exact pcb_mem_held hb
  · simp [hbt, hbs, Ne.symm hbb, hts, htb, hsb]
  · simp [Ne.symm hbx, Ne.symm htx, hxs, hxb]
  · simp [Ne.symm hby, Ne.symm hty, hys, hyb]

/-- What the call frees: the stack, the page the entry names, the directory and the `task_t`. -/
theorem Astray.freed (h : Astray s L t y x r b d xs) :
    (s.vmm.freePage b.stack).vmmDestroyDirectory d =
      ([t.1, d], ((s.vmm.freePage b.stack).freePage t.1).freePage d) := by
  obtain ⟨hheld, hnd, -⟩ := h.pages
  obtain ⟨e, hturn⟩ := h.turn
  have hcore := hturn.inv.core
  have hfresh : ∀ p ∈ [b.stack, t.1, d, b.pcb], s.vmm.Fresh (dirs L) xs p := fun p hp =>
    hcore.fresh p (hheld p hp)
  obtain ⟨ys, he, -⟩ := hcore.inv.evolves_free (hfresh b.stack (by simp))
  simp only [List.nodup_cons, List.mem_cons, not_or] at hnd
  have ht := he.fresh t.1 (hfresh t.1 (by simp)) (by simpa using Ne.symm hnd.1.1)
  have hd := he.fresh d (hfresh d (by simp)) (by simpa using Ne.symm hnd.1.2.1)
  have hentry : ∀ i, i.toNat < 1024 →
      entryAt (s.vmm.freePage b.stack).mem d i = entryAt s.vmm.mem d i := fun i hi =>
    he.keeps.entry d (hfresh d (by simp)).inUse (by simpa using Ne.symm hnd.1.2.1) i hi
  obtain ⟨zs, he', -⟩ := he.inv.evolves_free ht
  refine Vmm.vmmDestroyDirectory_one hd.ne_zero ht.ne_zero ?_ ?_ fun i hi hlt => ?_
  · rw [hentry 0 (by decide), h.first, isPresent_mkEntry, frameOf_mkEntry,
      frameOf_eq_self ht.inUse.aligned]
    exact ⟨rfl, rfl⟩
  · rw [← Bool.not_eq_true, Vmm.isKernelTable_iff]
    rintro ⟨i, -, hi⟩
    exact ht.notTable _ List.mem_cons_self _ hi
  · rw [he'.keeps.entry d hd.inUse (by simpa using Ne.symm hnd.2.1.1) i hlt, hentry i hlt,
      h.rest i hi hlt]

/-- The call reaps the zombie and goes to `x`. -/
theorem Astray.schedule (h : Astray s L t y x r b d xs) :
    let w := [b.stack, t.1, d, b.pcb].foldl Vmm.freePage s.vmm
    s.schedule 1 0 = some ⟨[(b.pcb, [b.stack, t.1, d, b.pcb])], true,
        Sched.enter { s with zombieList := 0, vmm := w } 0 x.1⟩ ∧
      Core w [] (([b.stack, t.1, d, b.pcb].map addrToIndex).reverse ++ xs) ∧
      s.vmm.Evolves (dirs L) xs w [] (([b.stack, t.1, d, b.pcb].map addrToIndex).reverse ++ xs)
        [b.stack, t.1, d, b.pcb] := by
  intro w
  obtain ⟨hheld, hnd, -⟩ := h.pages
  obtain ⟨e, hturn⟩ := h.turn
  have hcore := hturn.inv.core
  have hreap := hturn.reapOne_eq Vmm.smallLayout (fun _ h => h) h.zombie h.maps h.other
  rw [h.freed] at hreap
  have he := hcore.inv.evolves_frees (fun p hp => hcore.fresh p (hheld p hp)) hnd fun p hp =>
    hturn.bound p (List.mem_append_left _ (hheld p hp))
  have he' := he.trans (he.inv.evolves_forget (List.nil_subset _))
  rw [List.append_nil] at he'
  refine ⟨hturn.schedule_eq rfl hreap 0, hcore.of_evolves (List.nil_sublist L) he'
    (fun p hp => absurd hp List.not_mem_nil) (fun d' hd' hm => ?_)
    fun _ hd' => absurd hd' List.not_mem_nil, he'⟩
  exact (hcore.fresh d' (hheld d' hm)).notDir (List.cons_subset_cons _ (List.nil_subset _) hd')

/-- The switch to a task, as far as the memory managers go: both tasks' words are on pages nothing
points to. -/
theorem Core.enter (h : Core s.vmm L xs) (hp : s.vmm.Fresh (dirs L) xs s.currentTask) {n : UInt32}
    (hn : s.vmm.Fresh (dirs L) xs n) (sp : UInt32) :
    Core (s.enter sp n).vmm L xs ∧ (s.enter sp n).get n .state = TaskState.running.code ∧
      (s.enter sp n).vmm.pmm.InUse xs n ∧ (s.enter sp n).taskList = s.taskList := by
  obtain ⟨esp0, -, heq⟩ := enter_eq s sp n
  have hpa := hp.inUse.aligned
  have hna := hn.inUse.aligned
  have hstore : ∀ (s₁ : Sched) (t : UInt32) (f : Field) (z : UInt32), Core s₁.vmm L xs →
      s₁.vmm.Fresh (dirs L) xs t → Core (s₁.set t f z).vmm L xs ∧
      (∀ p, s₁.vmm.Fresh (dirs L) xs p → (s₁.set t f z).vmm.Fresh (dirs L) xs p) := by
    intro s₁ t f z hc ht
    obtain ⟨hc', he, ht'⟩ := hc.writeFresh ht fun _ hne =>
      storeEntry_apply ht.inUse.aligned f.index_lt hne
    refine ⟨hc', fun p hp => ?_⟩
    by_cases hpt : p = t
    · exact hpt ▸ ht'
    · exact he.fresh p hp (by simpa using hpt)
  obtain ⟨hc₁, hf₁⟩ := hstore s s.currentTask .state TaskState.ready.code h hp
  obtain ⟨hc₂, hf₂⟩ := hstore _ n .state TaskState.running.code hc₁ (hf₁ n hn)
  have hrun := get_set_self (s.set s.currentTask .state TaskState.ready.code) n .state
    TaskState.running.code
  have hp₂ := hf₂ _ (hf₁ _ hp)
  have hn₂ := hf₂ _ (hf₁ _ hn)
  have hlist₂ : ((s.set s.currentTask .state TaskState.ready.code).set n .state
      TaskState.running.code).taskList = s.taskList := rfl
  rw [heq]
  generalize (s.set s.currentTask .state TaskState.ready.code).set n .state
    TaskState.running.code = s₂ at *
  have hvmm := switchDirectory_vmm { s₂ with esp0 := esp0, currentTask := n } n
  have hget := switchDirectory_get { s₂ with esp0 := esp0, currentTask := n } n
  have hlist₃ := (switchDirectory_vars { s₂ with esp0 := esp0, currentTask := n } n).1
  generalize Sched.switchDirectory { s₂ with esp0 := esp0, currentTask := n } n = s₃ at *
  have hc₃ : Core s₃.vmm L xs := by
    rw [hvmm]
    exact hc₂.setDirectory _
  have hfresh₃ : ∀ p, s₂.vmm.Fresh (dirs L) xs p → s₃.vmm.Fresh (dirs L) xs p := fun p hp => by
    rw [hvmm]
    exact ⟨hp.ne_zero, hp.inUse, hp.notDir, hp.notTable⟩
  have hrun₃ : s₃.get n .state = TaskState.running.code := (hget n .state).trans hrun
  have hlist : s₃.taskList = s.taskList := hlist₃.trans hlist₂
  split
  · exact ⟨hc₃, hrun₃, (hfresh₃ n hn₂).inUse, hlist⟩
  · obtain ⟨hc₄, hf₄⟩ := hstore s₃ s.currentTask .esp sp hc₃ (hfresh₃ _ hp₂)
    refine ⟨hc₄, ?_, (hf₄ n (hfresh₃ n hn₂)).inUse, hlist⟩
    rw [get_set_of_ne hpa hna (.inl (by simp)), hrun₃]

/-- Two tasks that follow each other are on no list that ends. -/
theorem not_linked {p q : UInt32} (hp : s.get p .next = q) (hq : s.get q .next = p) (hp0 : p ≠ 0)
    (hq0 : q ≠ 0) {ts : List UInt32} : ¬ s.Linked p ts := by
  rintro ⟨hts, h0⟩
  match ts, hts with
  | [], hts => exact hp0 hts
  | [a], ⟨ha, hts⟩ =>
    subst ha
    exact hq0 (hp.symm.trans hts)
  | a :: a' :: us, ⟨ha, ha', hus⟩ =>
    subst ha
    obtain rfl : q = a' := hp.symm.trans ha'
    have hrest : Follows (fun t => s.get t .next) p us 0 := by
      simp only [hq] at hus
      exact hus
    have hwhole : Follows (fun t => s.get t .next) p (p :: q :: us) 0 := ⟨rfl, hp, hus⟩
    have hlen := congrArg List.length (hwhole.unique hrest h0 fun hm => h0 (by simp [hm]))
    simp only [List.length_cons] at hlen
    omega

/-- Two tasks that are made then get pages of tasks that are still there, and the list runs in a
circle. -/
theorem Astray.circle (h : Astray s L t y x r b d xs) :
    ∃ s' L', Reachable 0x102000 0x101000 (fun _ => True) s' L' ∧
      s'.hasState s'.currentTask .running = true ∧ ∀ ts, ¬ s'.Linked s'.taskList ts := by
  obtain ⟨hcall, hcore, he⟩ := h.schedule
  obtain ⟨hheld, -, hx, hy⟩ := h.pages
  obtain ⟨e, hturn⟩ := h.turn
  have hcur := hturn.task
  have hlist : s.taskList = t.1 := hturn.inv.tasks.list.1
  have hreach := Reachable.schedule (hturn.reach.mono fun _ _ => trivial) trivial hcall
  have hfresh : ∀ u : UInt32 × UInt32, u ∈ [t] ++ y :: x :: r → s.vmm.Fresh (dirs L) xs u.1 :=
    fun u hu => hturn.inv.fresh (List.mem_append_left _ (List.mem_map_of_mem hu))
  have ht0 := (hfresh t (by simp)).ne_zero
  have hzero : ∀ p ∈ [b.stack, t.1, d, b.pcb], indexToAddr (addrToIndex p) = p ∧ p ≠ 0 :=
    fun p hp => ⟨indexToAddr_addrToIndex (hturn.inv.core.fresh p (hheld p hp)).inUse.aligned,
      (hturn.inv.core.fresh p (hheld p hp)).ne_zero⟩
  obtain ⟨hcore', hrun, huse, hlist'⟩ := Core.enter
    (s := { s with zombieList := 0, vmm := [b.stack, t.1, d, b.pcb].foldl Vmm.freePage s.vmm })
    hcore (he.fresh _ (hcur ▸ hfresh y (by simp)) (hcur ▸ hy)) (he.fresh _ (hfresh x (by simp)) hx) 0
  have hcur' := enter_current
    { s with zombieList := 0, vmm := [b.stack, t.1, d, b.pcb].foldl Vmm.freePage s.vmm } 0 x.1
  simp only at hreach
  generalize Sched.enter { s with
    zombieList := 0, vmm := [b.stack, t.1, d, b.pcb].foldl Vmm.freePage s.vmm } 0 x.1 = s₁ at *
  simp only [List.map_cons, List.map_nil, List.reverse_cons, List.reverse_nil, List.nil_append,
    List.cons_append] at hcore' huse
  have hone : (1 : UInt32) ≠ 0 := by decide
  -- the first task, on the page of the directory, which is the stack of `y`
  obtain ⟨hb, hb0⟩ := hzero b.pcb (by simp)
  obtain ⟨hd, hd0⟩ := hzero d (by simp)
  obtain ⟨ht, -⟩ := hzero t.1 (by simp)
  obtain ⟨hk, hk0⟩ := hzero b.stack (by simp)
  obtain ⟨hr₁, -, hc₁⟩ := hcore'.taskCreate_pages (hb.symm ▸ hb0) (hd.symm ▸ hd0) hone
  have hreach₁ := Reachable.create 1 hreach (by rw [hcur']; exact hasState_iff.2 hrun)
  have hrun₁ : (s₁.taskCreate 1).2.get x.1 .state = TaskState.running.code :=
    (hc₁.keeps.entry _ huse List.not_mem_nil _ (Field.index_lt _)).trans hrun
  have huse₁ := hc₁.keeps.inUse _ huse List.not_mem_nil
  have hcur₁ : (s₁.taskCreate 1).2.currentTask = x.1 := hc₁.old.current.trans hcur'
  have hnext₁ : (s₁.taskCreate 1).2.get b.pcb .next = t.1 := by
    have := hc₁.next
    rw [hb] at this
    exact this.trans (hlist'.trans hlist)
  have hlist₁ : (s₁.taskCreate 1).2.taskList = b.pcb := hc₁.list.trans hb
  rw [hb, hd] at hc₁
  generalize (s₁.taskCreate 1).2 = s₂ at *
  -- the second, on the page of the task in front
  obtain ⟨-, -, hc₂⟩ := hc₁.core.taskCreate_pages (ht.symm ▸ ht0) (hk.symm ▸ hk0) hone
  rw [ht, hk] at hc₂
  have hnext₂ : (s₂.taskCreate 1).2.get b.pcb .next = t.1 :=
    (hc₂.old.get List.mem_cons_self .next).trans hnext₁
  refine ⟨_, _, .create 1 hreach₁ (by rw [hcur₁]; exact hasState_iff.2 hrun₁), ?_, fun ts => ?_⟩
  · rw [hc₂.old.current, hcur₁, hasState_iff]
    exact (hc₂.keeps.entry _ huse₁ List.not_mem_nil _ (Field.index_lt _)).trans hrun₁
  · rw [hc₂.list]
    exact not_linked (hc₂.next.trans hlist₁) hnext₂ ht0 hb0

end

end HaoSys.Proc
