import HaoSys.Mm.VmmIsolation
import HaoSys.Proc.Lifetime
import HaoSys.Proc.Rotation

/-!
# The pages of a task's life

`Life` follows a user task from `task_create_user` on. It carries the set of
the pages that would be free had the task taken none: those that were free
before, less what the steps that are not the task's take and with what they
give back. In every state they are the free pages and the task's own, so the
reaping leaves them free when it gives back all of those.
-/

namespace HaoSys.Proc

open HaoSys.Lib HaoSys.Mm

/-- A step of the machine that registers no page for `t` and does not reap it. A page for `t` that
is refused while `user_virt_pages` has room is such a step. -/
inductive Aside (t : UInt32) (s : Sched) (L : List Owned) : Sched → List Owned → Prop where
  | create (entry : UInt32) : s.hasState s.currentTask .running = true →
    Aside t s L (s.taskCreate entry).2 (record L (s.taskCreate entry))
  | createUser (entry stack : UInt32) : s.hasState s.currentTask .running = true →
    Aside t s L (s.taskCreateUser entry stack).2 (record L (s.taskCreateUser entry stack))
  | load {task virt : UInt32} : s.hasState s.currentTask .running = true → s.OnList task →
    s.isUserTask task = true → virt.toNat % 4096 = 0 → Loadable s.vmm virt →
    (task = t → (s.get t .userVirtCount).toNat < 96 ∧
      (s.loadPage t virt).get t .userVirtCount = s.get t .userVirtCount) →
    Aside t s L (s.loadPage task virt) (recordPage L s task virt)
  | map {virt : UInt32} (phys : UInt32) : s.hasState s.currentTask .running = true →
    pdIndex virt = loadSlot → s.vmm.currentDirectory = s.vmm.kernelPageDirectory →
    Aside t s L
      { s with vmm := (s.vmm.vmmMapPage s.vmm.currentDirectory virt phys pageWrite).2 } L
  | unmap {virt : UInt32} : s.hasState s.currentTask .running = true → pdIndex virt = loadSlot →
    s.vmm.currentDirectory = s.vmm.kernelPageDirectory →
    Aside t s L { s with vmm := (s.vmm.vmmUnmapPage s.vmm.currentDirectory virt).2 } L
  | launch {task : UInt32} : s.hasState s.currentTask .running = true →
    s.currentTask = s.idleTask → s.OnList task → s.isUserTask task = true →
    Aside t s L (s.launch task) L
  | write {o : Owned} {p : UInt32} {m : Mem} : o ∈ L → p ∈ o.stack :: o.maps.map Prod.snd →
    (∀ c, addrToIndex c ≠ addrToIndex p → m c = s.vmm.mem c) →
    Aside t s L { s with vmm := s.vmm.setMem m } L
  | interrupt (sp : UInt32) : Aside t s L (s.set s.currentTask .esp sp) L
  | exit : s.hasState s.currentTask .running = true → s.currentTask ≠ s.idleTask →
    Aside t s L s.markTerminated L
  | schedule {fuel : Nat} {sp : UInt32} {r : Sched.Scheduled} : s.ReapsOwn →
    s.schedule fuel sp = some r → t ∉ r.reaped.map Prod.fst →
    Aside t s L r.state (L.filter fun o => o.pcb ∉ r.reaped.map Prod.fst)

/-- The pages `F` after a step from `s` to `s'`: less those it took, with those it gave back. -/
def carry (F : UInt32 → Prop) (s s' : Sched) (i : UInt32) : Prop :=
  F i ∧ (s.Free i → s'.Free i) ∨ s'.Free i ∧ ¬ s.Free i

/-- A piece of a run from the creation of the user task `t`; `F` are the pages that would be free
had it taken none. -/
inductive Life (endAddr k t : UInt32) : (UInt32 → Prop) → Sched → List Owned → Prop where
  | create {s : Sched} {L : List Owned} (entry stack : UInt32) :
    Reachable endAddr k Sched.ReapsOwn s L → s.hasState s.currentTask .running = true →
    (s.taskCreateUser entry stack).1 = t → t ≠ 0 →
    Life endAddr k t s.Free (s.taskCreateUser entry stack).2
      (record L (s.taskCreateUser entry stack))
  /-- A page from the allocator is mapped for the task and registered. -/
  | load {F : UInt32 → Prop} {s : Sched} {L : List Owned} {virt : UInt32} :
    Life endAddr k t F s L → s.hasState s.currentTask .running = true → s.OnList t →
    s.isUserTask t = true → virt.toNat % 4096 = 0 → Loadable s.vmm virt →
    (s.loadPage t virt).get t .userVirtCount ≠ s.get t .userVirtCount →
    Life endAddr k t F (s.loadPage t virt) (recordPage L s t virt)
  | aside {F : UInt32 → Prop} {s s' : Sched} {L L' : List Owned} : Life endAddr k t F s L →
    Aside t s L s' L' → Life endAddr k t (carry F s s') s' L'

/-- The call leaves free what would be free had `t` taken no page, and what it freed with the other
tasks. -/
def Refunds (F : UInt32 → Prop) (t : UInt32) (r : Sched.Scheduled) : Prop :=
  ∀ i, r.state.Free i ↔ F i ∨ i < r.state.vmm.pmm.totalPages ∧
    ∃ e ∈ r.reaped, e.1 ≠ t ∧ ∃ a ∈ e.2, addrToIndex a = i

section

variable {endAddr k t : UInt32} {s s' : Sched} {L L' : List Owned} {ts zs xs ys : List UInt32}
  {o : Owned} {v w : Vmm} {F : UInt32 → Prop}

theorem Aside.reachable (h : Reachable endAddr k Sched.ReapsOwn s L) (ha : Aside t s L s' L') :
    Reachable endAddr k Sched.ReapsOwn s' L' := by
  cases ha with
  | create entry hrun => exact .create entry h hrun
  | createUser entry stack hrun => exact .createUser entry stack h hrun
  | load hrun ht hu hv hslot _ => exact .load h hrun ht hu hv hslot
  | map phys hrun hslot hcur => exact .map phys h hrun hslot hcur
  | unmap hrun hslot hcur => exact .unmap h hrun hslot hcur
  | launch hrun hcur ht hu => exact .launch h hrun hcur ht hu
  | write ho hp hm => exact .write h ho hp hm
  | interrupt sp => exact .interrupt sp h
  | exit hrun hidle => exact .exit h hrun hidle
  | schedule hs hr _ => exact .schedule h hs hr

theorem Life.reachable (h : Life endAddr k t F s L) : Reachable endAddr k Sched.ReapsOwn s L := by
  induction h with
  | create entry stack h hrun => exact .createUser entry stack h hrun
  | load _ hrun ht hu hv hslot _ ih => exact .load ih hrun ht hu hv hslot
  | aside _ ha ih => exact ha.reachable ih

/-! ## Steps of the others -/

/-- From `v` to `w` an entry keeps its tables, and the kernel's directory gets none of them. -/
structure Spares (v : Vmm) (xs : List UInt32) (w : Vmm) (o : Owned) : Prop where
  boot : v.SameBoot w
  dir : ∀ d, o.dir = some d → ∀ i, tableOf w.mem d i = tableOf v.mem d i
  kernel : ∀ i u, v.pmm.InUse xs u → (tableOf w.mem v.kernelPageDirectory i = some u ↔
    tableOf v.mem v.kernelPageDirectory i = some u)

theorem SameTables.spares {ds : List UInt32} (h : SameTables ds v w) (xs : List UInt32)
    (ho : ∀ d, o.dir = some d → d ∈ ds) : Spares v xs w o :=
  ⟨h.boot, fun d hd => h.tables d (List.mem_cons_of_mem _ (ho d hd)), fun i u _ => by
    rw [h.tables _ List.mem_cons_self]⟩

/-- The pages of an entry that a step spares. -/
theorem Core.own_spared (h : Core v L xs) (h' : Core w L' ys) (ho : o ∈ L) (ho' : o ∈ L')
    (hs : Spares v xs w o) (a : UInt32) : Own w L' o a ↔ Own v L o a := by
  rw [h'.own_iff ho', h.own_iff ho, hs.boot.1]
  refine or_congr_right (exists_congr fun d => and_congr_right fun hd => or_congr_right ?_)
  refine exists_congr fun i => ?_
  rw [hs.dir d hd]
  refine and_congr_right fun hi => not_congr (hs.kernel i a ?_)
  exact (h.inv.table d (List.mem_cons_of_mem _ (mem_dirs ho hd)) i a hi).1

/-- Own pages are in use. -/
theorem Core.own_inUse (h : Core v L xs) (ho : o ∈ L) {a : UInt32} (ha : Own v L o a) :
    v.pmm.InUse xs a := by
  rcases ha with ha | ⟨d, hd, rfl | ⟨⟨i, hi⟩, -⟩⟩
  · exact (h.fresh a (mem_held ho ha)).inUse
  · exact (h.inv.dir a (List.mem_cons_of_mem _ (mem_dirs ho hd))).2
  · exact (h.inv.table d (List.mem_cons_of_mem _ (mem_dirs ho hd)) i a hi).1

/-- Two entries with one directory are the same entry. -/
theorem Core.eq_of_dir (h : Core v L xs) {o' : Owned} {d : UInt32} (ho : o ∈ L) (ho' : o' ∈ L)
    (hd : o.dir = some d) (hd' : o'.dir = some d) : o' = o := by
  by_contra hne
  refine (h.perm (h.filter_perm ho)).head_not_dir hd (mem_dirs (List.mem_filter.2 ⟨ho', ?_⟩) hd')
  simpa using fun e => hne (h.eq_of_pcb ho' ho e)

/-- The loader's window: the kernel's directory may get a table, which was free. -/
theorem Core.mapKernel_spares (h : Core v L xs) (ho : o ∈ L) (virt phys flags : UInt32) :
    Spares v xs (v.vmmMapPage v.kernelPageDirectory virt phys flags).2 o := by
  have hk : v.kernelPageDirectory ∈ v.kernelPageDirectory :: dirs L := List.mem_cons_self
  obtain ⟨ys, hw, -⟩ := h.inv.mapWrites hk virt phys flags
  refine ⟨hw.evolves.keeps.boot, fun d hd i => ?_, fun i u hu => ?_⟩
  · have hmem := mem_dirs ho hd
    have hd' := List.mem_cons_of_mem v.kernelPageDirectory hmem
    exact hw.evolves.keeps.tableOf (h.inv.dir d hd').2
      (h.dir_not_written hk hd' fun e => h.inv.kernel (e ▸ hmem))
  · rcases hw.tables i with e | ⟨-, e, t, ht, hold⟩
    · rw [e]
    · rw [e, ht, Option.some.injEq]
      refine iff_of_false ?_ nofun
      rintro rfl
      exact hold hu

/-- What a step that is not the task's does to the task's entry. -/
theorem SchedInv.aside_spares (h : SchedInv s L ts zs xs) (ha : s.Active) (hs : Aside t s L s' L')
    (ho : o ∈ L) (ht : o.pcb = t) : o ∈ L' ∧ Spares s.vmm xs s'.vmm o := by
  have hdirs : ∀ d, o.dir = some d → d ∈ dirs L := fun d => mem_dirs ho
  cases hs with
  | create entry _ =>
    rcases h.core.taskCreate entry with hno | ⟨o', -, -, -, hr, -, hc⟩
    · rw [record_failed hno]
      exact ⟨ho, hno.tables.spares xs hdirs⟩
    · rw [record_created hc hr]
      exact ⟨List.mem_cons_of_mem _ ho,
        (h.core.sameTables hc.keeps fun _ _ => List.not_mem_nil).spares xs hdirs⟩
  | createUser entry stack _ =>
    rcases h.core.taskCreateUser entry stack with hno | ⟨o', -, -, -, -, -, hr, hc, -⟩
    · rw [record_failed hno]
      exact ⟨ho, hno.tables.spares xs hdirs⟩
    · rw [record_created hc hr]
      exact ⟨List.mem_cons_of_mem _ ho,
        (h.core.sameTables hc.keeps fun _ _ => List.not_mem_nil).spares xs hdirs⟩
  | @load task virt _ hlist hu hv hslot hown =>
    obtain ⟨o₁, ho₁, rfl, d, hd⟩ :=
      h.user_entry (List.mem_append_left _ (h.onList_iff.1 hlist)) hu
    obtain ⟨ys, -, -, hothers, hload⟩ := h.loadPage ho₁ hd hv hslot
    -- the pages of another task
    have hother : o₁.pcb ≠ t → Spares s.vmm xs (s.loadPage o₁.pcb virt).vmm o := fun hne => by
      refine (hothers o.dir.toList (fun d' hd' => hdirs d' (by simpa using hd')) fun hm => ?_).spares
        xs fun d' hd' => by simp [hd']
      exact hne (h.core.eq_of_dir ho₁ ho hd (by simpa using hm) ▸ ht)
    unfold recordPage
    cases hload with
    | refused hsame _ htables =>
      rw [if_pos hsame]
      refine ⟨ho, ?_⟩
      by_cases hp : o₁.pcb = t
      · exact (htables (hp ▸ (hown hp).1)).spares xs hdirs
      · exact hother hp
    | registered hnew =>
      have hp : o₁.pcb ≠ t := fun hp => hnew (hp ▸ (hown hp).2)
      rw [if_neg hnew]
      exact ⟨List.mem_map.2 ⟨o, ho, if_neg (ht ▸ Ne.symm hp)⟩, hother hp⟩
  | map phys _ hslot hcur =>
    rw [hcur]
    exact ⟨ho, h.core.mapKernel_spares ho _ phys pageWrite⟩
  | unmap _ _ hcur =>
    rw [hcur]
    obtain ⟨he, -, htab⟩ := h.core.inv.evolves_unmap List.mem_cons_self _
    exact ⟨ho, SameTables.spares ⟨he.keeps.boot, htab⟩ xs hdirs⟩
  | @launch task _ _ hlist _ =>
    obtain ⟨e, d, heq⟩ := launch_eq s task
    have hmem := List.mem_append_left zs (h.onList_iff.1 hlist)
    rw [heq]
    exact ⟨ho, ((h.set_sameTables hmem .state TaskState.running.code).setDirectory d).spares xs hdirs⟩
  | write ho' hp hm =>
    have hheld := mem_held ho' (List.mem_cons_of_mem _ hp)
    obtain ⟨-, he⟩ := h.core.write hheld hm
    refine ⟨ho, (h.core.sameTables he.keeps fun d hd hk => ?_).spares xs hdirs⟩
    exact (h.core.fresh _ hheld).notDir (List.mem_singleton.1 hk ▸ hd)
  | interrupt sp =>
    exact ⟨ho, (h.set_sameTables (List.mem_append_left zs h.tasks.current) .esp sp).spares xs hdirs⟩
  | exit =>
    rw [h.markTerminated.2]
    exact ⟨ho, (h.set_sameTables (List.mem_append_left zs h.tasks.current) .state
      TaskState.terminated.code).spares xs hdirs⟩
  | schedule hok hr hnot =>
    have hmem : ∀ {us : List UInt32}, t ∉ us → o ∈ L.filter fun o' => o'.pcb ∉ us := fun hm =>
      List.mem_filter.2 ⟨ho, by simpa [ht] using hm⟩
    cases h.schedule_outcome ha hok hr with
    | stay => exact ⟨hmem hnot, (SameTables.refl (dirs L) _).spares xs hdirs⟩
    | exit _ _ _ hsw => exact ⟨hmem hnot, hsw.tables.spares xs hdirs⟩
    | switch _ _ _ hreap _ hsw =>
      refine ⟨hmem hnot, hsw.tables.spares xs fun d hd => mem_dirs (hmem ?_) hd⟩
      rw [← hreap.tasks]
      exact hnot

/-! ## The account -/

/-- The pages of `F` are the free pages and those of the user task `o`. -/
structure Account (F : UInt32 → Prop) (s : Sched) (L : List Owned) (o : Owned) : Prop where
  mem : o ∈ L
  user : o.dir.isSome = true
  bound : ∀ a, Own s.vmm L o a → addrToIndex a < s.vmm.pmm.totalPages
  pages : ∀ i, F i ↔ s.Free i ∨ ∃ a, Own s.vmm L o a ∧ addrToIndex a = i

/-- A step of the others carries the account over. -/
theorem Account.aside (h : Account F s L o) (hinv : RunInv s L) (hinv' : RunInv s' L')
    (ht : o.pcb = t) (ha : Aside t s L s' L') : Account (carry F s s') s' L' o := by
  obtain ⟨ts, zs, xs, hs, hact⟩ := hinv
  obtain ⟨ts', zs', ys, hs', -⟩ := hinv'
  obtain ⟨hmem, hspares⟩ := hs.aside_spares hact ha h.mem ht
  have hown := hs.core.own_spared hs'.core h.mem hmem hspares
  have hpages : s'.vmm.pmm.totalPages = s.vmm.pmm.totalPages := hspares.boot.2.1.2
  refine ⟨hmem, h.user, fun a ha => ?_, fun i => ?_⟩
  · rw [hpages]
    exact h.bound a ((hown a).1 ha)
  have hold : (∃ a, Own s.vmm L o a ∧ addrToIndex a = i) → ¬ s.Free i := by
    rintro ⟨a, ha, rfl⟩
    rw [hs.core.free_iff]
    exact (hs.core.own_inUse h.mem ha).notFree
  rw [carry, h.pages]
  simp only [hown]
  by_cases hfree : s.Free i
  · rw [or_iff_left fun hown => hold hown hfree, or_iff_left fun hown => hold hown hfree]
    simp [hfree]
  · simp [hfree, or_comm]

/-- Pages that are taken go from the free pages to those of a task. -/
theorem Core.taken_iff (new : List UInt32) (h : Core v L (new ++ ys)) (P : UInt32 → Prop)
    (i : UInt32) :
    (i ∈ new ++ ys ∨ ∃ a, P a ∧ addrToIndex a = i) ↔
      i ∈ ys ∨ ∃ a, (P a ∨ a ∈ new.map indexToAddr) ∧ addrToIndex a = i := by
  have hback : ∀ j ∈ new ++ ys, addrToIndex (indexToAddr j) = j := fun j hj =>
    addrToIndex_indexToAddr (h.inv.pmm.fits.lt (h.inv.pmm.lt hj))
  constructor
  · rintro (hi | ⟨a, ha, e⟩)
    · rcases List.mem_append.1 hi with hn | hy
      · exact .inr ⟨indexToAddr i, .inr (List.mem_map_of_mem hn), hback i hi⟩
      · exact .inl hy
    · exact .inr ⟨a, .inl ha, e⟩
  · rintro (hi | ⟨a, ha | ha, e⟩)
    · exact .inl (List.mem_append_right _ hi)
    · exact .inr ⟨a, ha, e⟩
    · obtain ⟨j, hj, rfl⟩ := List.mem_map.1 ha
      rw [hback j (List.mem_append_left _ hj)] at e
      exact .inl (e ▸ List.mem_append_left _ hj)

theorem Core.taken_lt (new : List UInt32) (h : Core v L (new ++ ys)) {a : UInt32}
    (ha : a ∈ new.map indexToAddr) : addrToIndex a < v.pmm.totalPages := by
  obtain ⟨i, hi, rfl⟩ := List.mem_map.1 ha
  have hlt := h.inv.pmm.lt (List.mem_append_left ys hi)
  rwa [addrToIndex_indexToAddr (h.inv.pmm.fits.lt hlt)]

/-- A page that is not `NULL` was the first of the free pages. -/
theorem cons_of_head {a : UInt32} (ha : a = indexToAddr (xs.headD 0)) (h0 : a ≠ 0) :
    ∃ x us, xs = x :: us ∧ a = indexToAddr x := by
  cases xs with
  | nil => exact absurd ha h0
  | cons x us => exact ⟨x, us, rfl, ha⟩

/-- A new user task has its three pages. -/
theorem SchedInv.account_created (h : SchedInv s L ts zs xs) {entry stack : UInt32}
    (ht : (s.taskCreateUser entry stack).1 = t) (h0 : t ≠ 0) :
    ∃ o : Owned, o.pcb = t ∧ Account s.Free (s.taskCreateUser entry stack).2
      (record L (s.taskCreateUser entry stack)) o := by
  rcases h.core.taskCreateUser entry stack with hno |
    ⟨o, d, hd, hpcb, hstack, hdir, hr, hc, htab⟩
  · exact absurd (ht ▸ hno.null) h0
  rw [record_created hc hr]
  have hmem : o ∈ o :: L := List.mem_cons_self
  have hk := (h.core.inv.dir _ List.mem_cons_self).2
  obtain ⟨x, us, rfl, hx⟩ := cons_of_head hpcb (hc.core.pcb hmem).ne_zero
  obtain ⟨y, us, rfl, hy⟩ := cons_of_head hstack (hc.core.stack hmem).ne_zero
  obtain ⟨z, us, rfl, hz⟩ :=
    cons_of_head hdir (hc.core.inv.dir d (List.mem_cons_of_mem _ (mem_dirs hmem hd))).1
  have hpages : (s.taskCreateUser entry stack).2.vmm.pmm.totalPages = s.vmm.pmm.totalPages :=
    hc.keeps.boot.2.1.2
  -- the directory has the kernel's tables
  have hown : ∀ a, Own (s.taskCreateUser entry stack).2.vmm (o :: L) o a ↔
      False ∨ a ∈ [x, y, z].map indexToAddr := fun a => by
    have hkernel : ∀ i, tableOf (s.taskCreateUser entry stack).2.vmm.mem
        (s.taskCreateUser entry stack).2.vmm.kernelPageDirectory i =
          tableOf s.vmm.mem s.vmm.kernelPageDirectory i := fun i => by
      rw [hc.keeps.boot.1, hc.keeps.tableOf hk List.not_mem_nil]
    rw [hc.core.own_iff hmem, Owned.held, hc.maps, hd]
    simp only [htab, hkernel, List.map_cons, List.map_nil, List.mem_cons, List.not_mem_nil, or_false,
      Option.some.injEq, exists_eq_left', or_assoc, false_or, ← hx, ← hy, ← hz]
    refine or_congr_right (or_congr_right (or_iff_left ?_))
    rintro ⟨i, hi, hne⟩
    exact hne hi
  refine ⟨o, hr.symm.trans ht, hmem, by rw [hd]; rfl, fun a ha => ?_, fun i => ?_⟩
  · rw [hpages]
    exact Core.taken_lt [x, y, z] h.core (((hown a).1 ha).resolve_left id)
  rw [h.core.free_iff, hc.core.free_iff]
  simp only [hown]
  refine Iff.trans ?_ (Core.taken_iff [x, y, z] h.core (fun _ => False) i)
  simp

/-- The tables that only the task has, once a page is mapped for it. -/
theorem Core.tables_taken (h : Core v L xs) {d virt : UInt32} {us : List UInt32}
    (hus : us ⊆ xs) (htakes : Vmm.MapTakes v w us ys d virt)
    (hk : ∀ i, tableOf w.mem v.kernelPageDirectory i = tableOf v.mem v.kernelPageDirectory i) :
    ∃ new, us = new ++ ys ∧ ∀ a,
      (∃ i, tableOf w.mem d i = some a ∧ tableOf w.mem v.kernelPageDirectory i ≠ some a) ↔
        (∃ i, tableOf v.mem d i = some a ∧ tableOf v.mem v.kernelPageDirectory i ≠ some a) ∨
          a ∈ new.map indexToAddr := by
  simp only [hk]
  rcases htakes with ⟨rfl, ht⟩ | ⟨y, rfl, hnone, ht⟩
  · exact ⟨[], rfl, fun a => by simp [ht]⟩
  refine ⟨[y], rfl, fun a => ?_⟩
  simp only [ht, List.map_cons, List.map_nil, List.mem_singleton]
  constructor
  · rintro ⟨i, hi, hne⟩
    split at hi
    · exact .inr (Option.some.inj hi).symm
    · exact .inl ⟨i, hi, hne⟩
  · rintro (⟨i, hi, hne⟩ | rfl)
    · have hslot : i ≠ pdIndex virt := by
        rintro rfl
        rw [hnone] at hi
        cases hi
      exact ⟨i, by rwa [if_neg hslot], hne⟩
    · -- the kernel has no table on a free page
      refine ⟨pdIndex virt, if_pos rfl, fun e => ?_⟩
      have hy := hus List.mem_cons_self
      have hu := (h.inv.table _ List.mem_cons_self _ _ e).1.notFree
      rw [addrToIndex_indexToAddr (h.inv.pmm.fits.lt (h.inv.pmm.lt hy))] at hu
      exact hu hy

/-- A page that is registered moves from the free pages to the task's, and so does that of a new
table. -/
theorem Account.load (h : Account F s L o) (hinv : SchedInv s L ts zs xs) {virt : UInt32}
    (hv : virt.toNat % 4096 = 0) (hslot : Loadable s.vmm virt)
    (hnew : (s.loadPage o.pcb virt).get o.pcb .userVirtCount ≠ s.get o.pcb .userVirtCount) :
    ∃ o' : Owned, o'.pcb = o.pcb ∧
      Account F (s.loadPage o.pcb virt) (recordPage L s o.pcb virt) o' := by
  have ho := h.mem
  obtain ⟨d, hd⟩ := Option.isSome_iff_exists.1 h.user
  obtain ⟨ys, hvars, -, hothers, hload⟩ := hinv.loadPage ho hd hv hslot
  rw [recordPage, if_neg hnew]
  cases hload with
  | refused hsame => exact absurd hsame hnew
  | @registered x us _ _ hinv' hx hphys htakes =>
    subst hx
    have hpages : (s.loadPage o.pcb virt).vmm.pmm.totalPages = s.vmm.pmm.totalPages :=
      hvars.boot.2.1.2
    obtain ⟨-, hk⟩ := hothers [] (List.nil_subset _) List.not_mem_nil
    obtain ⟨new, rfl, htab⟩ := hinv.core.tables_taken (List.subset_cons_self x us) htakes
      (hk _ List.mem_cons_self)
    rw [hphys] at hinv' ⊢
    have hmem : { o with maps := o.maps ++ [(virt, indexToAddr x)] } ∈
        register L o.pcb (virt, indexToAddr x) := List.mem_map.2 ⟨o, ho, if_pos rfl⟩
    have hown : ∀ a, Own (s.loadPage o.pcb virt).vmm (register L o.pcb (virt, indexToAddr x))
        { o with maps := o.maps ++ [(virt, indexToAddr x)] } a ↔
          Own s.vmm L o a ∨ a ∈ (x :: new).map indexToAddr := fun a => by
      rw [hinv'.core.own_iff hmem, hinv.core.own_iff ho, hvars.boot.1]
      have hheld : a ∈ Owned.held { o with maps := o.maps ++ [(virt, indexToAddr x)] } ↔
          a ∈ o.held ∨ a = indexToAddr x := by
        simp [Owned.held, or_assoc]
      rw [hheld, List.map_cons, List.mem_cons]
      simp only [hd, Option.some.injEq, exists_eq_left', htab a, or_assoc]
      exact or_congr_right (or_left_comm.trans (or_congr_right or_left_comm))
    refine ⟨{ o with maps := o.maps ++ [(virt, indexToAddr x)] }, rfl, hmem, h.user, fun a ha => ?_,
      fun i => ?_⟩
    · rw [hpages]
      exact ((hown a).1 ha).elim (h.bound a) (Core.taken_lt (x :: new) hinv.core)
    rw [h.pages, hinv.core.free_iff, hinv'.core.free_iff]
    simp only [hown]
    exact Core.taken_iff (x :: new) hinv.core (Own s.vmm L o) i

/-- **The account holds over a life.** -/
theorem Life.account (hl : Vmm.ImageLayout endAddr k) (h : Life endAddr k t F s L) :
    ∃ o : Owned, o.pcb = t ∧ Account F s L o := by
  induction h with
  | create entry stack h _ ht h0 =>
    obtain ⟨ts, zs, xs, hinv, -⟩ := h.inv hl fun _ h => h
    exact hinv.account_created ht h0
  | load h _ _ _ hv hslot hnew ih =>
    obtain ⟨ts, zs, xs, hinv, -⟩ := h.reachable.inv hl fun _ h => h
    obtain ⟨o, rfl, ho⟩ := ih
    exact ho.load hinv hv hslot hnew
  | aside h ha ih =>
    obtain ⟨o, ht, ho⟩ := ih
    exact ⟨o, ht, ho.aside (h.reachable.inv hl fun _ h => h)
      ((ha.reachable h.reachable).inv hl fun _ h => h) ht ha⟩

/-! ## The end of the life -/

/-- Pages of two entries' own are different, and so are their numbers. -/
theorem Core.own_index_ne (h : Core v L xs) {o' : Owned} {a b : UInt32} (ho : o ∈ L) (ho' : o' ∈ L)
    (ha : Own v L o a) (hb : Own v L o' b) (hne : a ≠ b) : addrToIndex a ≠ addrToIndex b := by
  intro e
  refine hne ?_
  rw [← indexToAddr_addrToIndex (h.own_inUse ho ha).aligned,
    ← indexToAddr_addrToIndex (h.own_inUse ho' hb).aligned, e]

/-- **The pages come back** with the reaping exactly when it is made under another directory. -/
theorem Life.refunds_iff (hl : Vmm.ImageLayout endAddr k) (h : Life endAddr k t F s L)
    (hok : s.ReapsOwn) {fuel : Nat} {sp : UInt32} {r : Sched.Scheduled}
    (hr : s.schedule fuel sp = some r) (ht : t ∈ r.reaped.map Prod.fst) :
    Refunds F t r ↔ s.get t .pageDirectory ≠ s.vmm.currentDirectory := by
  obtain ⟨o, rfl, hacc⟩ := h.account hl
  have ho := hacc.mem
  obtain ⟨d, hd⟩ := Option.isSome_iff_exists.1 hacc.user
  have hset := h.reachable.settled hl fun _ h => h
  obtain ⟨ts, zs, xs, hinv, hact⟩ := h.reachable.inv hl fun _ h => h
  cases hinv.schedule_outcome hact hok hr with
  | stay => exact absurd ht List.not_mem_nil
  | exit => exact absurd ht List.not_mem_nil
  | @switch next log ys s' _ _ _ hreap hinv' hsw _ hback =>
    have hpages : s'.vmm.pmm.totalPages = s.vmm.pmm.totalPages := hsw.tables.boot.2.1.2
    rw [← hreap.tasks] at hinv'
    have hz : o.pcb ∈ zs := hreap.tasks ▸ ht
    have hidle : o.pcb ≠ s.idleTask := fun e =>
      (List.nodup_append.1 hinv.nodup).2.2 _ hinv.tasks.idle _ hz e.symm
    have hesp : s.get o.pcb .kernelEsp0 ≠ 0 := by
      rw [(hinv.tasks.ok o ho).esp0, if_neg hidle]
      exact hset.stack o ho
    constructor
    · -- the directory is not freed
      intro hrefund hpd
      have hdown : Own s.vmm L o d := .inr ⟨d, hd, .inl rfl⟩
      have hfree := (hrefund (addrToIndex d)).2 (.inl ((hacc.pages _).2 (.inr ⟨d, hdown, rfl⟩)))
      rcases (hback _).1 hfree with hf | ⟨-, a, ha, e⟩
      · rw [hinv.core.free_iff] at hf
        exact (hinv.core.own_inUse ho hdown).notFree hf
      obtain ⟨entry, hentry, ha⟩ := List.mem_flatMap.1 ha
      obtain ⟨o', ho', hp, hown, -, hheld⟩ := hreap.own entry hentry
      refine hinv.core.own_index_ne ho' ho (hown a ha) hdown ?_ e
      rintro rfl
      by_cases hsame : o'.pcb = o.pcb
      · obtain rfl := hinv.core.eq_of_pcb ho' ho hsame
        rw [hp] at hpd
        exact (hinv.core.fresh a (mem_held ho (hheld hpd a ha))).notDir
          (List.mem_cons_of_mem _ (mem_dirs ho hd))
      · have hperm := hinv.core.filter_perm ho'
        refine ((hinv.core.perm hperm).own_not_others ((hown a ha).perm hperm)).2.1
          (List.mem_cons_of_mem _ (mem_dirs (List.mem_filter.2 ⟨ho, ?_⟩) hd))
        simpa using Ne.symm hsame
    · intro hne i
      rw [hback, hacc.pages, hpages]
      constructor
      · rintro (hf | ⟨hi, a, ha, e⟩)
        · exact .inl (.inl hf)
        obtain ⟨entry, hentry, ha⟩ := List.mem_flatMap.1 ha
        obtain ⟨o', ho', hp, hown, -⟩ := hreap.own entry hentry
        by_cases hsame : o'.pcb = o.pcb
        · obtain rfl := hinv.core.eq_of_pcb ho' ho hsame
          exact .inl (.inr ⟨a, hown a ha, e⟩)
        · exact .inr ⟨hi, entry, hentry, hp ▸ hsame, a, ha, e⟩
      · rintro ((hf | ⟨a, ha, rfl⟩) | ⟨hi, entry, hentry, -, a, ha, e⟩)
        · exact .inl hf
        · obtain ⟨entry, hentry, hp⟩ := List.mem_map.1 ht
          obtain ⟨o', ho', hp', -, hall, -⟩ := hreap.own entry hentry
          obtain rfl := hinv.core.eq_of_pcb ho' ho (hp'.trans hp)
          refine .inr ⟨hacc.bound a ha, a, List.mem_flatMap.2 ⟨entry, hentry, ?_⟩, rfl⟩
          exact hall (hp ▸ ⟨hesp, hne⟩) a ha
        · exact .inr ⟨hi, a, List.mem_flatMap.2 ⟨entry, hentry, ha⟩, e⟩

/-- **A creation that fails** loses page 0 if that is free and the creation got as far as a page. -/
theorem NotCreated.free_iff {r : UInt32 × Sched} {c : Prop} [Decidable c]
    (hr : NotCreated s L r (if c then xs else xs.erase 0)) (h : Core s.vmm L xs) :
    (∀ i, r.2.Free i ↔ s.Free i) ↔ c ∨ ¬ s.Free 0 := by
  have hfree := hr.core.free_iff
  simp only [hfree, h.free_iff]
  by_cases hc : c
  · simp [hc]
  · rw [if_neg hc, or_iff_right hc]
    constructor
    · intro hall h0
      exact h.inv.pmm.nodup.not_mem_erase ((hall 0).2 h0)
    · intro h0 i
      rw [List.erase_of_not_mem h0]

/-- **A user task's pages come back**: the call of `schedule` that reaps it leaves free what would be
free had it taken none, exactly when the task that calls has another directory; and a creation that
fails leaves the free pages exactly when it was refused its arguments or page 0 is not free. -/
theorem task_returns_pages (hl : Vmm.ImageLayout endAddr k) :
    (∀ t F s L fuel sp r, Life endAddr k t F s L → s.ReapsOwn → s.schedule fuel sp = some r →
      t ∈ r.reaped.map Prod.fst →
        (Refunds F t r ↔ s.get t .pageDirectory ≠ s.vmm.currentDirectory)) ∧
      ∀ s L, Reachable endAddr k Sched.ReapsOwn s L →
        (∀ entry, (s.taskCreate entry).1 = 0 →
          ((∀ i, (s.taskCreate entry).2.Free i ↔ s.Free i) ↔ entry = 0 ∨ ¬ s.Free 0)) ∧
        ∀ entry stack, (s.taskCreateUser entry stack).1 = 0 →
          ((∀ i, (s.taskCreateUser entry stack).2.Free i ↔ s.Free i) ↔
            (entry = 0 ∨ stack = 0) ∨ ¬ s.Free 0) := by
  refine ⟨fun t F s L fuel sp r h hok hr ht => h.refunds_iff hl hok hr ht, fun s L h => ?_⟩
  obtain ⟨ts, zs, xs, hinv, -⟩ := h.inv hl fun _ h => h
  refine ⟨fun entry h0 => ?_, fun entry stack h0 => ?_⟩
  · rcases hinv.core.taskCreate entry with hno | ⟨o, -, -, -, hr, -, hc⟩
    · exact hno.free_iff hinv.core
    · exact absurd (hr ▸ h0) (hc.core.pcb List.mem_cons_self).ne_zero
  · rcases hinv.core.taskCreateUser entry stack with hno | ⟨o, d, -, -, -, -, hr, hc, -⟩
    · exact hno.free_iff hinv.core
    · exact absurd (hr ▸ h0) (hc.core.pcb List.mem_cons_self).ne_zero

/-- A step in which nothing is reaped. -/
theorem Life.call (h : Life endAddr k t F s L) (hok : s.ReapsOwn) {fuel : Nat} {sp : UInt32}
    (hr : s.schedule fuel sp = some ⟨[], true, s'⟩) : Life endAddr k t (carry F s s') s' L := by
  have h' := h.aside (.schedule hok hr List.not_mem_nil)
  rwa [List.map_nil, filter_not_mem_nil] at h'

/-- With a free page for it and one for the table of its empty slot, a page of the loader is
registered. -/
theorem SchedInv.loadPage_count {x y d virt : UInt32} (h : SchedInv s L ts zs (x :: y :: xs))
    (ho : o ∈ L) (hd : o.dir = some d) (hx : indexToAddr x ≠ 0) (hy : indexToAddr y ≠ 0)
    (hempty : isPresent (entryAt s.vmm.mem d (pdIndex virt)) = false)
    (hc : (s.get o.pcb .userVirtCount).toNat < 96) :
    (s.loadPage o.pcb virt).get o.pcb .userVirtCount = s.get o.pcb .userVirtCount + 1 := by
  have hmem : d ∈ dirs L := mem_dirs ho hd
  obtain ⟨p, pmm, halloc, hhead, he, -⟩ := h.core.inv.evolves_alloc
  have hcore := h.core.of_evolves_nil he
  have hp : p ≠ 0 := hhead ▸ hx
  have hpd : entryAt (Vmm.mem { s.vmm with pmm := pmm }) o.pcb Field.pageDirectory.index = d := by
    rw [he.keeps.entry _ (h.core.pcb ho).inUse List.not_mem_nil _ (Field.index_lt _)]
    exact (h.tasks.ok o ho).dir d hd
  have hempty' : isPresent (entryAt (Vmm.mem { s.vmm with pmm := pmm }) d (pdIndex virt)) = false := by
    rw [he.keeps.entry _ (h.core.inv.dir d (List.mem_cons_of_mem _ hmem)).2 List.not_mem_nil _
      (pdIndex_lt virt)]
    exact hempty
  obtain ⟨w, hmap, -⟩ := Vmm.Inv.vmmMapPage_new (v := { s.vmm with pmm := pmm }) hcore.inv
    (List.mem_cons_of_mem _ hmem) hy virt p (pageWrite ||| pageUser) hempty'
  obtain ⟨ys, -, hw, -⟩ := hcore.mapUser hmem virt p (pageWrite ||| pageUser)
  rw [hmap] at hw
  have hold := h.core.sameOld (he.keeps.trans hw.evolves.keeps) hw.current fun q hq =>
    hcore.not_written hq (List.mem_cons_of_mem _ hmem)
  have hcount := hold.get ho .userVirtCount
  unfold Sched.loadPage
  simp only [halloc]
  rw [if_neg hp, hpd, hmap]
  simp only
  rw [dif_pos (by rwa [hcount]), get_set_self, hcount]

theorem dirs_register (L : List Owned) (task : UInt32) (q : UInt32 × UInt32) :
    dirs (register L task q) = dirs L := by
  unfold dirs register
  rw [List.filterMap_map]
  refine List.filterMap_congr fun o _ => ?_
  simp only [Function.comp_apply]
  split <;> rfl

theorem mem_held_register {task a : UInt32} {q : UInt32 × UInt32} (ha : a ∈ held (register L task q)) :
    a ∈ held L ∨ a = q.2 := by
  obtain ⟨o', ho', ha⟩ := List.mem_flatMap.1 ha
  obtain ⟨o, ho, rfl⟩ := List.mem_map.1 ho'
  split at ha
  · have hcase : a ∈ o.held ∨ a = q.2 := by simpa [Owned.held, or_assoc] using ha
    exact hcase.imp_left fun ha => mem_held ho ha
  · exact .inl (mem_held ho ha)

/-- A page is loaded for a task that has none in its slot. -/
theorem Turn.load {ok : Sched → Prop} {e x y d virt : UInt32} {l r zs : List (UInt32 × UInt32)}
    {c : UInt32 × UInt32} (h : Turn endAddr k ok e s L l c r zs (x :: y :: xs)) (ho : o ∈ L)
    (hd : o.dir = some d) (hlist : o.pcb ∈ (l ++ c :: r).map Prod.fst)
    (hv : virt.toNat % 4096 = 0) (hslot : pdIndex virt ≠ loadSlot)
    (hempty : isPresent (entryAt s.vmm.mem d (pdIndex virt)) = false)
    (hc : (s.get o.pcb .userVirtCount).toNat < 96) :
    (s.loadPage o.pcb virt).get o.pcb .userVirtCount ≠ s.get o.pcb .userVirtCount ∧
      recordPage L s o.pcb virt = register L o.pcb (virt, indexToAddr x) ∧
      ∃ ys, (ys = y :: xs ∨ ys = xs) ∧ Turn endAddr k ok e (s.loadPage o.pcb virt)
        (register L o.pcb (virt, indexToAddr x)) l c r zs ys := by
  have hrun : s.hasState s.currentTask .running = true := by
    rw [h.task]
    exact hasState_iff.2 h.running
  have huser : s.isUserTask o.pcb = true := by
    rw [Sched.isUserTask, (h.inv.tasks.ok o ho).user, hd]
    rfl
  have hcount := h.inv.loadPage_count ho hd (h.room x (by simp)) (h.room y (by simp)) hempty hc
  have hnew : (s.loadPage o.pcb virt).get o.pcb .userVirtCount ≠ s.get o.pcb .userVirtCount := by
    rw [hcount]
    intro heq
    have := congrArg UInt32.toNat heq
    rw [UInt32.toNat_add, UInt32.toNat_one] at this
    omega
  have hreach := Reachable.load h.reach hrun (h.inv.onList_iff.2 hlist) huser hv (.inl hslot)
  obtain ⟨ys, hvars, hwords, hothers, hload⟩ := h.inv.loadPage ho hd hv (.inl hslot)
  have htables := hothers [] (List.nil_subset _) List.not_mem_nil
  generalize hs' : s.loadPage o.pcb virt = s' at *
  have hrec : recordPage L s o.pcb virt = register L o.pcb (virt, s.vmm.pmm.pmmAllocPage.1) := by
    rw [recordPage, hs', if_neg hnew]
  cases hload with
  | refused hsame => exact absurd hsame hnew
  | @registered x' us _ _ hinv' hx hphys htakes =>
    obtain ⟨rfl, rfl⟩ := List.cons.inj hx
    rw [hphys] at hinv' hrec
    rw [hrec] at hreach
    have hys : ys = y :: xs ∨ ys = xs := by
      rcases htakes with ⟨rfl, -⟩ | ⟨_, he, -⟩
      · exact .inl rfl
      · exact .inr (List.cons.inj he).2.symm
    have hsub : ∀ i ∈ ys, i ∈ x :: y :: xs := fun i hi => by
      rcases hys with rfl | rfl <;> simp [hi]
    have hget : ∀ t ∈ (l ++ c :: r) ++ zs, ∀ f, f = .state ∨ f = .pageDirectory →
        s'.get t.1 f = s.get t.1 f := fun t ht f hf => hwords t.1 (Turn.fst_mem ht) f
      (by rcases hf with rfl | rfl <;> simp) (by rcases hf with rfl | rfl <;> simp)
    refine ⟨hnew, hrec, ys, hys, ⟨hreach, hinv', hvars.idle.trans h.idle, hvars.current.trans h.task,
      (hget c (by simp) _ (.inl rfl)).trans h.running, fun t ht =>
        (hget t (by grind) _ (.inl rfl)).trans (h.ready t ht), fun t ht => ?_,
      hvars.directory.trans h.current, hvars.boot.1.trans h.kernel, fun i hi => h.room i (hsub i hi),
      fun p hp => ?_, htables.scan h.scan⟩⟩
    · rw [hget t ht _ (.inr rfl)]
      exact h.dir t ht
    · rw [hvars.boot.2.1.2]
      rw [dirs_register, List.mem_append] at hp
      rcases hp with hp | hp
      · rcases mem_held_register hp with hp | rfl
        · exact h.bound p (List.mem_append_left _ hp)
        · exact h.index_lt (by simp)
      · exact h.bound p (List.mem_append_right _ hp)

/-- A user task with a loaded page runs and exits, and a task of the kernel's directory reaps it. -/
theorem small_life : ∃ t F s L r, Life 0x102000 0x101000 t F s L ∧ s.ReapsOwn ∧
    s.schedule 1 0 = some r ∧ t ∈ r.reaped.map Prod.fst ∧
      s.get t .pageDirectory ≠ s.vmm.currentDirectory ∧ ∃ o ∈ L, o.pcb = t ∧ o.maps ≠ [] := by
  obtain ⟨s₀, b, q, xs, hb⟩ := small_booted Sched.ReapsOwn
  obtain ⟨h₀, hlen⟩ := hb.small
  obtain ⟨x₁, x₂, x₃, x₄, x₅, x₆, x₇, xs, rfl⟩ := seven_pages (show 7 ≤ xs.length by omega)
  have hone : (1 : UInt32) ≠ 0 := by decide
  obtain ⟨hboot, h₁⟩ := h₀.taskCreate hone
  generalize (s₀.taskCreate 1).2 = s₁ at hboot h₁
  have hpdes : s₁.vmm.kernelPdes = 1 := by
    have hsmall : (bootSched smallPmm 0x101000).vmm.kernelPdes = 1 := by decide +kernel
    rw [← hsmall, Vmm.kernelPdes, Vmm.kernelPdes, hboot.2.2, hb.tables.boot.2.2]
  obtain ⟨hr, hrec, h₂⟩ := h₁.taskCreateUser hone hone
  have hlife := Life.create 1 1 h₁.reach (by rw [h₁.task]; exact hasState_iff.2 h₁.running) hr
    (h₁.room x₃ (by simp))
  rw [hrec] at hlife
  have hempty : isPresent (entryAt (s₁.taskCreateUser 1 1).2.vmm.mem (indexToAddr x₅)
      (pdIndex 0x10000000)) = false := by
    have hmade := h₁.inv.core.taskCreateUser_ne_zero (h₁.room x₃ (by simp)) (h₁.room x₄ (by simp))
      (h₁.room x₅ (by simp)) hone hone
    rcases h₁.inv.core.taskCreateUser 1 1 with hno | ⟨_, d, -, -, -, hd, -, -, htables⟩
    · exact absurd hno.null hmade
    -- a new directory has the kernel's tables only
    have hnone := htables (pdIndex 0x10000000)
    rw [h₁.scan _ (by rw [hpdes]; decide), hd, tableOf] at hnone
    split at hnone
    · cases hnone
    · next hp => simpa [pdIndex_lt] using hp
  have hne : indexToAddr x₅ ≠ 0x101000 := fun e => by
    refine h₂.inv.core.inv.kernel ?_
    rw [h₂.kernel, ← e]
    simp [dirs]
  generalize (s₁.taskCreateUser 1 1).2 = s₂, indexToAddr x₁ = c, indexToAddr x₃ = p,
    indexToAddr x₄ = k, indexToAddr x₅ = d at *
  -- the loader's page
  have ho : (⟨p, k, some d, []⟩ : Owned) ∈ [⟨p, k, some d, []⟩, ⟨c, indexToAddr x₂, none, []⟩,
    ⟨b, q, none, []⟩] := List.mem_cons_self
  have hp : p ∈ ([(p, d), (c, 0x101000)] ++ (b, 0x101000) :: []).map Prod.fst := by simp
  have hv : (0x10000000 : UInt32).toNat % 4096 = 0 := by decide
  obtain ⟨hnew, hrec, ys, -, h₃⟩ := h₂.load ho rfl hp hv (by decide)
    hempty (by rw [(h₂.inv.tasks.ok _ ho).count]; simp)
  have hlife := hlife.load (by rw [h₂.task]; exact hasState_iff.2 h₂.running)
    (h₂.inv.onList_iff.2 hp) (by rw [Sched.isUserTask, (h₂.inv.tasks.ok _ ho).user]; rfl) hv
    (.inl (by decide)) hnew
  rw [hrec] at hlife
  generalize s₂.loadPage p 0x10000000 = s₃ at *
  have ho : (⟨p, k, some d, [(0x10000000, indexToAddr x₆)]⟩ : Owned) ∈
      register [⟨p, k, some d, []⟩, ⟨c, indexToAddr x₂, none, []⟩, ⟨b, q, none, []⟩] p
        (0x10000000, indexToAddr x₆) := List.mem_map.2 ⟨_, ho, if_pos rfl⟩
  -- it runs and exits
  obtain ⟨s₄, h₄, -, hcall⟩ := h₃.switch h₃.reapsOwn rfl
    (show _ = [] ++ (p, d) :: [(c, 0x101000), (b, 0x101000)] from rfl)
  have hlife := hlife.call h₃.reapsOwn hcall
  have hidle : p ≠ b := Ne.symm (h₄.ne (t := (b, 0x101000)) (by simp))
  obtain ⟨-, s₅, hcall, h₅, -⟩ := h₄.exit hidle h₄.reapsOwn_exit rfl
    (show _ = [] ++ (c, 0x101000) :: [(b, 0x101000)] from rfl)
  have hlife := (hlife.aside (.exit (by rw [h₄.task]; exact hasState_iff.2 h₄.running)
    (by rw [h₄.task, h₄.idle]; exact hidle))).call h₄.reapsOwn_exit hcall
  -- the task behind it reaps it
  have hok := h₅.reapsOwn_user ho rfl
  have hz : ∀ z ∈ [p], s₅.Reapable z := fun z hm =>
    hok (by rw [h₅.task]; exact not_terminated h₅.running) (by rw [h₅.findNext rfl]; rfl) z
      (h₅.inv.zombie_iff.2 hm)
  obtain ⟨log, s₆, -, hcall, hreap, -⟩ := h₅.inv.schedule_switch (h₅.task ▸ h₅.running)
    (h₅.findNext rfl) hz (Nat.le_refl 1) 0
  refine ⟨p, _, s₅, _, _, hlife, hok, hcall, ?_, ?_, _, ho, rfl, by simp⟩
  · rw [hreap.tasks]
    exact List.mem_singleton_self p
  · rw [(h₅.dir (p, d) (by simp)).1, h₅.current]
    exact hne

theorem task_returns_pages_small : ∃ t F s L r, Life 0x102000 0x101000 t F s L ∧
    (∃ o ∈ L, o.pcb = t ∧ o.maps ≠ []) ∧ s.schedule 1 0 = some r ∧ t ∈ r.reaped.map Prod.fst ∧
      Refunds F t r ∧
      ((s.taskCreate 0).1 = 0 ∧ ∀ i, (s.taskCreate 0).2.Free i ↔ s.Free i) ∧
      (s.taskCreateUser 0 0).1 = 0 ∧ ∀ i, (s.taskCreateUser 0 0).2.Free i ↔ s.Free i := by
  obtain ⟨t, F, s, L, r, h, hok, hr, ht, hne, o, ho, hpcb, hmaps⟩ := small_life
  obtain ⟨hreap, hnull⟩ := task_returns_pages Vmm.smallLayout
  obtain ⟨hcreate, huser⟩ := hnull s L h.reachable
  exact ⟨t, F, s, L, r, h, ⟨o, ho, hpcb, hmaps⟩, hr, ht, (hreap t F s L 1 0 r h hok hr ht).2 hne,
    ⟨rfl, (hcreate 0 rfl).2 (.inl rfl)⟩, rfl, (huser 0 0 rfl).2 (.inl (.inl rfl))⟩

/-! ## A directory that is left -/

/-- The user task `p` was launched, so that the idle task `b` is running too, and has made the kernel
tasks `q₁` and `q₂`, which have its directory `d`. -/
structure Launched (F : UInt32 → Prop) (s : Sched) (L : List Owned) (p b q₁ q₂ d : UInt32)
    (xs : List UInt32) : Prop where
  life : Life 0x102000 0x101000 p F s L
  inv : SchedInv s L [q₂, q₁, p, b] [] xs
  task : s.currentTask = p
  idle : s.idleTask = b
  running : ∀ u ∈ [p, b], s.get u .state = TaskState.running.code
  ready : ∀ u ∈ [q₂, q₁], s.get u .state = TaskState.ready.code
  dir : ∀ u ∈ [q₂, p], s.get u .pageDirectory = d
  ne_zero : d ≠ 0

/-- What a kernel task that the current one makes does to the words of the others. -/
theorem SchedInv.created_words (h : SchedInv s L ts zs xs) {x y : UInt32}
    (hc : Created s L (x :: y :: ys) o s' ys) {u : UInt32} (hu : u ∈ ts ++ zs) (f : Field) :
    s'.get u f = s.get u f := by
  obtain ⟨o', ho', rfl⟩ := h.entry hu
  exact hc.old.get ho' f

theorem small_launched : ∃ F s L p b q₁ q₂ d xs, Launched F s L p b q₁ q₂ d xs := by
  obtain ⟨s₀, b, q, xs, h₀, hlen⟩ := small_turn Sched.ReapsOwn
  obtain ⟨x₁, x₂, x₃, x₄, x₅, x₆, x₇, xs, rfl⟩ := seven_pages (show 7 ≤ xs.length by omega)
  have hone : (1 : UInt32) ≠ 0 := by decide
  have hrun : ∀ {s : Sched} {u : UInt32}, s.currentTask = u →
      s.get u .state = TaskState.running.code → s.hasState s.currentTask .running = true :=
    fun e h => by rw [e]; exact hasState_iff.2 h
  obtain ⟨hr, hrec, h₁⟩ := h₀.taskCreateUser hone hone
  have hlife := Life.create 1 1 h₀.reach (hrun h₀.task h₀.running) hr (h₀.room x₁ (by simp))
  rw [hrec] at hlife
  have hroom := h₁.room
  generalize (s₀.taskCreateUser 1 1).2 = s₁, indexToAddr x₁ = p, indexToAddr x₂ = k,
    indexToAddr x₃ = d at *
  -- the launch
  have hp : p ∈ [p, b] := List.mem_cons_self
  have hinv₁ : SchedInv s₁ _ [p, b] [] _ := h₁.inv
  have huser : s₁.isUserTask p = true := by
    rw [Sched.isUserTask, (hinv₁.tasks.ok _ List.mem_cons_self).user]
    rfl
  have hcur : s₁.currentTask = s₁.idleTask := h₁.task.trans h₁.idle.symm
  have hlife := hlife.aside (.launch (hrun h₁.task h₁.running) hcur (hinv₁.onList_iff.2 hp) huser)
  have hinv₂ := hinv₁.launch hcur hp (hrun h₁.task h₁.running)
  have hword₂ := fun u hu => hinv₁.launch_words hp (u := u) hu
  obtain ⟨hpd, hd0⟩ := h₁.dir (p, d) (by simp)
  obtain ⟨htask₂, hidle₂, hcd₂⟩ := launch_vars (hinv₁.aligned (List.mem_append_left _ hp)) hpd hd0
  generalize s₁.launch p = s₂ at *
  -- two kernel tasks under its directory
  have hrun₂ : s₂.get p .state = TaskState.running.code :=
    (hword₂ p (by simp) .state).trans (if_pos ⟨rfl, rfl⟩)
  obtain ⟨hr₃, -, hc₃⟩ := hinv₂.core.taskCreate_pages (hroom x₄ (by simp)) (hroom x₅ (by simp)) hone
  have hlife := hlife.aside (.create 1 (hrun htask₂ hrun₂))
  rw [record_created hc₃ hr₃] at hlife
  have hinv₃ := hinv₂.created hc₃
  have hword₃ := fun u hu => hinv₂.created_words hc₃ (u := u) hu
  have htask₃ := hc₃.old.current.trans htask₂
  have hcd₃ := hc₃.old.directory.trans hcd₂
  have hstate₃ := hc₃.state
  have hidle₃ := hc₃.old.idle.trans hidle₂
  generalize (s₂.taskCreate 1).2 = s₃, indexToAddr x₄ = q₁ at *
  have hrun₃ : s₃.get p .state = TaskState.running.code := (hword₃ p (by simp) .state).trans hrun₂
  obtain ⟨hr₄, hpd₄, hc₄⟩ :=
    hinv₃.core.taskCreate_pages (hroom x₆ (by simp)) (hroom x₇ (by simp)) hone
  have hlife := hlife.aside (.create 1 (hrun htask₃ hrun₃))
  rw [record_created hc₄ hr₄] at hlife
  have hword₄ := fun u hu => hinv₃.created_words hc₄ (u := u) hu
  refine ⟨_, _, _, p, b, q₁, indexToAddr x₆, d, xs, hlife, hinv₃.created hc₄,
    hc₄.old.current.trans htask₃, (hc₄.old.idle.trans hidle₃).trans h₁.idle, fun u hu => ?_,
    fun u hu => ?_, fun u hu => ?_, hd0⟩
  · rcases List.mem_cons.1 hu with rfl | hu
    · rw [hword₄ u (by simp)]
      exact hrun₃
    · obtain rfl := List.mem_singleton.1 hu
      rw [hword₄ u (by simp), hword₃ u (by simp), hword₂ u (by simp)]
      split
      · rfl
      · exact h₁.running
  · rcases List.mem_cons.1 hu with rfl | hu
    · exact hc₄.state
    · obtain rfl := List.mem_singleton.1 hu
      rw [hword₄ u (by simp)]
      exact hstate₃
  · rcases List.mem_cons.1 hu with rfl | hu
    · exact hpd₄.trans hcd₃
    · obtain rfl := List.mem_singleton.1 hu
      rw [hword₄ u (by simp), hword₃ u (by simp), hword₂ u (by simp), if_neg (by simp), hpd]

/-- The task exits, and one of the kernel tasks reaps it under the directory. -/
theorem Launched.stranded {p b q₁ q₂ d : UInt32} (h : Launched F s L p b q₁ q₂ d xs) :
    ∃ G s' r, Life 0x102000 0x101000 p G s' L ∧ s'.ReapsOwn ∧ s'.schedule 1 0 = some r ∧
      p ∈ r.reaped.map Prod.fst ∧ s'.get p .pageDirectory = s'.vmm.currentDirectory := by
  have hnd : [q₂, q₁, p, b].Nodup := by simpa using h.inv.nodup
  simp only [List.nodup_cons, List.mem_cons, List.not_mem_nil, or_false, not_or] at hnd
  obtain ⟨⟨h21, h2p, h2b⟩, ⟨h1p, h1b⟩, hpb, -⟩ := hnd
  have hrun : s.hasState s.currentTask .running = true := by
    rw [h.task]
    exact hasState_iff.2 (h.running p (by simp))
  have hidle : s.currentTask ≠ s.idleTask := by
    rw [h.task, h.idle]
    exact hpb
  have hlife := h.life.aside (.exit hrun hidle)
  obtain ⟨hinv, heq⟩ := h.inv.markTerminated
  have hok := h.inv.reapsOwn_exit
  have hget : ∀ u ∈ [q₂, q₁, p, b], ∀ f, s.markTerminated.get u f =
      if u = p ∧ f = .state then TaskState.terminated.code else s.get u f := fun u hu f => by
    rw [heq, h.task]
    exact get_set (h.inv.aligned (by simp)) (h.inv.aligned (List.mem_append_left _ hu))
  have hcur₁ : s.markTerminated.currentTask = p := by
    rw [heq]
    exact h.task
  have hidle₁ : s.markTerminated.idleTask = b := by
    rw [heq]
    exact h.idle
  generalize s.markTerminated = s₁ at *
  -- the idle task is not ready, so the call goes to `q₂`
  obtain rfl := hcur₁
  have hinv : SchedInv s₁ L ([q₂, q₁] ++ s₁.currentTask :: [b]) [] xs := hinv
  have hfirst : s₁.firstReady ([b] ++ [q₂, q₁]) = q₂ := by
    have hb : s₁.hasState b .ready = false := by
      rw [Sched.hasState, hget b (by simp), if_neg fun e => hpb e.1.symm, h.running b (by simp)]
      rfl
    have hq : s₁.hasState q₂ .ready = true := by
      rw [hasState_iff, hget q₂ (by simp), if_neg fun e => h2p e.1, h.ready q₂ (by simp)]
    simp [Sched.firstReady, hb, hq]
  obtain ⟨s₂, hcall, hinv₂, hsw, -, hwords⟩ := hinv.schedule_exit
    ((hget _ (by simp) .state).trans (if_pos ⟨rfl, rfl⟩)) (hidle₁ ▸ hpb)
    (show [q₂, q₁].length < 3 from Nat.lt_succ_self 2) 0
  rw [hfirst] at hsw
  have hlife := hlife.call hok hcall
  have hdir : ∀ u ∈ [q₂, s₁.currentTask], s₂.get u .pageDirectory = d := fun u hu => by
    rw [hwords u (by simp at hu ⊢; tauto) _ (by simp) (by simp), hget u (by simp at hu ⊢; tauto),
      if_neg (by simp), h.dir u hu]
  have hpd : s₂.get s₁.currentTask .pageDirectory = s₂.vmm.currentDirectory := by
    rw [hsw.directory (hdir q₂ (by simp) ▸ h.ne_zero), hdir q₂ (by simp), hdir _ (by simp)]
  -- `q₁` is ready, so `q₂` reaps
  have hinv₂ : SchedInv s₂ L ([] ++ s₂.currentTask :: [q₁, b]) [s₁.currentTask] xs := by
    rw [hsw.current]
    exact hinv₂
  have hready : s₂.hasState q₁ .ready = true := by
    rw [hasState_iff, hsw.states q₁ (by simp) (Ne.symm h21), if_neg h1p, hget q₁ (by simp),
      if_neg fun e => h1p e.1, h.ready q₁ (by simp)]
  have hn : s₂.findNext = some q₁ := by
    rw [hinv₂.findNext_eq]
    simp [hready]
  have hz : ∀ z ∈ [s₁.currentTask], s₂.Reapable z := fun z hz => by
    rw [List.mem_singleton.1 hz]
    exact .inl hpd
  obtain ⟨log, s₃, ys, hcall, hreap, -⟩ := hinv₂.schedule_switch (hsw.current ▸ hsw.running) hn hz
    (Nat.le_refl 1) 0
  refine ⟨_, s₂, _, hlife, fun _ _ z hzombie => hz z (hinv₂.zombie_iff.1 hzombie), hcall, ?_, hpd⟩
  rw [hreap.tasks]
  exact List.mem_singleton_self _

/-- The directory of the user task is lost. -/
theorem task_loses_directory : ∃ t F s L r, Life 0x102000 0x101000 t F s L ∧
    s.schedule 1 0 = some r ∧ t ∈ r.reaped.map Prod.fst ∧ ¬ Refunds F t r := by
  obtain ⟨F, s, L, p, b, q₁, q₂, d, xs, h⟩ := small_launched
  obtain ⟨G, s', r, hlife, hok, hr, hp, hpd⟩ := h.stranded
  exact ⟨p, G, s', L, r, hlife, hr, hp, fun hrefund =>
    (hlife.refunds_iff Vmm.smallLayout hok hr hp).1 hrefund hpd⟩

end

end HaoSys.Proc
