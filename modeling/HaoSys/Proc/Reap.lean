import HaoSys.Proc.Load

/-!
# Freeing zombies

`free_task` for a task of the ledger. The registered user pages are unmapped
and freed one by one, so the loop is an induction over them; then the stack,
the directory and the `task_t`. What is freed is the task's own as long as the
directory is not the kernel's and has no table of the kernel's behind the bound
of the scan, or is not destroyed at all (`Reapable`). The loop of
`reap_zombies` is an induction over the list of zombies.
-/

namespace HaoSys.Proc

open HaoSys.Lib HaoSys.Mm

section

variable {s s' : Sched} {L M : List Owned} {ts zs xs ys gone : List UInt32} {o : Owned}
  {v w : Vmm} {b k d t : UInt32} {q : UInt32 × UInt32} {qs : List (UInt32 × UInt32)}

/-! ## The user pages -/

theorem Core.head_mapped (h : Core v (⟨b, k, some d, qs⟩ :: M) xs) (hq : q ∈ qs) :
    Mapped v d q ∧ v.Fresh (dirs (⟨b, k, some d, qs⟩ :: M)) xs q.2 := by
  obtain ⟨d', hd, hm⟩ := h.maps _ List.mem_cons_self q hq
  cases hd
  refine ⟨hm, h.fresh _ (mem_held List.mem_cons_self ?_)⟩
  simp only [Owned.held, List.mem_cons]
  exact .inr (.inr (List.mem_map_of_mem hq))

/-- Registered pages are at different addresses. -/
theorem Core.virt_ne (h : Core v (⟨b, k, some d, q :: qs⟩ :: M) xs) {p : UInt32 × UInt32}
    (hp : p ∈ qs) : pageOf p.1 ≠ pageOf q.1 := by
  obtain ⟨hmq, -⟩ := h.head_mapped List.mem_cons_self
  obtain ⟨hmp, -⟩ := h.head_mapped (List.mem_cons_of_mem _ hp)
  intro e
  have hv : p.1 = q.1 := by
    rw [← frameOf_eq_self hmp.aligned, ← frameOf_eq_self hmq.aligned]
    exact e
  have hphys : p.2 = q.2 := by
    have := hmp.translate
    rw [hv, hmq.translate] at this
    exact (Option.some.inj this).symm
  have hnd := h.heldNodup
  simp only [held, List.flatMap_cons, Owned.held, List.map_cons, List.cons_append,
    List.nodup_cons] at hnd
  exact hnd.2.2.1 (List.mem_append_left _ (hphys ▸ List.mem_map_of_mem hp))

/-- What a step of `free_task` on the entry of a task may touch: its pages, and the tables of its
directory. -/
def OwnPages (v : Vmm) (d : UInt32) (ps gone : List UInt32) : Prop :=
  ∀ a ∈ gone, a ∈ ps ∨ ∃ j, tableOf v.mem d j = some a

/-- A registered page that is unmapped leaves the ledger. -/
theorem Core.unmapUser (h : Core v (⟨b, k, some d, q :: qs⟩ :: M) xs) :
    Core (v.vmmUnmapPage d q.1).2 (⟨b, k, some d, qs⟩ :: M) xs ∧
      v.KeepsOff xs (v.vmmUnmapPage d q.1).2 xs
        (tableOf v.mem d (pdIndex q.1)).toList ∧
      (v.vmmUnmapPage d q.1).2.currentDirectory = v.currentDirectory ∧
      (v.vmmUnmapPage d q.1).2.Fresh (dirs (⟨b, k, some d, qs⟩ :: M)) xs q.2 := by
  have hd : d ∈ v.kernelPageDirectory :: dirs (⟨b, k, some d, q :: qs⟩ :: M) :=
    List.mem_cons_of_mem _ (mem_dirs List.mem_cons_self rfl)
  have hk : v.kernelPageDirectory ∈
      v.kernelPageDirectory :: dirs (⟨b, k, some d, q :: qs⟩ :: M) := List.mem_cons_self
  obtain ⟨hm, hf⟩ := h.head_mapped List.mem_cons_self
  obtain ⟨he, hcur, htab⟩ := h.inv.evolves_unmap hd q.1
  have herase := (h.inv.vmmUnmapPage_erases hd q.1).2
  have hgone : ∀ a ∈ (tableOf v.mem d (pdIndex q.1)).toList,
      tableOf v.mem d (pdIndex q.1) = some a := fun a ha => by simpa using ha
  have hfresh : ∀ p, v.Fresh (dirs (⟨b, k, some d, q :: qs⟩ :: M)) xs p →
      (v.vmmUnmapPage d q.1).2.Fresh (dirs (⟨b, k, some d, q :: qs⟩ :: M)) xs p :=
    fun p hp => he.fresh p hp fun hmem => hp.notTable d hd _ (hgone p hmem)
  have hdir : ∀ d' ∈ v.kernelPageDirectory :: dirs (⟨b, k, some d, q :: qs⟩ :: M),
      d' ∉ (tableOf v.mem d (pdIndex q.1)).toList :=
    fun d' hd' hmem => (h.inv.table d hd _ d' (hgone d' hmem)).2 hd'
  have hheld : (held (⟨b, k, some d, qs⟩ :: M)).Sublist (held (⟨b, k, some d, q :: qs⟩ :: M)) := by
    simp only [held, List.flatMap_cons, Owned.held, List.map_cons]
    exact (((List.sublist_cons_self _ _).cons_cons k).cons_cons b).append_right _
  refine ⟨⟨he.inv, h.dirsNodup, h.heldNodup.sublist hheld,
    fun p hp => hfresh p (h.fresh p (hheld.subset hp)), fun o ho p hp => ?_,
    fun _ _ => h.scan_of_keeps he.keeps (hdir _ hk)⟩, he.keeps, hcur, hfresh _ hf⟩
  rcases List.mem_cons.1 ho with rfl | ho
  · -- the task's other pages
    obtain ⟨hmp, -⟩ := h.head_mapped (List.mem_cons_of_mem q hp)
    refine ⟨d, rfl, hmp.aligned, ?_, ?_⟩
    · rw [herase, erasePage, if_neg (h.virt_ne hp), hmp.translate]
    · rw [he.keeps.boot.1, htab d hd, htab _ hk]
      exact hmp.own
  · obtain ⟨d', hd', hmp⟩ := h.maps o (List.mem_cons_of_mem _ ho) p hp
    have hmem := mem_dirs ho hd'
    have hne : d' ≠ d := by
      rintro rfl
      exact (List.nodup_cons.1 h.dirsNodup).1 hmem
    have hmem' := List.mem_cons_of_mem v.kernelPageDirectory (List.mem_cons_of_mem d hmem)
    refine ⟨d', hd', hmp.of_keeps he.keeps (h.inv.dir d' hmem').2 (hdir d' hmem')
      (h.inv.dir _ hk).2 (hdir _ hk) fun u hu hku => ?_⟩
    have hnot : u ∉ d :: (tableOf v.mem d (pdIndex q.1)).toList :=
      (h.table_not_written hd hmem' hne hu hku).2
    exact ⟨(h.inv.table d' hmem' _ u hu).1, fun hmem => hnot (List.mem_cons_of_mem _ hmem)⟩

/-- One turn of the loop. -/
theorem Core.releasePage (h : Core v (⟨b, k, some d, q :: qs⟩ :: M) xs) :
    v.vmmGetPhysAddr d q.1 = q.2 ∧ q.2 ≠ 0 ∧
      ∃ ys gone, Core ((v.vmmUnmapPage d q.1).2.freePage q.2) (⟨b, k, some d, qs⟩ :: M) ys ∧
        v.KeepsOff xs ((v.vmmUnmapPage d q.1).2.freePage q.2) ys gone ∧
        ((v.vmmUnmapPage d q.1).2.freePage q.2).currentDirectory = v.currentDirectory ∧
        OwnPages v d [q.2] gone ∧ Vmm.GivesBack v.pmm.totalPages [q.2] xs ys := by
  obtain ⟨hm, hf⟩ := h.head_mapped List.mem_cons_self
  obtain ⟨hcore, hkeep, hcur, hfresh⟩ := h.unmapUser
  obtain ⟨ys, he, hback⟩ := hcore.inv.evolves_free hfresh
  rw [hkeep.boot.2.1.2] at hback
  have hd : d ∈ dirs (⟨b, k, some d, q :: qs⟩ :: M) := mem_dirs List.mem_cons_self rfl
  refine ⟨?_, hf.ne_zero, ys, _, ?_, hkeep.trans he.keeps, hcur, fun a ha => ?_, hback⟩
  · unfold Vmm.vmmGetPhysAddr
    rw [if_neg (h.inv.dir d (List.mem_cons_of_mem _ hd)).1, hm.translate]
    rfl
  · refine hcore.of_evolves_fresh he (fun p hp => ?_) fun p hp hg => ?_
    · rw [List.mem_singleton.1 hp]
      exact hfresh
    · -- the page was registered once
      have hnd := h.heldNodup
      rw [List.mem_singleton.1 hg] at hp
      simp only [held, List.flatMap_cons, Owned.held, List.map_cons, List.cons_append] at hnd hp
      grind
  · rcases List.mem_append.1 ha with ha | ha
    · exact .inr ⟨_, by simpa using ha⟩
    · exact .inl ha

/-- What is touched is no directory, and no page of the ledger but the ones named. -/
theorem Core.own_not_dir (h : Core v (⟨b, k, some d, qs⟩ :: M) xs) {ps : List UInt32}
    (hown : OwnPages v d ps gone) (hps : ∀ p ∈ ps, v.Fresh (dirs (⟨b, k, some d, qs⟩ :: M)) xs p)
    {d' : UInt32} (hd' : d' ∈ v.kernelPageDirectory :: dirs (⟨b, k, some d, qs⟩ :: M)) :
    d' ∉ gone := fun hm => by
  rcases hown d' hm with hp | ⟨j, ht⟩
  · exact (hps d' hp).notDir hd'
  · exact (h.inv.table d (List.mem_cons_of_mem _ (mem_dirs List.mem_cons_self rfl)) j d' ht).2 hd'

theorem Core.own_not_held (h : Core v (⟨b, k, some d, qs⟩ :: M) xs) {ps : List UInt32}
    (hown : OwnPages v d ps gone) {p : UInt32} (hp : p ∈ held (⟨b, k, some d, qs⟩ :: M))
    (hps : p ∉ ps) : p ∉ gone := fun hm => by
  rcases hown p hm with hp' | ⟨j, ht⟩
  · exact hps hp'
  · exact (h.fresh p hp).notTable d (List.mem_cons_of_mem _ (mem_dirs List.mem_cons_self rfl)) j ht

/-- The loop frees the registered pages, whose addresses stand in the task's words from `i` on. -/
theorem Core.freeUserPages :
    ∀ {qs : List (UInt32 × UInt32)} {n i : Nat} {v : Vmm} {xs : List UInt32},
      Core v (⟨b, k, some d, qs⟩ :: M) xs →
      (entryAt v.mem b Field.userVirtCount.index).toNat = i + qs.length → i + qs.length ≤ 96 →
      qs.length ≤ n →
      (∀ (j : Fin 96) p, i ≤ j.val → qs[j.val - i]? = some p →
        entryAt v.mem b (Field.userVirtPage j).index = p.1) →
      ∃ w ys gone, Sched.freeUserPages b d n i v = (qs.map Prod.snd, w) ∧
        Core w (⟨b, k, some d, []⟩ :: M) ys ∧ v.KeepsOff xs w ys gone ∧
        w.currentDirectory = v.currentDirectory ∧ OwnPages v d (qs.map Prod.snd) gone ∧
        Vmm.GivesBack v.pmm.totalPages (qs.map Prod.snd) xs ys := by
  intro qs
  induction qs with
  | nil =>
    intro n i v xs h hcount _ _ _
    refine ⟨v, xs, [], ?_, h, .refl v xs, rfl, fun a ha => absurd ha List.not_mem_nil, .refl _ xs⟩
    cases n with
    | zero => rfl
    | succ n =>
      unfold Sched.freeUserPages
      rw [dif_neg]
      · rfl
      · rw [hcount, List.length_nil]
        omega
  | cons q qs ih =>
    intro n i v xs h hcount hlen hn hvirt
    rw [List.length_cons] at hcount hlen hn
    obtain ⟨n, rfl⟩ : ∃ m, n = m + 1 := ⟨n - 1, by omega⟩
    have hi : i < (entryAt v.mem b Field.userVirtCount.index).toNat ∧ i < 96 := by omega
    have hq : entryAt v.mem b (Field.userVirtPage ⟨i, hi.2⟩).index = q.1 :=
      hvirt ⟨i, hi.2⟩ q (Nat.le_refl i) (by simp)
    obtain ⟨hphys, hne, ys, gone, hcore, hkeep, hcur, hown, hback⟩ := h.releasePage
    have hps : ∀ p ∈ [q.2], v.Fresh (dirs (⟨b, k, some d, q :: qs⟩ :: M)) xs p := fun p hp => by
      rw [List.mem_singleton.1 hp]
      exact (h.head_mapped List.mem_cons_self).2
    have hdmem : d ∈ v.kernelPageDirectory :: dirs (⟨b, k, some d, q :: qs⟩ :: M) :=
      List.mem_cons_of_mem _ (mem_dirs List.mem_cons_self rfl)
    -- the `task_t` is not touched
    have hb : b ∉ gone := h.own_not_held hown (pcb_mem_held List.mem_cons_self) fun hm => by
      have hnd := h.heldNodup
      simp only [held, List.flatMap_cons, Owned.held, List.map_cons, List.cons_append,
        List.nodup_cons] at hnd
      exact hnd.1 (by simp [List.mem_singleton.1 hm])
    have hbin := (h.fresh b (pcb_mem_held List.mem_cons_self)).inUse
    have hword := fun f => hkeep.entry b hbin hb (Field.index f) (Field.index_lt f)
    obtain ⟨w, zs, more, hrun, hcore', hkeep', hcur', hown', hback'⟩ := ih (n := n) (i := i + 1) hcore
      (by rw [hword, hcount]; omega) (by omega) (by omega) fun j p hj hp => by
        rw [hword]
        refine hvirt j p (by omega) ?_
        rw [show j.val - i = (j.val - (i + 1)) + 1 by omega]
        exact hp
    rw [hkeep.boot.2.1.2] at hback'
    refine ⟨w, zs, _, ?_, hcore', hkeep.trans hkeep', hcur'.trans hcur, fun a ha => ?_,
      hback.trans hback'⟩
    · unfold Sched.freeUserPages
      rw [dif_pos hi]
      simp only [hq, hphys, if_neg hne, hrun]
      rfl
    · rw [List.map_cons]
      rcases List.mem_append.1 ha with ha | ha
      · exact (hown a ha).imp_left fun hm => by simp [List.mem_singleton.1 hm]
      · refine (hown' a ha).imp (List.mem_cons_of_mem _) fun htable => ?_
        obtain ⟨j, ht⟩ := htable
        rw [hkeep.tableOf (h.inv.dir d hdmem).2 (h.own_not_dir hown hps hdmem)] at ht
        exact ⟨j, ht⟩

/-! ## A task leaves the ledger -/

/-- A task's directory and the tables only that holds. -/
def OwnPaging (v : Vmm) (L : List Owned) (o : Owned) (a : UInt32) : Prop :=
  ∃ d, o.dir = some d ∧ (a = d ∨ v.Private (dirs L) d a)

/-- The pages allocated for a task: its `task_t`, its kernel stack, its registered user pages, its
directory and its private tables. -/
def Own (v : Vmm) (L : List Owned) (o : Owned) (a : UInt32) : Prop :=
  a ∈ o.held ∨ OwnPaging v L o a

theorem Core.head_not_held (h : Core v (o :: M) xs) {p : UInt32} (hp : p ∈ held M) :
    p ∉ o.held := by
  intro hm
  have hnd := h.heldNodup
  rw [held, List.flatMap_cons, List.nodup_append] at hnd
  exact hnd.2.2 p hm p hp rfl

theorem Core.head_not_dir (h : Core v (o :: M) xs) (hd : o.dir = some d) : d ∉ dirs M := by
  have hnd := h.dirsNodup
  unfold dirs at hnd
  rw [List.filterMap_cons, hd] at hnd
  exact (List.nodup_cons.1 hnd).1

theorem dirs_subset_cons (o : Owned) (M : List Owned) : dirs M ⊆ dirs (o :: M) :=
  (dirs_sublist (List.sublist_cons_self o M)).subset

/-- What is a task's own is no page, no directory and no table of the others. -/
theorem Core.own_not_others (h : Core v (o :: M) xs) {a : UInt32} (ha : Own v (o :: M) o a) :
    a ∉ held M ∧ a ∉ v.kernelPageDirectory :: dirs M ∧
      ∀ d' ∈ v.kernelPageDirectory :: dirs M, ∀ j, tableOf v.mem d' j ≠ some a := by
  have hsub : v.kernelPageDirectory :: dirs M ⊆ v.kernelPageDirectory :: dirs (o :: M) :=
    List.cons_subset_cons _ (dirs_subset_cons o M)
  rcases ha with ha | ⟨d, hd, rfl | hp⟩
  · have hf := h.fresh a (mem_held List.mem_cons_self ha)
    exact ⟨fun hm => h.head_not_held hm ha, fun hm => hf.notDir (hsub hm),
      fun d' hd' => hf.notTable d' (hsub hd')⟩
  · have hmem := mem_dirs (L := o :: M) List.mem_cons_self hd
    refine ⟨fun hm => ?_, fun hm => ?_, fun d' hd' j ht => ?_⟩
    · exact (h.fresh a (held_sublist (List.sublist_cons_self o M) |>.subset hm)).notDir
        (List.mem_cons_of_mem _ hmem)
    · rcases List.mem_cons.1 hm with e | hm
      · exact h.inv.kernel (e ▸ hmem)
      · exact h.head_not_dir hd hm
    · exact (h.inv.table d' (hsub hd') j a ht).2 (List.mem_cons_of_mem _ hmem)
  · have hmem := List.mem_cons_of_mem v.kernelPageDirectory
      (mem_dirs (L := o :: M) List.mem_cons_self hd)
    obtain ⟨⟨i, hi⟩, hother⟩ := hp
    refine ⟨fun hm => ?_, fun hm => (h.inv.table d hmem i a hi).2 (hsub hm), fun d' hd' => ?_⟩
    · exact (h.fresh a (held_sublist (List.sublist_cons_self o M) |>.subset hm)).notTable d hmem i hi
    · refine hother d' (hsub hd') ?_
      rintro rfl
      rcases List.mem_cons.1 hd' with e | hd'
      · exact h.inv.kernel (e ▸ mem_dirs List.mem_cons_self hd)
      · exact h.head_not_dir hd hd'

theorem Core.held_not_paging (h : Core v L xs) (ho : o ∈ L) {p : UInt32} (hp : p ∈ held L) :
    ¬ OwnPaging v L o p := by
  rintro ⟨d, hd, rfl | ⟨⟨i, hi⟩, -⟩⟩
  · exact (h.fresh p hp).notDir (List.mem_cons_of_mem _ (mem_dirs ho hd))
  · exact (h.fresh p hp).notTable d (List.mem_cons_of_mem _ (mem_dirs ho hd)) i hi

/-- A table is a task's own unless the kernel's directory holds it. -/
theorem Core.own_iff (h : Core v L xs) (ho : o ∈ L) {a : UInt32} :
    Own v L o a ↔ a ∈ o.held ∨ ∃ d, o.dir = some d ∧
      (a = d ∨ ∃ i, tableOf v.mem d i = some a ∧ tableOf v.mem v.kernelPageDirectory i ≠ some a) := by
  refine or_congr_right (exists_congr fun d => and_congr_right fun hd => or_congr_right ?_)
  constructor
  · rintro ⟨⟨i, hi⟩, hother⟩
    exact ⟨i, hi, hother _ List.mem_cons_self (fun e => h.inv.kernel (e ▸ mem_dirs ho hd)) i⟩
  · rintro ⟨i, hi, hk⟩
    exact ⟨⟨i, hi⟩,
      h.inv.sharing.private_of_ne (List.mem_cons_of_mem _ (mem_dirs ho hd)) hi hk⟩

/-- A task whose own pages are given back leaves the ledger. -/
theorem Core.leave (h : Core v (o :: M) xs)
    (he : v.Evolves (dirs (o :: M)) xs w (dirs M) ys gone)
    (hgone : ∀ a ∈ gone, Own v (o :: M) o a) : Core w M ys := by
  refine h.of_evolves (List.sublist_cons_self o M) he (fun p hp => he.fresh p
    (h.fresh p (held_sublist (List.sublist_cons_self o M) |>.subset hp)) fun hg => ?_)
    (fun d hd hg => ?_) fun d hd j t ht _ hg => ?_
  · exact (h.own_not_others (hgone p hg)).1 hp
  · exact (h.own_not_others (hgone d hg)).2.1 hd
  · exact (h.own_not_others (hgone t hg)).2.2 d (List.mem_cons_of_mem _ hd) j ht

/-- The words of the kernel's directory and of `d` decide whether tables are shared. -/
theorem unshared_of_keeps (hk : v.KeepsOff xs w ys gone) (hd : v.pmm.InUse xs d ∧ d ∉ gone)
    (hkd : v.pmm.InUse xs v.kernelPageDirectory ∧ v.kernelPageDirectory ∉ gone)
    (hu : v.Unshared d) : w.Unshared d := by
  have hpdes : w.kernelPdes = v.kernelPdes := by
    rw [Vmm.kernelPdes, Vmm.kernelPdes, hk.boot.2.2]
  intro i t hge ht
  rw [hpdes] at hge
  rw [hk.tableOf hd.1 hd.2] at ht
  rw [hk.boot.1, hk.tableOf hkd.1 hkd.2]
  exact hu i t hge ht

/-- And of every directory, whether one is private. -/
theorem private_of_keeps {ds : List UInt32} (hk : v.KeepsOff xs w ys gone)
    (hds : ∀ d' ∈ v.kernelPageDirectory :: ds, v.pmm.InUse xs d' ∧ d' ∉ gone)
    (hd : d ∈ v.kernelPageDirectory :: ds) {a : UInt32} : w.Private ds d a ↔ v.Private ds d a := by
  have htab : ∀ d' ∈ v.kernelPageDirectory :: ds, ∀ i, tableOf w.mem d' i = tableOf v.mem d' i :=
    fun d' hd' i => hk.tableOf (hds d' hd').1 (hds d' hd').2
  unfold Vmm.Private
  rw [hk.boot.1]
  simp only [htab d hd]
  refine and_congr_right fun _ => forall₂_congr fun d' hd' => ?_
  simp only [htab d' hd']

/-- The registered pages of a task, before the rest. -/
theorem Core.freePages (h : Core s.vmm (o :: M) xs) (hok : TaskOk s o) (dir : UInt32)
    (hdir : ∀ d, o.dir = some d → dir = d) :
    ∃ w ys gone, Sched.freeUserPages o.pcb dir 96 0 s.vmm = (o.maps.map Prod.snd, w) ∧
      Core w ({ o with maps := [] } :: M) ys ∧ s.vmm.KeepsOff xs w ys gone ∧
      w.currentDirectory = s.vmm.currentDirectory ∧
      (∀ p ∈ held ({ o with maps := [] } :: M), p ∉ gone) ∧
      (∀ d ∈ s.vmm.kernelPageDirectory :: dirs (o :: M), d ∉ gone) ∧
      Vmm.GivesBack s.vmm.pmm.totalPages (o.maps.map Prod.snd) xs ys := by
  obtain ⟨b, k, od, qs⟩ := o
  cases od with
  | none =>
    -- a kernel task has none
    have hqs : qs = [] := by
      cases qs with
      | nil => rfl
      | cons q qs =>
        obtain ⟨d, hd, -⟩ := h.maps _ List.mem_cons_self q List.mem_cons_self
        cases hd
    subst hqs
    have hcount : (entryAt s.vmm.mem b Field.userVirtCount.index).toNat = 0 := hok.count
    refine ⟨s.vmm, xs, [], ?_, h, .refl _ _, rfl, fun _ _ => List.not_mem_nil,
      fun _ _ => List.not_mem_nil, .refl _ xs⟩
    unfold Sched.freeUserPages
    rw [dif_neg]
    · rfl
    · rw [hcount]
      omega
  | some d =>
    obtain rfl := hdir d rfl
    have hcount : (entryAt s.vmm.mem b Field.userVirtCount.index).toNat = 0 + qs.length := by
      rw [Nat.zero_add]
      exact hok.count
    obtain ⟨w, ys, gone, hrun, hcore, hkeep, hcur, hown, hback⟩ := h.freeUserPages (n := 96) hcount
      (by rw [Nat.zero_add]; exact hok.bound) hok.bound fun j p _ hp => hok.virt j p hp
    have hfresh : ∀ p ∈ qs.map Prod.snd, s.vmm.Fresh (dirs (⟨b, k, some dir, qs⟩ :: M)) xs p := by
      intro p hp
      obtain ⟨q, hq, rfl⟩ := List.mem_map.1 hp
      exact (h.head_mapped hq).2
    refine ⟨w, ys, gone, hrun, hcore, hkeep, hcur, fun p hp => ?_, fun d' hd' =>
      h.own_not_dir hown hfresh hd', hback⟩
    have hnd := h.heldNodup
    simp only [held, List.flatMap_cons, Owned.held, List.cons_append, List.map_nil,
      List.nil_append] at hp hnd
    refine h.own_not_held hown ?_ ?_
    · simp only [held, List.flatMap_cons, Owned.held, List.cons_append]
      grind
    · grind

/-- The directory of a task whose stack may be free already. -/
theorem Core.freeDir (h : Core v (o :: M) xs) (hd : o.dir = some d) (hu : v.Unshared d)
    (he : v.Evolves (dirs (o :: M)) xs w (dirs (o :: M)) ys gone)
    (hg : ∀ a ∈ gone, v.Fresh (dirs (o :: M)) xs a) :
    (∃ zs, w.Evolves (dirs (o :: M)) ys (w.vmmDestroyDirectory d).2 (dirs M) zs
      (w.vmmDestroyDirectory d).1 ∧
      Vmm.GivesBack w.pmm.totalPages (w.vmmDestroyDirectory d).1 ys zs) ∧
      ∀ a, a ∈ (w.vmmDestroyDirectory d).1 ↔ OwnPaging v (o :: M) o a := by
  have hmem := mem_dirs (L := o :: M) List.mem_cons_self hd
  have hkeep : ∀ d' ∈ v.kernelPageDirectory :: dirs (o :: M), v.pmm.InUse xs d' ∧ d' ∉ gone :=
    fun d' hd' => ⟨(h.inv.dir d' hd').2, fun hm => (hg d' hm).notDir hd'⟩
  have hmem' := List.mem_cons_of_mem v.kernelPageDirectory hmem
  have hu' := unshared_of_keeps he.keeps (hkeep d hmem') (hkeep _ List.mem_cons_self) hu
  refine ⟨he.inv.evolves_destroy hmem hu' (dirs_subset_cons o M) (h.head_not_dir hd),
    fun a => ?_⟩
  rw [he.inv.mem_vmmDestroyDirectory (he.keeps.boot.1.symm ▸ hmem')]
  constructor
  · rintro (rfl | ⟨i, hi⟩)
    · exact ⟨a, hd, .inl rfl⟩
    · exact ⟨d, hd, .inr ((private_of_keeps he.keeps hkeep hmem').1
        (he.inv.private_of_ownTable hmem hu' hi))⟩
  · rintro ⟨d', hd', hp⟩
    obtain rfl := Option.some.inj (hd.symm.trans hd')
    exact hp.imp id fun hp =>
      he.inv.ownTable_of_private hmem ((private_of_keeps he.keeps hkeep hmem').2 hp)

/-- Whether `free_task` keeps to what the task owns: the directory is not destroyed, since it is
the current one, or it is a user task's and shares no table behind the bound of the scan. -/
def Sched.Reapable (s : Sched) (task : UInt32) : Prop :=
  s.get task .pageDirectory = s.vmm.currentDirectory ∨
    s.isUserTask task = true ∧ s.vmm.Unshared (s.get task .pageDirectory)

/-- Whether `free_task` gives back everything: the stack is known and the directory is destroyed. -/
def Sched.FreesAll (s : Sched) (task : UInt32) : Prop :=
  s.get task .kernelEsp0 ≠ 0 ∧ s.get task .pageDirectory ≠ s.vmm.currentDirectory

/-- What `free_task` leaves: from `v` to `w` the other tasks `M` keep their pages and directories. -/
structure Left (v : Vmm) (M : List Owned) (w : Vmm) (ys : List UInt32) : Prop where
  core : Core w M ys
  current : w.currentDirectory = v.currentDirectory
  boot : v.SameBoot w
  held : ∀ p ∈ held M, ∀ i, i.toNat < 1024 → entryAt w.mem p i = entryAt v.mem p i
  dirs : ∀ d ∈ v.kernelPageDirectory :: dirs M, ∀ i, tableOf w.mem d i = tableOf v.mem d i

/-- The kernel stack, if the task has one. -/
theorem Core.freeStack (h : Core s.vmm (o :: M) xs)
    (hesp : s.get o.pcb .kernelEsp0 = o.stack + 4096) :
    ∃ sl v ys g, (if s.get o.pcb .kernelEsp0 ≠ 0 then
        ([s.get o.pcb .kernelEsp0 - 4096],
          { s with vmm := s.vmm.freePage (s.get o.pcb .kernelEsp0 - 4096) })
      else ([], s) : List UInt32 × Sched) = (sl, { s with vmm := v }) ∧
      s.vmm.Evolves (dirs (o :: M)) xs v (dirs (o :: M)) ys g ∧
      v.currentDirectory = s.vmm.currentDirectory ∧ (∀ a ∈ sl, a = o.stack) ∧
      (∀ a ∈ g, a = o.stack) ∧ (s.get o.pcb .kernelEsp0 ≠ 0 → o.stack ∈ sl) ∧
      Vmm.GivesBack s.vmm.pmm.totalPages sl xs ys := by
  by_cases h0 : s.get o.pcb .kernelEsp0 = 0
  · rw [if_neg (by simp [h0])]
    exact ⟨[], s.vmm, xs, [], rfl, .refl h.inv, rfl, fun _ ha => absurd ha List.not_mem_nil,
      fun _ ha => absurd ha List.not_mem_nil, fun hne => absurd h0 hne, .refl _ xs⟩
  · have hstack : s.get o.pcb .kernelEsp0 - 4096 = o.stack := by
      rw [hesp, UInt32.add_sub_cancel]
    rw [if_pos h0, hstack]
    obtain ⟨ys, he, hback⟩ := h.inv.evolves_free (h.stack List.mem_cons_self)
    exact ⟨_, _, ys, _, rfl, he, rfl, fun _ => List.mem_singleton.1, fun _ => List.mem_singleton.1,
      fun _ => List.mem_singleton_self _, hback⟩

/-- The directory: destroyed, or only forgotten. -/
theorem Core.releaseDir (h : Core v (o :: M) xs) {pd : UInt32} (hs : s.vmm = w)
    (hpd : s.get o.pcb .pageDirectory = pd)
    (he : v.Evolves (dirs (o :: M)) xs w (dirs (o :: M)) ys gone)
    (hg : ∀ a ∈ gone, v.Fresh (dirs (o :: M)) xs a)
    (hr : pd = w.currentDirectory ∨ o.dir = some pd ∧ v.Unshared pd) :
    ∃ D u zs, (if s.get o.pcb .pageDirectory ≠ 0 ∧
          s.get o.pcb .pageDirectory ≠ s.vmm.currentDirectory then
        ((s.vmm.vmmDestroyDirectory (s.get o.pcb .pageDirectory)).1,
          { s with vmm := (s.vmm.vmmDestroyDirectory (s.get o.pcb .pageDirectory)).2 })
      else ([], s) : List UInt32 × Sched) = (D, { s with vmm := u }) ∧
      w.Evolves (dirs (o :: M)) ys u (dirs M) zs D ∧ u.currentDirectory = w.currentDirectory ∧
      (∀ a ∈ D, OwnPaging v (o :: M) o a) ∧
      (pd ≠ w.currentDirectory → ∀ a, OwnPaging v (o :: M) o a → a ∈ D) ∧
      (pd = w.currentDirectory → D = []) ∧ Vmm.GivesBack w.pmm.totalPages D ys zs := by
  subst hs
  rw [hpd]
  by_cases hc : pd ≠ 0 ∧ pd ≠ s.vmm.currentDirectory
  · obtain ⟨hd, hu⟩ := hr.resolve_left hc.2
    obtain ⟨⟨zs, he', hback⟩, hown⟩ := h.freeDir hd hu he hg
    rw [if_pos hc]
    exact ⟨_, _, zs, rfl, he', Vmm.vmmDestroyDirectory_currentDirectory .., fun a => (hown a).1,
      fun _ a => (hown a).2, fun e => absurd e hc.2, hback⟩
  · rw [if_neg hc]
    refine ⟨[], s.vmm, ys, rfl, he.inv.evolves_forget (dirs_subset_cons o M), rfl,
      fun _ ha => absurd ha List.not_mem_nil, fun hne => ?_, fun _ => rfl, .refl _ ys⟩
    -- a directory is not 0
    obtain ⟨hd, -⟩ := hr.resolve_left hne
    refine absurd ⟨(h.inv.dir pd (List.mem_cons_of_mem _ ?_)).1, hne⟩ hc
    exact mem_dirs List.mem_cons_self hd

/-- **`free_task`** for a task of the ledger: what it frees is the task's own, and the others keep
what they have. -/
theorem Core.freeTask (h : Core s.vmm (o :: M) xs) (hok : TaskOk s o) (hidle : o.pcb ≠ s.idleTask)
    (hr : s.Reapable o.pcb) :
    ∃ freed w ys, s.freeTask o.pcb = (freed, { s with vmm := w }) ∧
      (∀ a ∈ freed, Own s.vmm (o :: M) o a) ∧ Left s.vmm M w ys ∧
      (s.get o.pcb .kernelEsp0 ≠ 0 → s.get o.pcb .pageDirectory ≠ s.vmm.currentDirectory →
        ∀ a, Own s.vmm (o :: M) o a → a ∈ freed) ∧
      (s.get o.pcb .pageDirectory = s.vmm.currentDirectory → ∀ a ∈ freed, a ∈ o.held) ∧
      Vmm.GivesBack s.vmm.pmm.totalPages freed xs ys := by
  obtain ⟨b, k, od, qs⟩ := o
  have hmem : ∀ d, od = some d →
      d ∈ s.vmm.kernelPageDirectory :: dirs (⟨b, k, od, qs⟩ :: M) := fun d hd =>
    List.mem_cons_of_mem _ (mem_dirs List.mem_cons_self hd)
  have hb := h.pcb List.mem_cons_self
  -- the user pages
  obtain ⟨w₁, ys₁, g₁, hrun, hcore₁, hkeep₁, hcur₁, hheld₁, hdirs₁, hback₁⟩ := h.freePages hok
    (if s.get b .pageDirectory ≠ 0 then s.get b .pageDirectory else s.vmm.currentDirectory)
    fun d hd => by
      rw [hok.dir d hd]
      exact if_pos (h.inv.dir d (hmem d hd)).1
  have hpcb₁ : b ∈ held (⟨b, k, od, []⟩ :: M) := pcb_mem_held List.mem_cons_self
  have hstack₁ : k ∈ held (⟨b, k, od, []⟩ :: M) := stack_mem_held List.mem_cons_self
  have hword : ∀ f, Sched.get { s with vmm := w₁ } b f = s.get b f := fun f =>
    hkeep₁.entry _ hb.inUse (hheld₁ _ hpcb₁) _ f.index_lt
  have hds : ∀ d ∈ s.vmm.kernelPageDirectory :: dirs (⟨b, k, od, qs⟩ :: M),
      s.vmm.pmm.InUse xs d ∧ d ∉ g₁ := fun d hd => ⟨(h.inv.dir d hd).2, hdirs₁ d hd⟩
  -- the stack
  obtain ⟨sl, v₂, ys₂, g₂, hstack, he₂, hcur₂, hsl, hg₂, hsl', hback₂⟩ :=
    Core.freeStack (s := { s with vmm := w₁ }) hcore₁
      ((hword .kernelEsp0).trans (hok.esp0.trans (if_neg hidle)))
  have hfresh₂ : ∀ a ∈ g₂, w₁.Fresh (dirs (⟨b, k, od, []⟩ :: M)) ys₁ a := fun a ha =>
    hg₂ a ha ▸ hcore₁.fresh _ hstack₁
  have hne : b ∉ g₂ := fun hm => by
    have hnd := hcore₁.heldNodup
    simp only [held, List.flatMap_cons, Owned.held, List.cons_append, List.nodup_cons] at hnd
    exact hnd.1 (by simp [hg₂ _ hm])
  have hpd₂ : Sched.get { s with vmm := v₂ } b .pageDirectory = s.get b .pageDirectory :=
    (he₂.keeps.entry _ (hcore₁.fresh _ hpcb₁).inUse hne _ (Field.index_lt _)).trans (hword _)
  -- the directory
  have hr₂ : s.get b .pageDirectory = v₂.currentDirectory ∨
      od = some (s.get b .pageDirectory) ∧ w₁.Unshared (s.get b .pageDirectory) := by
    rcases hr with e | ⟨huser, hu⟩
    · exact .inl (e.trans (hcur₁.symm.trans hcur₂.symm))
    · cases hod : od with
      | none =>
        rw [Sched.isUserTask, hok.user, hod] at huser
        simp at huser
      | some d =>
        rw [hok.dir d hod] at hu ⊢
        exact .inr ⟨rfl, unshared_of_keeps hkeep₁ (hds d (hmem d hod))
          (hds _ List.mem_cons_self) hu⟩
  obtain ⟨D, v₃, ys₃, hdir, he₃, hcur₃, hD, hD', hD'', hback₃⟩ :=
    hcore₁.releaseDir (s := { s with vmm := v₂ }) rfl hpd₂ he₂ hfresh₂ hr₂
  -- the `task_t`
  have hb₃ : v₃.Fresh (dirs M) ys₃ b := by
    refine he₃.fresh b (he₂.fresh b (hcore₁.fresh b hpcb₁) hne) fun hm => ?_
    exact hcore₁.held_not_paging List.mem_cons_self hpcb₁ (hD b hm)
  obtain ⟨ys₄, he₄, hback₄⟩ := he₃.inv.evolves_free hb₃
  have he := (he₂.trans he₃).trans he₄
  have hgone : ∀ a ∈ g₂ ++ D ++ [b], Own w₁ (⟨b, k, od, []⟩ :: M) ⟨b, k, od, []⟩ a := by
    intro a ha
    rcases List.mem_append.1 ha with ha | ha
    · rcases List.mem_append.1 ha with ha | ha
      · exact .inl (by simp [Owned.held, hg₂ a ha])
      · exact .inr (hD a ha)
    · exact .inl (by simp [Owned.held, List.mem_singleton.1 ha])
  have hpaging : ∀ a, OwnPaging w₁ (⟨b, k, od, []⟩ :: M) ⟨b, k, od, []⟩ a ↔
      OwnPaging s.vmm (⟨b, k, od, qs⟩ :: M) ⟨b, k, od, qs⟩ a := fun a =>
    exists_congr fun d => and_congr_right fun hd =>
      or_congr_right (private_of_keeps hkeep₁ hds (hmem d hd))
  have hback : Vmm.GivesBack s.vmm.pmm.totalPages (qs.map Prod.snd ++ sl ++ D ++ [b]) xs ys₄ := by
    have hp₁ : w₁.pmm.totalPages = s.vmm.pmm.totalPages := hkeep₁.boot.2.1.2
    have hp₂ : v₂.pmm.totalPages = s.vmm.pmm.totalPages := he₂.keeps.boot.2.1.2.trans hp₁
    have hp₃ : v₃.pmm.totalPages = s.vmm.pmm.totalPages := he₃.keeps.boot.2.1.2.trans hp₂
    rw [hp₁] at hback₂
    rw [hp₂] at hback₃
    rw [hp₃] at hback₄
    exact ((hback₁.trans hback₂).trans hback₃).trans hback₄
  refine ⟨qs.map Prod.snd ++ sl ++ D ++ [b], v₃.freePage b, ys₄, ?_, fun a ha => ?_,
    ⟨hcore₁.leave he hgone, ?_, hkeep₁.boot.trans he.keeps.boot, fun p hp i hi => ?_,
    fun d hd i => ?_⟩, fun hesp hne a ha => ?_, fun heq a ha => ?_, hback⟩
  · unfold Sched.freeTask
    rw [if_neg hb.ne_zero]
    simp only [hrun]
    erw [hstack]
    simp only
    erw [hdir]
  · rcases List.mem_append.1 ha with ha | ha
    · rcases List.mem_append.1 ha with ha | ha
      · rcases List.mem_append.1 ha with ha | ha
        · exact .inl (by simp only [Owned.held, List.mem_cons]; exact .inr (.inr ha))
        · exact .inl (by simp [Owned.held, hsl a ha])
      · exact .inr ((hpaging a).1 (hD a ha))
    · exact .inl (by simp [Owned.held, List.mem_singleton.1 ha])
  · exact hcur₃.trans (hcur₂.trans hcur₁)
  · have hp₁ : p ∈ held (⟨b, k, od, []⟩ :: M) :=
      (held_sublist (List.sublist_cons_self _ M)).subset hp
    have hpin := h.fresh p ((held_sublist (List.sublist_cons_self _ M)).subset hp)
    rw [he.keeps.entry p (hcore₁.fresh p hp₁).inUse
      (fun hg => (hcore₁.own_not_others (hgone p hg)).1 hp) i hi,
      hkeep₁.entry p hpin.inUse (hheld₁ p hp₁) i hi]
  · have hd₁ := List.cons_subset_cons s.vmm.kernelPageDirectory
      (dirs_subset_cons ⟨b, k, od, qs⟩ M) hd
    have hd₂ : d ∈ w₁.kernelPageDirectory :: dirs M := by rwa [hkeep₁.boot.1]
    rw [he.keeps.tableOf (hcore₁.inv.dir d (List.cons_subset_cons _ (dirs_subset_cons _ M) hd₂)).2
      (fun hg => (hcore₁.own_not_others (hgone d hg)).2.1 hd₂),
      hkeep₁.tableOf (h.inv.dir d hd₁).2 (hdirs₁ d hd₁)]
  · rcases ha with ha | ha
    · have hcase : a = b ∨ a = k ∨ a ∈ qs.map Prod.snd := by
        simpa only [Owned.held, List.mem_cons] using ha
      rcases hcase with rfl | rfl | ha
      · simp
      · have := hsl' (by rwa [hword .kernelEsp0])
        simp [this]
      · simp [ha]
    · have := hD' (by rwa [hcur₂, hcur₁]) a ((hpaging a).2 ha)
      simp [this]
  · rw [hD'' (by rwa [hcur₂, hcur₁])] at ha
    have hcase : (a ∈ qs.map Prod.snd ∨ a ∈ sl) ∨ a = b := by
      simpa only [List.append_nil, List.mem_append, List.mem_singleton] using ha
    rcases hcase with (ha | ha) | rfl
    · exact List.mem_cons_of_mem _ (List.mem_cons_of_mem _ ha)
    · simp [Owned.held, hsl a ha]
    · exact List.mem_cons_self

/-! ## The loop -/

theorem Own.perm {a : UInt32} (hp : M.Perm L) (h : Own v M o a) : Own v L o a := by
  have hdirs : (dirs L).Perm (dirs M) := (hp.filterMap _).symm
  rcases h with h | ⟨d, hd, rfl | ⟨h1, h2⟩⟩
  · exact .inl h
  · exact .inr ⟨a, hd, .inl rfl⟩
  · refine .inr ⟨d, hd, .inr ⟨h1, fun d' hd' => h2 d' ?_⟩⟩
    exact List.cons_subset_cons _ hdirs.subset hd'

/-- The ledger without a task. -/
theorem Core.filter_perm (h : Core v L xs) (ho : o ∈ L) :
    L.Perm (o :: L.filter fun o' => o'.pcb ≠ o.pcb) := by
  obtain ⟨l, r, rfl⟩ := List.append_of_mem ho
  have hnd := h.pcbs_nodup
  rw [List.map_append, List.map_cons, List.nodup_middle, List.nodup_cons, ← List.map_append] at hnd
  have hsame : ∀ M : List Owned, M ⊆ l ++ r → (M.filter fun o' => o'.pcb ≠ o.pcb) = M := by
    intro M hM
    refine List.filter_eq_self.2 fun o' ho' => ?_
    simp only [ne_eq, decide_not, Bool.not_eq_true', decide_eq_false_iff_not]
    exact fun e => hnd.1 (e ▸ List.mem_map_of_mem (hM ho'))
  rw [List.filter_append, List.filter_cons_of_neg (by simp), hsame l (List.subset_append_left l r),
    hsame r (List.subset_append_right l r)]
  exact List.perm_middle

/-- The lists after a zombie is gone. -/
theorem Tasks.reap {z : UInt32} (h : Tasks s L ts (z :: zs)) (hL : L.Perm (o :: M))
    (ho : o.pcb = z) (hleft : Left s.vmm M w ys) :
    Tasks { s with zombieList := s.get z .next, vmm := w } M ts zs := by
  have hperm : (ts ++ zs).Perm (M.map Owned.pcb) := by
    have := (List.perm_middle.symm.trans h.perm).trans (hL.map Owned.pcb)
    rw [List.map_cons, ho] at this
    exact this.cons_inv
  have hget : ∀ t ∈ ts ++ zs, ∀ f,
      Sched.get { s with zombieList := s.get z .next, vmm := w } t f = s.get t f := by
    intro t ht f
    obtain ⟨o', ho', rfl⟩ := List.mem_map.1 (hperm.subset ht)
    exact hleft.held _ (pcb_mem_held ho') _ f.index_lt
  refine ⟨fun o' ho' => ?_, ?_, ?_, hperm, h.current, h.idle, fun t ht hne => ?_⟩
  · refine (h.ok o' (hL.symm.subset (List.mem_cons_of_mem _ ho'))).congr rfl fun f _ _ _ => ?_
    exact hleft.held _ (pcb_mem_held ho') _ f.index_lt
  · exact h.list.congr fun t ht => hget t (List.mem_append_left _ ht) _
  · exact (follows_cons.1 h.zombies).2.congr fun t ht => hget t (List.mem_append_right _ ht) _
  · rw [hget t (List.mem_append_left _ ht)]
    exact h.ready t ht hne

/-- One turn of `reap_zombies`. -/
theorem SchedInv.reapOne {z : UInt32} (h : SchedInv s L ts (z :: zs) xs) (hz : s.Reapable z) :
    ∃ o ∈ L, o.pcb = z ∧ ∃ freed w ys,
      Sched.freeTask { s with zombieList := s.get z .next } z =
        (freed, { s with zombieList := s.get z .next, vmm := w }) ∧
      (∀ a ∈ freed, Own s.vmm L o a) ∧ Left s.vmm (L.filter fun o' => o'.pcb ≠ z) w ys ∧
      SchedInv { s with zombieList := s.get z .next, vmm := w }
        (L.filter fun o' => o'.pcb ≠ z) ts zs ys ∧
      (s.FreesAll z → ∀ a, Own s.vmm L o a → a ∈ freed) ∧
      (s.get z .pageDirectory = s.vmm.currentDirectory → ∀ a ∈ freed, a ∈ o.held) ∧
      Vmm.GivesBack s.vmm.pmm.totalPages freed xs ys := by
  obtain ⟨o, ho, rfl⟩ := h.entry (List.mem_append_right ts List.mem_cons_self)
  have hperm := h.core.filter_perm ho
  have hidle : o.pcb ≠ s.idleTask := fun e => by
    have hnd := h.nodup
    rw [List.nodup_middle, List.nodup_cons] at hnd
    exact hnd.1 (e ▸ List.mem_append_left _ h.tasks.idle)
  have hok : TaskOk { s with zombieList := s.get o.pcb .next } o :=
    (h.tasks.ok o ho).congr rfl fun _ _ _ _ => rfl
  obtain ⟨freed, w, ys, hrun, hown, hleft, hall, hheld, hback⟩ :=
    Core.freeTask (s := { s with zombieList := s.get o.pcb .next }) (h.core.perm hperm) hok hidle hz
  exact ⟨o, ho, rfl, freed, w, ys, hrun, fun a ha => (hown a ha).perm hperm.symm, hleft,
    ⟨hleft.core, h.tasks.reap hperm rfl hleft⟩,
    fun hf a ha => hall hf.1 hf.2 a (ha.perm hperm), hheld, hback⟩

theorem Left.sameTables (h : Left v M w ys) : SameTables (HaoSys.Proc.dirs M) v w :=
  ⟨h.boot, h.dirs⟩

theorem Left.refl (h : Core v L xs) : Left v L v xs :=
  ⟨h, rfl, .refl v, fun _ _ _ _ => rfl, fun _ _ _ => rfl⟩

theorem Left.trans {u : Vmm} {N : List Owned} (h₁ : Left v M w ys) (h₂ : Left w N u zs)
    (hN : N.Sublist M) : Left v N u zs := by
  refine ⟨h₂.core, h₂.current.trans h₁.current, h₁.boot.trans h₂.boot, fun p hp i hi => ?_,
    fun d hd i => ?_⟩
  · rw [h₂.held p hp i hi, h₁.held p ((held_sublist hN).subset hp) i hi]
  · rw [h₂.dirs d (by rwa [h₁.boot.1]) i,
      h₁.dirs d (List.cons_subset_cons _ (dirs_sublist hN).subset hd) i]

/-- The other zombies stay as reapable as they were. -/
theorem Left.reapable {z : UInt32} {n : UInt32} (h : Left s.vmm M w ys) (ho : o ∈ M)
    (hok : TaskOk s o) (hz : o.pcb = z) (hr : s.Reapable z) :
    Sched.Reapable { s with zombieList := n, vmm := w } z := by
  subst hz
  have hget : ∀ f, Sched.get { s with zombieList := n, vmm := w } o.pcb f = s.get o.pcb f :=
    fun f => h.held _ (pcb_mem_held ho) _ f.index_lt
  unfold Sched.Reapable Sched.isUserTask
  rw [hget, hget]
  rcases hr with e | ⟨huser, hu⟩
  · exact .inl (e.trans h.current.symm)
  · refine .inr ⟨huser, ?_⟩
    cases hod : o.dir with
    | none =>
      rw [Sched.isUserTask, hok.user, hod] at huser
      simp at huser
    | some d =>
      rw [hok.dir d hod] at hu ⊢
      have hpdes : w.kernelPdes = s.vmm.kernelPdes := by
        rw [Vmm.kernelPdes, Vmm.kernelPdes, h.boot.2.2]
      intro i t hge ht
      change w.kernelPdes ≤ i at hge
      rw [hpdes] at hge
      rw [h.dirs d (List.mem_cons_of_mem _ (mem_dirs ho hod)) i] at ht
      change tableOf w.mem w.kernelPageDirectory i ≠ some t
      rw [h.boot.1, h.dirs _ List.mem_cons_self i]
      exact hu i t hge ht

/-- What is a task's own after others are gone was so before, and what was is. -/
theorem Left.own_iff {a : UInt32} (h : Left v M w ys) (hc : Core v L xs) (hM : M ⊆ L)
    (ho : o ∈ M) : Own w M o a ↔ Own v L o a := by
  rw [h.core.own_iff ho, hc.own_iff (hM ho), h.boot.1]
  refine or_congr_right (exists_congr fun d => and_congr_right fun hd => or_congr_right ?_)
  simp only [h.dirs d (List.mem_cons_of_mem _ (mem_dirs ho hd)), h.dirs _ List.mem_cons_self]

/-- The other zombies are given back as they were to be. -/
theorem Left.freesAll {z : UInt32} {n : UInt32} (h : Left s.vmm M w ys) (ho : o ∈ M)
    (hz : o.pcb = z) : Sched.FreesAll { s with zombieList := n, vmm := w } z ↔ s.FreesAll z := by
  subst hz
  have hget : ∀ f, Sched.get { s with zombieList := n, vmm := w } o.pcb f = s.get o.pcb f :=
    fun f => h.held _ (pcb_mem_held ho) _ f.index_lt
  unfold Sched.FreesAll
  rw [hget, hget]
  exact and_congr_right fun _ => by rw [h.current]

/-- What a call of `reap_zombies` does with the zombies `zs`: each is freed, with what it owns. -/
structure Reaped (s : Sched) (L : List Owned) (zs : List UInt32)
    (log : List (UInt32 × List UInt32)) : Prop where
  tasks : log.map Prod.fst = zs
  own : ∀ e ∈ log, ∃ o ∈ L, o.pcb = e.1 ∧ (∀ a ∈ e.2, Own s.vmm L o a) ∧
    (s.FreesAll e.1 → ∀ a, Own s.vmm L o a → a ∈ e.2) ∧
    (s.get e.1 .pageDirectory = s.vmm.currentDirectory → ∀ a ∈ e.2, a ∈ o.held)

/-- **`reap_zombies`**, when every zombie is reapable: the others are left as they were. -/
theorem SchedInv.reapZombies :
    ∀ {zs : List UInt32} {fuel : Nat} {s : Sched} {L : List Owned} {xs : List UInt32},
      SchedInv s L ts zs xs → (∀ z ∈ zs, s.Reapable z) → zs.length ≤ fuel →
      ∃ log w ys, Sched.reapZombies fuel s = some (log, { s with zombieList := 0, vmm := w }) ∧
        Reaped s L zs log ∧ Left s.vmm (L.filter fun o => o.pcb ∉ zs) w ys ∧
        SchedInv { s with zombieList := 0, vmm := w } (L.filter fun o => o.pcb ∉ zs) ts [] ys ∧
        Vmm.GivesBack s.vmm.pmm.totalPages (log.flatMap Prod.snd) xs ys := by
  intro zs
  induction zs with
  | nil =>
    intro fuel s L xs h _ _
    have h0 : s.zombieList = 0 := h.tasks.zombies
    have hs : { s with zombieList := 0 } = s := by
      cases s
      simp only at h0
      rw [h0]
    have hL : (L.filter fun o => o.pcb ∉ ([] : List UInt32)) = L :=
      List.filter_eq_self.2 fun _ _ => by simp
    refine ⟨[], s.vmm, xs, ?_, ⟨rfl, fun _ he => absurd he List.not_mem_nil⟩, ?_, ?_, .refl _ xs⟩
    · rw [hs]
      cases fuel <;> exact if_pos h0
    · rw [hL]
      exact .refl h.core
    · rw [hL, hs]
      exact h
  | cons z zs ih =>
    intro fuel s L xs h hr hfuel
    obtain ⟨fuel, rfl⟩ : ∃ n, fuel = n + 1 := ⟨fuel - 1, by rw [List.length_cons] at hfuel; omega⟩
    have hz : s.zombieList = z := (follows_cons.1 h.tasks.zombies).1
    have hz0 : s.zombieList ≠ 0 := hz ▸
      (h.fresh (List.mem_append_right ts List.mem_cons_self)).ne_zero
    obtain ⟨o, ho, hoz, freed, w₁, ys₁, hrun, hown, hleft, hinv, hall, hheld, hback⟩ :=
      h.reapOne (hr z List.mem_cons_self)
    have hsub : (L.filter fun o' => o'.pcb ≠ z).Sublist L := List.filter_sublist
    have hr' : ∀ z' ∈ zs, Sched.Reapable { s with zombieList := s.get z .next, vmm := w₁ } z' := by
      intro z' hz'
      obtain ⟨o', ho', he'⟩ := hinv.entry (List.mem_append_right ts hz')
      exact hleft.reapable ho' (h.tasks.ok o' (hsub.subset ho')) he' (hr z' (List.mem_cons_of_mem _ hz'))
    have hlen : zs.length ≤ fuel := by simpa using hfuel
    obtain ⟨log, w, ys, hrun', hreap, hleft', hinv', hback'⟩ := ih hinv hr' hlen
    have hfilter : ((L.filter fun o' => o'.pcb ≠ z).filter fun o' => o'.pcb ∉ zs) =
        L.filter fun o' => o'.pcb ∉ z :: zs := by
      rw [List.filter_filter]
      refine List.filter_congr fun o' _ => ?_
      simp [Bool.and_comm]
    rw [hfilter] at hleft' hinv'
    have hsub' : (L.filter fun o' => o'.pcb ∉ z :: zs).Sublist (L.filter fun o' => o'.pcb ≠ z) := by
      rw [← hfilter]
      exact List.filter_sublist
    have hpages : w₁.pmm.totalPages = s.vmm.pmm.totalPages := hleft.boot.2.1.2
    have hback' : Vmm.GivesBack w₁.pmm.totalPages (log.flatMap Prod.snd) ys₁ ys := hback'
    rw [hpages] at hback'
    refine ⟨(z, freed) :: log, w, ys, ?_, ⟨?_, fun e he => ?_⟩, hleft.trans hleft' hsub', hinv',
      hback.trans hback'⟩
    · unfold Sched.reapZombies
      rw [if_neg hz0, hz]
      simp only [hrun, hrun', Option.map_some]
    · rw [List.map_cons, hreap.tasks]
    · rcases List.mem_cons.1 he with rfl | he
      · exact ⟨o, ho, hoz, hown, hall, hheld⟩
      · obtain ⟨o', ho', hp', hown', hall', hheld'⟩ := hreap.own e he
        have hpd := hleft.held _ (pcb_mem_held ho') _ (Field.index_lt .pageDirectory)
        rw [hp'] at hpd
        exact ⟨o', hsub.subset ho', hp',
          fun a ha => (hleft.own_iff h.core hsub.subset ho').1 (hown' a ha),
          fun hf a ha => hall' ((hleft.freesAll ho' hp').2 hf) a
            ((hleft.own_iff h.core hsub.subset ho').2 ha),
          fun hc => hheld' (hpd.trans (hc.trans hleft.current.symm))⟩

end

end HaoSys.Proc
