import HaoSys.Proc.Create

/-!
# Loading a user task

The mappings of `load_and_run_shell`: its own window in the kernel's
directory, and the pages of the task in the task's directory. A mapping writes
the directory and the table of its slot, so the registered pages of the other
tasks stay, and those of the task itself because a mapping never replaces one.
-/

namespace HaoSys.Proc

open HaoSys.Lib HaoSys.Mm

section

variable {s s' : Sched} {L : List Owned} {ts zs xs ys gone : List UInt32} {o : Owned}
  {v w : Vmm} {d virt phys flags t : UInt32}

/-! ## What a mapping writes -/

/-- A page that nothing points to is neither the directory a mapping writes nor its table. -/
theorem fresh_not_written {ds : List UInt32} {p : UInt32} (hf : v.Fresh ds xs p)
    (hd : d ∈ v.kernelPageDirectory :: ds) :
    p ∉ d :: (tableOf v.mem d (pdIndex virt)).toList := by
  intro hm
  rcases List.mem_cons.1 hm with rfl | hm
  · exact hf.notDir hd
  · exact hf.notTable d hd _ (by simpa using hm)

theorem Core.not_written (h : Core v L xs) {p : UInt32} (hp : p ∈ held L)
    (hd : d ∈ v.kernelPageDirectory :: dirs L) :
    p ∉ d :: (tableOf v.mem d (pdIndex virt)).toList := fresh_not_written (h.fresh p hp) hd

/-- Another directory is not written either. -/
theorem Core.dir_not_written (h : Core v L xs) {d' : UInt32}
    (hd : d ∈ v.kernelPageDirectory :: dirs L) (hd' : d' ∈ v.kernelPageDirectory :: dirs L)
    (hne : d' ≠ d) : d' ∉ d :: (tableOf v.mem d (pdIndex virt)).toList := by
  intro hm
  rcases List.mem_cons.1 hm with e | hm
  · exact hne e
  · exact (h.inv.table d hd _ d' (by simpa using hm)).2 hd'

/-- Nor is the table of another directory's registered pages. -/
theorem Core.table_not_written (h : Core v L xs) {d' : UInt32}
    (hd : d ∈ v.kernelPageDirectory :: dirs L) (hd' : d' ∈ v.kernelPageDirectory :: dirs L)
    (hne : d' ≠ d) {j : UInt32} (ht : tableOf v.mem d' j = some t)
    (hk : tableOf v.mem v.kernelPageDirectory j ≠ some t) :
    v.pmm.InUse xs t ∧ t ∉ d :: (tableOf v.mem d (pdIndex virt)).toList := by
  obtain ⟨hu, hnd⟩ := h.inv.table d' hd' _ t ht
  refine ⟨hu, fun hm => ?_⟩
  rcases List.mem_cons.1 hm with rfl | hm
  · exact hnd hd
  · obtain ⟨-, e | e⟩ := h.inv.sharing d' hd' d hd _ _ t ht (by simpa using hm)
    · exact hne e
    · exact hk e

/-- A mapping of the loader in the kernel's directory. -/
theorem Core.mapKernel (h : Core v L xs) (hslot : pdIndex virt = loadSlot) (phys flags : UInt32) :
    ∃ ys gone, Core (v.vmmMapPage v.kernelPageDirectory virt phys flags).2 L ys ∧
      v.KeepsOff xs (v.vmmMapPage v.kernelPageDirectory virt phys flags).2 ys gone ∧
      (v.vmmMapPage v.kernelPageDirectory virt phys flags).2.currentDirectory =
        v.currentDirectory ∧ ∀ p ∈ held L, p ∉ gone := by
  have hk : v.kernelPageDirectory ∈ v.kernelPageDirectory :: dirs L := List.mem_cons_self
  obtain ⟨ys, hw, -⟩ := h.inv.mapWrites hk virt phys flags
  refine ⟨ys, _, ⟨hw.evolves.inv, h.dirsNodup, h.heldNodup, fun p hp => ?_, fun o ho p hp => ?_,
    fun i t hi ht => ?_⟩, hw.evolves.keeps, hw.current, fun p hp => h.not_written hp hk⟩
  · exact hw.evolves.fresh p (h.fresh p hp) (h.not_written hp hk)
  · obtain ⟨d, hd, hm⟩ := h.maps o ho p hp
    have hmem := List.mem_cons_of_mem v.kernelPageDirectory (mem_dirs ho hd)
    have hne : d ≠ v.kernelPageDirectory := fun e => h.inv.kernel (e ▸ mem_dirs ho hd)
    have hdw : d ∉ v.kernelPageDirectory ::
        (tableOf v.mem v.kernelPageDirectory (pdIndex virt)).toList := h.dir_not_written hk hmem hne
    refine ⟨d, hd, hm.aligned, ?_, ?_⟩
    · rw [hw.evolves.keeps.translate (h.inv.dir d hmem).2 hdw, hm.translate]
      intro u hu
      exact h.table_not_written hk hmem hne hu fun e => hm.own (by rw [hu, e])
    · rw [hw.evolves.keeps.boot.1, hw.evolves.keeps.tableOf (h.inv.dir d hmem).2 hdw]
      rcases hw.tables (pdIndex p.1) with e | ⟨-, -, u, hu, hold⟩
      · rw [e]
        exact hm.own
      · -- the table is new, and the task's is not
        rw [hu]
        exact fun e => hold (h.inv.table d hmem _ u e).1
  · rw [hw.evolves.keeps.boot.1] at ht
    have hpdes : (v.vmmMapPage v.kernelPageDirectory virt phys flags).2.kernelPdes =
        v.kernelPdes := by
      rw [Vmm.kernelPdes, Vmm.kernelPdes, hw.evolves.keeps.boot.2.2]
    rcases hw.tables i with e | ⟨e, -⟩
    · rw [hpdes]
      exact h.scan i t hi (e ▸ ht)
    · exact absurd (e.trans hslot) hi

/-- And its removal. -/
theorem Core.unmapKernel (h : Core v L xs) (virt : UInt32) :
    ∃ gone, Core (v.vmmUnmapPage v.kernelPageDirectory virt).2 L xs ∧
      v.KeepsOff xs (v.vmmUnmapPage v.kernelPageDirectory virt).2 xs gone ∧
      (v.vmmUnmapPage v.kernelPageDirectory virt).2.currentDirectory = v.currentDirectory ∧
      ∀ p ∈ held L, p ∉ gone := by
  have hk : v.kernelPageDirectory ∈ v.kernelPageDirectory :: dirs L := List.mem_cons_self
  obtain ⟨he, hcur, -⟩ := h.inv.evolves_unmap hk virt
  have hheld : ∀ p ∈ held L, p ∉ (tableOf v.mem v.kernelPageDirectory (pdIndex virt)).toList :=
    fun p hp hm => h.not_written hp hk (List.mem_cons_of_mem _ hm)
  refine ⟨_, h.of_evolves (.refl L) he (fun p hp => he.fresh p (h.fresh p hp) (hheld p hp))
    (fun d hd hm => ?_) (fun d hd j t ht hkt hm => ?_), he.keeps, hcur, hheld⟩
  · exact (h.inv.table _ hk _ d (by simpa using hm)).2 hd
  · have hkt' : tableOf v.mem v.kernelPageDirectory (pdIndex virt) = some t := by simpa using hm
    obtain ⟨e, -⟩ := h.inv.sharing d (List.mem_cons_of_mem _ hd) _ hk _ _ t ht hkt'
    exact hkt (e ▸ hkt')

/-! ## The pages of the task -/

/-- The kernel's directory keeps its tables when another directory is mapped in. -/
theorem Core.kernel_not_written (h : Core v L xs) (hd : d ∈ dirs L) (virt : UInt32) :
    v.kernelPageDirectory ∉ d :: (tableOf v.mem d (pdIndex virt)).toList :=
  h.dir_not_written (List.mem_cons_of_mem _ hd) List.mem_cons_self fun e => h.inv.kernel (e ▸ hd)

/-- A mapping in a task's directory, made or refused, leaves the registered pages. -/
theorem Core.mapUser (h : Core v L xs) (hd : d ∈ dirs L) (virt phys flags : UInt32) :
    ∃ ys, Core (v.vmmMapPage d virt phys flags).2 L ys ∧
      v.MapWrites (dirs L) xs d virt (v.vmmMapPage d virt phys flags).2 ys ∧
      ((v.vmmMapPage d virt phys flags).1 = true →
        Vmm.MapTakes v (v.vmmMapPage d virt phys flags).2 xs ys d virt) ∧
      ((v.vmmMapPage d virt phys flags).1 = false →
        ∀ j, tableOf (v.vmmMapPage d virt phys flags).2.mem d j = tableOf v.mem d j) := by
  have hd' := List.mem_cons_of_mem v.kernelPageDirectory hd
  obtain ⟨ys, hw, hmade⟩ := h.inv.mapWrites hd' virt phys flags
  have hmaps := h.inv.vmmMapPage_mapsPage hd' virt phys flags
  have hkw := h.kernel_not_written hd virt
  have hkeep := hw.evolves.keeps
  have hkin := (h.inv.dir _ List.mem_cons_self).2
  refine ⟨ys, ⟨hw.evolves.inv, h.dirsNodup, h.heldNodup, fun p hp => ?_, fun o ho q hq => ?_,
    fun _ _ => h.scan_of_keeps hkeep hkw⟩, hw, hmade⟩
  · exact hw.evolves.fresh p (h.fresh p hp) (h.not_written hp hd')
  obtain ⟨d₁, hd₁, hm⟩ := h.maps o ho q hq
  have hmem := List.mem_cons_of_mem v.kernelPageDirectory (mem_dirs ho hd₁)
  by_cases hne : d₁ = d
  · -- the task itself: a mapping does not replace another
    subst hne
    refine ⟨d₁, hd₁, hm.aligned, ?_, ?_⟩
    · cases hr : (v.vmmMapPage d₁ virt phys flags).1 with
      | false => rw [hmaps.refused hr, hm.translate]
      | true =>
        rw [hmaps.mapped hr, insertPage, if_neg, hm.translate]
        intro hpage
        have hnone := hmaps.unmapped hr _ hpage
        rw [hm.translate] at hnone
        cases hnone
    · obtain ⟨u, hu⟩ := hm.table
      rw [hkeep.boot.1, hkeep.tableOf hkin hkw]
      rcases hw.tables (pdIndex q.1) with e | ⟨-, e, -⟩
      · rw [e]
        exact hm.own
      · rw [hu] at e
        cases e
  · exact ⟨d₁, hd₁, hm.of_keeps hkeep (h.inv.dir d₁ hmem).2 (h.dir_not_written hd' hmem hne) hkin
      hkw fun u hu hk => h.table_not_written hd' hmem hne hu hk⟩

/-- The other directories keep their tables. -/
theorem Core.mapUser_others (h : Core v L xs) (hd : d ∈ dirs L)
    (hw : v.MapWrites (dirs L) xs d virt w ys) {ds : List UInt32} (hsub : ds ⊆ dirs L)
    (hne : d ∉ ds) : SameTables ds v w := by
  refine ⟨hw.evolves.keeps.boot, fun d' hd' i => ?_⟩
  have hd'' := List.cons_subset_cons v.kernelPageDirectory hsub hd'
  refine hw.evolves.keeps.tableOf (h.inv.dir d' hd'').2
    (h.dir_not_written (List.mem_cons_of_mem _ hd) hd'' ?_)
  rintro rfl
  rcases List.mem_cons.1 hd' with e | hd'
  · exact h.inv.kernel (e ▸ hd)
  · exact hne hd'

/-- A user mapping that was made is not in a table of the kernel's. -/
theorem Core.mapped_user (h : Core v L xs) (hd : d ∈ dirs L) (hv : virt.toNat % 4096 = 0)
    (hslot : Loadable v virt) (hp : phys.toNat % 4096 = 0)
    (hw : v.MapWrites (dirs L) xs d virt (v.vmmMapPage d virt phys (pageWrite ||| pageUser)).2 ys)
    (hr : (v.vmmMapPage d virt phys (pageWrite ||| pageUser)).1 = true) :
    Mapped (v.vmmMapPage d virt phys (pageWrite ||| pageUser)).2 d (virt, phys) := by
  have hd' := List.mem_cons_of_mem v.kernelPageDirectory hd
  have hkw := h.kernel_not_written hd virt
  have hkin := (h.inv.dir _ List.mem_cons_self).2
  refine ⟨hv, ?_, fun e => ?_⟩
  · rw [(h.inv.vmmMapPage_mapsPage hd' virt phys _).mapped hr, insertPage, if_pos rfl]
    rw [offset_eq_zero hv, UInt32.or_zero]
    exact congrArg some (frameOf_eq_self hp)
  · rw [hw.evolves.keeps.boot.1, hw.evolves.keeps.tableOf hkin hkw] at e
    rcases hw.tables (pdIndex virt) with e' | ⟨-, -, u, hu, hold⟩
    · rw [e'] at e
      have hsome := (h.inv.vmmMapPage_mapsPage hd' virt phys _).mapped hr
      cases ht : tableOf v.mem d (pdIndex virt) with
      | none =>
        have htr : (v.vmmMapPage d virt phys (pageWrite ||| pageUser)).2.translate d virt = none := by
          rw [Vmm.translate_eq, e', ht]
          rfl
        rw [hsome, insertPage, if_pos rfl] at htr
        cases htr
      | some t =>
        have hnot := Vmm.vmmMapPage_user (h.inv.dir d hd').1 (by decide) hr ht
        rw [ht] at e
        rcases hslot with hslot | hnone
        · have hlt := UInt32.lt_iff_toNat_lt.1 (h.scan _ t hslot e.symm)
          rw [Vmm.isKernelTable_iff.2 ⟨pdIndex virt, hlt, e.symm⟩] at hnot
          cases hnot
        · rw [hnone] at e
          cases e
    · rw [hu] at e
      exact hold (h.inv.table _ List.mem_cons_self _ u e.symm).1

/-- The ledger with a registered page more. -/
def register (L : List Owned) (task : UInt32) (p : UInt32 × UInt32) : List Owned :=
  L.map fun o => if o.pcb = task then { o with maps := o.maps ++ [p] } else o

theorem map_pcb_register (L : List Owned) (task : UInt32) (p : UInt32 × UInt32) :
    (register L task p).map Owned.pcb = L.map Owned.pcb := by
  unfold register
  rw [List.map_map]
  refine List.map_congr_left fun o _ => ?_
  simp only [Function.comp_apply]
  split <;> rfl

/-- Only the task's own entry changes. -/
theorem Core.register_eq (h : Core v L xs) {l r : List Owned} (hL : L = l ++ o :: r)
    (p : UInt32 × UInt32) :
    register L o.pcb p = l ++ { o with maps := o.maps ++ [p] } :: r := by
  have hnd := h.pcbs_nodup
  rw [hL, List.map_append, List.map_cons, List.nodup_middle, List.nodup_cons] at hnd
  have hother : ∀ o' ∈ l ++ r, o'.pcb ≠ o.pcb := fun o' ho' e => by
    refine hnd.1 (e ▸ ?_)
    rw [← List.map_append]
    exact List.mem_map_of_mem ho'
  have hsame : ∀ M : List Owned, M ⊆ l ++ r →
      (M.map fun o' => if o'.pcb = o.pcb then { o' with maps := o'.maps ++ [p] } else o') = M := by
    intro M hM
    conv_rhs => rw [← List.map_id M]
    exact List.map_congr_left fun o' ho' => if_neg (hother o' (hM ho'))
  rw [register, hL, List.map_append, List.map_cons, if_pos rfl,
    hsame l (List.subset_append_left l r), hsame r (List.subset_append_right l r)]

/-- The page joins the ledger. -/
theorem Core.register (h : Core v L xs) (ho : o ∈ L) (hd : o.dir = some d)
    (hm : Mapped v d (virt, phys)) (hf : v.Fresh (dirs L) xs phys) (hn : phys ∉ held L) :
    Core v (register L o.pcb (virt, phys)) xs := by
  obtain ⟨l, r, rfl⟩ := List.append_of_mem ho
  rw [h.register_eq rfl]
  have hdirs : dirs (l ++ { o with maps := o.maps ++ [(virt, phys)] } :: r) =
      dirs (l ++ o :: r) := by
    simp only [dirs, List.filterMap_append, List.filterMap_cons]
  have hheld : (held (l ++ { o with maps := o.maps ++ [(virt, phys)] } :: r)).Perm
      (phys :: held (l ++ o :: r)) := by
    simp only [held, List.flatMap_append, List.flatMap_cons, Owned.held, List.map_append,
      List.map_cons, List.map_nil]
    grind
  refine ⟨hdirs ▸ h.inv, hdirs ▸ h.dirsNodup, hheld.symm.nodup (List.nodup_cons.2 ⟨hn, h.heldNodup⟩),
    fun p hp => ?_, fun o' ho' q hq => ?_, h.scan⟩
  · rw [hdirs]
    rcases List.mem_cons.1 (hheld.subset hp) with rfl | hp
    · exact hf
    · exact h.fresh p hp
  · have hold : ∀ o₁ ∈ l ++ o :: r, q ∈ o₁.maps → ∃ d, o₁.dir = some d ∧ Mapped v d q :=
      fun o₁ ho₁ => h.maps o₁ ho₁ q
    rcases List.mem_append.1 ho' with ho' | ho'
    · exact hold o' (List.mem_append_left _ ho') hq
    rcases List.mem_cons.1 ho' with rfl | ho'
    · rcases List.mem_append.1 hq with hq | hq
      · exact hold o ho hq
      · rw [List.mem_singleton.1 hq]
        exact ⟨d, hd, hm⟩
    · exact hold o' (List.mem_append_right _ (List.mem_cons_of_mem _ ho')) hq

/-! ## The call -/

/-- Registering a page writes the task's own words. -/
theorem TaskOk.register (h : TaskOk s o) (ha : o.pcb.toNat % 4096 = 0)
    (hc : (s.get o.pcb .userVirtCount).toNat < 96) (p : UInt32 × UInt32) :
    TaskOk ((s.set o.pcb (.userVirtPage ⟨_, hc⟩) p.1).set o.pcb .userVirtCount
      (s.get o.pcb .userVirtCount + 1)) { o with maps := o.maps ++ [p] } := by
  have hcount := h.count
  have hget : ∀ f, f ≠ .userVirtCount → f ≠ .userVirtPage ⟨_, hc⟩ →
      ((s.set o.pcb (.userVirtPage ⟨_, hc⟩) p.1).set o.pcb .userVirtCount
        (s.get o.pcb .userVirtCount + 1)).get o.pcb f = s.get o.pcb f := fun f h1 h2 => by
    rw [get_set_of_ne ha ha (.inl h1), get_set_of_ne ha ha (.inl h2)]
  refine ⟨?_, ?_, fun d hd => ?_, ?_, ?_, fun i q hq => ?_⟩
  · rw [hget _ (by simp) (by simp)]
    exact h.esp0
  · rw [hget _ (by simp) (by simp)]
    exact h.user
  · rw [hget _ (by simp) (by simp)]
    exact h.dir d hd
  · rw [get_set_self, UInt32.toNat_add, UInt32.toNat_one, List.length_append, List.length_singleton]
    omega
  · rw [List.length_append, List.length_singleton]
    omega
  · by_cases hi : i.val < o.maps.length
    · rw [List.getElem?_append_left hi] at hq
      rw [hget _ (by simp) fun e => ?_]
      · exact h.virt i q hq
      · have hval : i = ⟨_, hc⟩ := Field.userVirtPage.inj e
        rw [hval] at hi
        simp only at hi
        omega
    · have hlt := (List.getElem?_eq_some_iff.1 hq).1
      rw [List.length_append, List.length_singleton] at hlt
      have hval : i.val = o.maps.length := by omega
      have hi' : i = ⟨_, hc⟩ := Fin.ext (hval.trans hcount.symm)
      rw [hval, List.getElem?_concat_length] at hq
      cases hq
      rw [get_set_of_ne ha ha (.inl (by simp)), hi', get_set_self]

/-- The words of the tasks once a page is registered. -/
theorem SchedInv.registered (h : SchedInv s L ts zs xs) (ho : o ∈ L) (hd : o.dir = some d)
    (hm : Mapped s.vmm d (virt, phys)) (hf : s.vmm.Fresh (dirs L) xs phys) (hn : phys ∉ held L)
    (hc : (s.get o.pcb .userVirtCount).toNat < 96) :
    SchedInv ((s.set o.pcb (.userVirtPage ⟨_, hc⟩) virt).set o.pcb .userVirtCount
      (s.get o.pcb .userVirtCount + 1)) (register L o.pcb (virt, phys)) ts zs xs := by
  have ha := (h.core.pcb ho).inUse.aligned
  have hregheld : o.pcb ∈ held (register L o.pcb (virt, phys)) :=
    mem_held (List.mem_map.2 ⟨o, ho, if_pos rfl⟩) List.mem_cons_self
  have hcore := h.core.register ho hd hm hf hn
  obtain ⟨hc1, -⟩ := hcore.set hregheld (.userVirtPage ⟨_, hc⟩) virt
  obtain ⟨hc2, -⟩ := hc1.set hregheld .userVirtCount (s.get o.pcb .userVirtCount + 1)
  have hother : ∀ u, u.toNat % 4096 = 0 → ∀ f, u ≠ o.pcb ∨ f = .next ∨ f = .state →
      ((s.set o.pcb (.userVirtPage ⟨_, hc⟩) virt).set o.pcb .userVirtCount
        (s.get o.pcb .userVirtCount + 1)).get u f = s.get u f := by
    intro u hu f hf
    have h1 : ∀ g : Field, g ≠ .next → g ≠ .state → f ≠ g ∨ u ≠ o.pcb := fun g hg1 hg2 => by
      rcases hf with hf | rfl | rfl
      · exact .inr hf
      · exact .inl (Ne.symm hg1)
      · exact .inl (Ne.symm hg2)
    rw [get_set_of_ne ha hu (h1 _ (by simp) (by simp)), get_set_of_ne ha hu (h1 _ (by simp) (by simp))]
  have halign : ∀ t ∈ ts ++ zs, t.toNat % 4096 = 0 := fun t ht => (h.fresh ht).inUse.aligned
  refine ⟨hc2, h.tasks.of_links rfl rfl rfl rfl (fun t ht => hother t (halign t ht) _ (.inr (.inl rfl)))
    (fun t ht => hother t (halign t ht) _ (.inr (.inr rfl))) (fun o' ho' => ?_) ?_⟩
  · obtain ⟨o₁, ho₁, rfl⟩ := List.mem_map.1 ho'
    by_cases hp : o₁.pcb = o.pcb
    · obtain rfl := h.core.eq_of_pcb ho₁ ho hp
      rw [if_pos rfl]
      exact (h.tasks.ok o₁ ho₁).register ha hc (virt, phys)
    · rw [if_neg hp]
      exact (h.tasks.ok o₁ ho₁).congr rfl fun f _ _ _ =>
        hother _ (h.core.pcb ho₁).inUse.aligned f (.inl hp)
  · rw [map_pcb_register]

/-- What the loader and the kernel's mappings leave of the scheduler's variables. -/
structure SameVars (s s' : Sched) : Prop where
  boot : s.vmm.SameBoot s'.vmm
  list : s'.taskList = s.taskList
  current : s'.currentTask = s.currentTask
  idle : s'.idleTask = s.idleTask
  zombies : s'.zombieList = s.zombieList
  esp0 : s'.esp0 = s.esp0
  directory : s'.vmm.currentDirectory = s.vmm.currentDirectory

/-- What one page of the loader comes to for a task with the directory `d`: nothing is registered,
and then the directory is as it was unless `user_virt_pages` is full, or the first free page is. -/
inductive Loaded (s : Sched) (L : List Owned) (ts zs xs : List UInt32) (task d virt : UInt32)
    (s' : Sched) : List UInt32 → Prop where
  | refused {ys : List UInt32} : s'.get task .userVirtCount = s.get task .userVirtCount →
    SchedInv s' L ts zs ys →
    ((s.get task .userVirtCount).toNat < 96 → SameTables (dirs L) s.vmm s'.vmm) →
    Loaded s L ts zs xs task d virt s' ys
  | registered {x : UInt32} {us ys : List UInt32} :
    s'.get task .userVirtCount ≠ s.get task .userVirtCount →
    SchedInv s' (register L task (virt, s.vmm.pmm.pmmAllocPage.1)) ts zs ys →
    xs = x :: us → s.vmm.pmm.pmmAllocPage.1 = indexToAddr x →
    Vmm.MapTakes s.vmm s'.vmm us ys d virt → Loaded s L ts zs xs task d virt s' ys

/-- One page of the loader. -/
theorem SchedInv.loadPage (h : SchedInv s L ts zs xs) (ho : o ∈ L) (hd : o.dir = some d)
    (hv : virt.toNat % 4096 = 0) (hslot : Loadable s.vmm virt) :
    ∃ ys, SameVars s (s.loadPage o.pcb virt) ∧
      (∀ u ∈ ts ++ zs, ∀ f, f ≠ .userVirtCount → (∀ i, f ≠ .userVirtPage i) →
        (s.loadPage o.pcb virt).get u f = s.get u f) ∧
      (∀ ds ⊆ dirs L, d ∉ ds → SameTables ds s.vmm (s.loadPage o.pcb virt).vmm) ∧
      Loaded s L ts zs xs o.pcb d virt (s.loadPage o.pcb virt) ys := by
  have hmem : d ∈ dirs L := mem_dirs ho hd
  obtain ⟨p, pmm, halloc, hhead, he1, hnew⟩ := h.core.inv.evolves_alloc
  have hcore1 := h.core.of_evolves_nil he1
  have htab1 : SameTables (dirs L) s.vmm { s.vmm with pmm := pmm } :=
    h.core.sameTables he1.keeps fun _ _ => List.not_mem_nil
  have hphys : s.vmm.pmm.pmmAllocPage.1 = p := by rw [halloc]
  unfold Sched.loadPage
  simp only [halloc]
  by_cases hp0 : p = 0
  · -- no page
    rw [if_pos hp0]
    obtain ⟨hcore, hold, -⟩ := h.core.failed he1 rfl fun _ hm => absurd hm List.not_mem_nil
    exact ⟨_, ⟨hold.boot, rfl, rfl, rfl, rfl, rfl, rfl⟩, fun u hu _ _ _ => by
      obtain ⟨o', ho', rfl⟩ := h.entry hu
      exact hold.get ho' _, fun ds hsub _ => htab1.mono hsub,
      .refused (hold.get ho _) ⟨hcore, h.tasks.congr hold rfl⟩ fun _ => htab1⟩
  obtain ⟨hfp, hpold⟩ := hnew hp0
  have hpn : p ∉ held L := fun hm => hpold p (h.core.fresh p hm).inUse rfl
  have hpd : entryAt (Vmm.mem { s.vmm with pmm := pmm }) o.pcb Field.pageDirectory.index = d := by
    rw [he1.keeps.entry _ (h.core.pcb ho).inUse List.not_mem_nil _ (Field.index_lt _)]
    exact (h.tasks.ok o ho).dir d hd
  rw [if_neg hp0, hpd]
  obtain ⟨ys, hcore2, hw, htakes, hsame⟩ := hcore1.mapUser hmem virt p (pageWrite ||| pageUser)
  have hslot1 : Loadable { s.vmm with pmm := pmm } virt := hslot.imp_right fun e =>
    (he1.keeps.tableOf (h.core.inv.dir _ List.mem_cons_self).2 List.not_mem_nil).trans e
  have hmapped := hcore1.mapped_user hmem hv hslot1 hfp.inUse.aligned hw
  have hothers : ∀ ds ⊆ dirs L, d ∉ ds → SameTables ds s.vmm _ := fun ds hsub hne =>
    (htab1.mono hsub).trans (hcore1.mapUser_others hmem hw hsub hne)
  have hgone : ∀ q ∈ held L, q ∉ d :: (tableOf (Vmm.mem { s.vmm with pmm := pmm }) d
      (pdIndex virt)).toList := fun q hq => hcore1.not_written hq (List.mem_cons_of_mem _ hmem)
  have hfresh2 := hw.evolves.fresh p hfp
    (fresh_not_written hfp (List.mem_cons_of_mem _ hmem))
  have hold := h.core.sameOld (he1.keeps.trans hw.evolves.keeps) hw.current hgone
  have hinv2 : SchedInv _ L ts zs ys := ⟨hcore2, h.tasks.congr hold rfl⟩
  generalize hr : Vmm.vmmMapPage { s.vmm with pmm := pmm } d virt p (pageWrite ||| pageUser) = r at *
  obtain ⟨ok, w⟩ := r
  cases ok with
  | false =>
    -- refused: the page goes back
    obtain ⟨us, he3, -⟩ := hcore2.inv.evolves_free hfresh2
    have hcore3 : Core (w.freePage p) L us := by
      refine hcore2.of_evolves_fresh he3 (fun q hq => ?_) fun q hq hg => ?_
      · rw [List.mem_singleton.1 hq]
        exact hfresh2
      · exact absurd (List.mem_singleton.1 hg ▸ hq) hpn
    have hold3 := h.core.sameOld ((he1.keeps.trans hw.evolves.keeps).trans he3.keeps) hw.current
      fun q hq hm => by
        rcases List.mem_append.1 hm with hm | hm
        · exact hgone q hq hm
        · exact hpn (List.mem_singleton.1 hm ▸ hq)
    have htab3 : SameTables (dirs L) w (w.freePage p) := hcore2.sameTables he3.keeps fun d' hd' hm =>
      hfresh2.notDir (List.mem_singleton.1 hm ▸ hd')
    have htab2 : SameTables (dirs L) { s.vmm with pmm := pmm } w := by
      refine ⟨hw.evolves.keeps.boot, fun d' hd' i => ?_⟩
      by_cases hne : d' = d
      · rw [hne]
        exact hsame rfl i
      · exact hw.evolves.keeps.tableOf (hcore1.inv.dir d' hd').2
          (hcore1.dir_not_written (List.mem_cons_of_mem _ hmem) hd' hne)
    exact ⟨us, ⟨hold3.boot, rfl, rfl, rfl, rfl, rfl, hold3.directory⟩, fun u hu _ _ _ => by
      obtain ⟨o', ho', rfl⟩ := h.entry hu
      exact hold3.get ho' _, fun ds hsub hne => (hothers ds hsub hne).trans (htab3.mono hsub),
      .refused (hold3.get ho _) ⟨hcore3, h.tasks.congr hold3 rfl⟩
        fun _ => (htab1.trans htab2).trans htab3⟩
  | true =>
    simp only
    have hwords : ∀ u ∈ ts ++ zs, ∀ f, Sched.get { s with vmm := w } u f = s.get u f :=
      fun u hu f => by
        obtain ⟨o', ho', rfl⟩ := h.entry hu
        exact hold.get ho' f
    have hcount := hold.get ho .userVirtCount
    have ha := (h.core.pcb ho).inUse.aligned
    split
    · next hc =>
      have hreg := hinv2.registered ho hd (hmapped rfl) hfresh2 hpn hc
      -- the task's words are on none of the directories
      have hset₁ := Core.set_sameTables (s := { s with vmm := w }) hcore2 (pcb_mem_held ho)
        (.userVirtPage ⟨_, hc⟩) virt
      have hcore3 := (Core.set (s := { s with vmm := w }) hcore2 (pcb_mem_held ho)
        (.userVirtPage ⟨_, hc⟩) virt).1
      have hset := hset₁.trans (hcore3.set_sameTables (pcb_mem_held ho) .userVirtCount
        (Sched.get { s with vmm := w } o.pcb .userVirtCount + 1))
      refine ⟨ys, ⟨hold.boot, rfl, rfl, rfl, rfl, rfl, hold.directory⟩, fun u hu f hne hnp => ?_,
        fun ds hsub hne => (hothers ds hsub hne).trans (hset.mono hsub), ?_⟩
      · have hu' := (h.fresh hu).inUse.aligned
        rw [get_set_of_ne ha hu' (.inl hne), get_set_of_ne ha hu' (.inl (hnp _))]
        exact hwords u hu f
      obtain ⟨x, us, hx⟩ : ∃ x us, xs = x :: us := by
        cases xs with
        | nil => exact absurd hhead hp0
        | cons x us => exact ⟨x, us, rfl⟩
      rw [hx, List.headD_cons] at hhead
      refine .registered ?_ (hphys ▸ hreg) hx (hphys.trans hhead) ?_
      · rw [get_set_self, hcount]
        intro e
        have := congrArg UInt32.toNat e
        rw [hcount] at hc
        rw [UInt32.toNat_add, UInt32.toNat_one] at this
        omega
      · have hd1 := htab1.tables d (List.mem_cons_of_mem _ hmem)
        have hd2 := hset.tables d (List.mem_cons_of_mem _ hmem)
        have htakes := htakes rfl
        rw [hx, List.tail_cons] at htakes
        refine htakes.imp (fun ⟨e, ht⟩ => ⟨e, fun j => ?_⟩) fun ⟨y, e, hn, ht⟩ => ⟨y, e, ?_, fun j => ?_⟩
        · rw [hd2, ht, hd1]
        · rw [← hd1]
          exact hn
        · rw [hd2, ht, hd1]
    · next hc =>
      exact ⟨ys, ⟨hold.boot, rfl, rfl, rfl, rfl, rfl, hold.directory⟩,
        fun u hu f _ _ => hwords u hu f, hothers,
        .refused hcount hinv2 fun hlt => absurd (by rwa [hcount]) hc⟩

end

end HaoSys.Proc
