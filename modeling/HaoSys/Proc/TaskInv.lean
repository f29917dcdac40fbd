import HaoSys.Lib.Follows
import HaoSys.Mm.VmmFrame
import HaoSys.Proc.Task

/-!
# The invariant of the scheduler

The ledger has an entry `Owned` for every task that was created and is not yet
freed: the pages taken from the allocator for it. `Core` says that these pages
belong to one task each and to no paging structure, and where the task's user
pages are mapped; it depends on the memory managers only. `Tasks` says what
the tasks' words hold and how the two lists run through them.
-/

namespace HaoSys.Proc

open HaoSys.Lib HaoSys.Mm

/-- What was allocated for a task: its `task_t`, its kernel stack, its directory if it is a user
task, and its registered user pages with their virtual addresses. -/
structure Owned where
  pcb : UInt32
  stack : UInt32
  dir : Option UInt32
  maps : List (UInt32 × UInt32)

namespace Owned

/-- The pages that are not paging structures. -/
def held (o : Owned) : List UInt32 := o.pcb :: o.stack :: o.maps.map Prod.snd

end Owned

/-- The directories of the user tasks. -/
def dirs (L : List Owned) : List UInt32 := L.filterMap Owned.dir

def held (L : List Owned) : List UInt32 := L.flatMap Owned.held

/-- The directory slot of the loader's own mapping, 0x20000000 and up. -/
def loadSlot : UInt32 := 128

/-! ## The pages -/

/-- The registered pages are mapped, in a table that the kernel's directory does not have. -/
structure Mapped (v : Vmm) (d : UInt32) (p : UInt32 × UInt32) : Prop where
  aligned : p.1.toNat % 4096 = 0
  translate : v.translate d p.1 = some p.2
  own : tableOf v.mem d (pdIndex p.1) ≠ tableOf v.mem v.kernelPageDirectory (pdIndex p.1)

structure Core (v : Vmm) (L : List Owned) (xs : List UInt32) : Prop where
  inv : v.Inv (dirs L) xs
  dirsNodup : (dirs L).Nodup
  heldNodup : (held L).Nodup
  fresh : ∀ p ∈ held L, v.Fresh (dirs L) xs p
  maps : ∀ o ∈ L, ∀ p ∈ o.maps, ∃ d, o.dir = some d ∧ Mapped v d p
  scan : ∀ i t, i ≠ loadSlot → tableOf v.mem v.kernelPageDirectory i = some t → i < v.kernelPdes

/-- Where user pages go: anywhere but the loader's window, once the kernel has a table for that. -/
def Loadable (v : Vmm) (virt : UInt32) : Prop :=
  pdIndex virt ≠ loadSlot ∨ tableOf v.mem v.kernelPageDirectory (pdIndex virt) = none

section Pages

variable {v w : Vmm} {L : List Owned} {xs ys gone : List UInt32} {o : Owned} {d p t : UInt32}

theorem mem_dirs (ho : o ∈ L) (hd : o.dir = some d) : d ∈ dirs L :=
  List.mem_filterMap.2 ⟨o, ho, hd⟩

theorem mem_held (ho : o ∈ L) (hp : p ∈ o.held) : p ∈ held L := List.mem_flatMap.2 ⟨o, ho, hp⟩

theorem pcb_mem_held (ho : o ∈ L) : o.pcb ∈ held L := mem_held ho List.mem_cons_self

theorem stack_mem_held (ho : o ∈ L) : o.stack ∈ held L := mem_held ho (by simp [Owned.held])

theorem Core.pcb (h : Core v L xs) (ho : o ∈ L) : v.Fresh (dirs L) xs o.pcb :=
  h.fresh _ (pcb_mem_held ho)

theorem Core.stack (h : Core v L xs) (ho : o ∈ L) : v.Fresh (dirs L) xs o.stack :=
  h.fresh _ (stack_mem_held ho)

/-- Two entries that hold one page are the same entry. -/
theorem Core.eq_of_held (h : Core v L xs) {o' : Owned} (ho : o ∈ L) (ho' : o' ∈ L)
    (hp : p ∈ o.held) (hp' : p ∈ o'.held) : o = o' := by
  by_contra hne
  have hsymm : Std.Symm (Function.onFun List.Disjoint Owned.held) := ⟨fun _ _ hd => hd.symm⟩
  exact (List.nodup_flatMap.1 h.heldNodup).2.forall ho ho' hne hp hp'

theorem Core.eq_of_pcb (h : Core v L xs) {o' : Owned} (ho : o ∈ L) (ho' : o' ∈ L)
    (hp : o.pcb = o'.pcb) : o = o' :=
  h.eq_of_held ho ho' List.mem_cons_self (hp ▸ List.mem_cons_self)

/-- The table behind a registered page is one of the pages in use. -/
theorem Mapped.table {q : UInt32 × UInt32} (h : Mapped v d q) :
    ∃ t, tableOf v.mem d (pdIndex q.1) = some t := by
  have htr := h.translate
  rw [Vmm.translate_eq] at htr
  cases ht : tableOf v.mem d (pdIndex q.1) with
  | none =>
    rw [ht] at htr
    cases htr
  | some t => exact ⟨t, rfl⟩

theorem dirs_sublist {L' : List Owned} (h : L'.Sublist L) : (dirs L').Sublist (dirs L) :=
  h.filterMap _

theorem held_sublist {L' : List Owned} (h : L'.Sublist L) : (held L').Sublist (held L) :=
  h.flatMap _

/-- A registered page whose directory and table are left alone stays registered. -/
theorem Mapped.of_keeps {q : UInt32 × UInt32} (hm : Mapped v d q) (hk : v.KeepsOff xs w ys gone)
    (hd : v.pmm.InUse xs d) (hdg : d ∉ gone) (hk' : v.pmm.InUse xs v.kernelPageDirectory)
    (hkg : v.kernelPageDirectory ∉ gone)
    (ht : ∀ t, tableOf v.mem d (pdIndex q.1) = some t →
      tableOf v.mem v.kernelPageDirectory (pdIndex q.1) ≠ some t → v.pmm.InUse xs t ∧ t ∉ gone) :
    Mapped w d q := by
  refine ⟨hm.aligned, ?_, ?_⟩
  · rw [hk.translate hd hdg, hm.translate]
    intro u hu
    exact ht u hu fun e => hm.own (by rw [hu, e])
  · rw [hk.boot.1, hk.tableOf hd hdg, hk.tableOf hk' hkg]
    exact hm.own

theorem Core.scan_of_keeps (h : Core v L xs) (hk : v.KeepsOff xs w ys gone)
    (hkg : v.kernelPageDirectory ∉ gone) {i : UInt32} (hi : i ≠ loadSlot)
    (ht : tableOf w.mem w.kernelPageDirectory i = some t) : i < w.kernelPdes := by
  rw [hk.boot.1, hk.tableOf (h.inv.dir _ List.mem_cons_self).2 hkg] at ht
  have hpdes : w.kernelPdes = v.kernelPdes := by
    rw [Vmm.kernelPdes, Vmm.kernelPdes, hk.boot.2.2]
  rw [hpdes]
  exact h.scan i t hi ht

/-- A call that leaves the directories and the tables of the registered pages, for the tasks `L'`
that stay. -/
theorem Core.of_evolves {L' : List Owned} (h : Core v L xs) (hL : L'.Sublist L)
    (he : v.Evolves (dirs L) xs w (dirs L') ys gone)
    (hfresh : ∀ p ∈ held L', w.Fresh (dirs L') ys p)
    (hdir : ∀ d ∈ v.kernelPageDirectory :: dirs L', d ∉ gone)
    (htab : ∀ d ∈ dirs L', ∀ j t, tableOf v.mem d j = some t →
      tableOf v.mem v.kernelPageDirectory j ≠ some t → t ∉ gone) : Core w L' ys := by
  have hsub : v.kernelPageDirectory :: dirs L' ⊆ v.kernelPageDirectory :: dirs L :=
    List.cons_subset_cons _ (dirs_sublist hL).subset
  have hk := List.mem_cons_self (a := v.kernelPageDirectory) (l := dirs L')
  refine ⟨he.inv, h.dirsNodup.sublist (dirs_sublist hL), h.heldNodup.sublist (held_sublist hL),
    hfresh, fun o ho p hp => ?_, fun _ _ => h.scan_of_keeps he.keeps (hdir _ hk)⟩
  obtain ⟨d, hd, hm⟩ := h.maps o (hL.subset ho) p hp
  have hmem := mem_dirs ho hd
  have hmem' := List.mem_cons_of_mem v.kernelPageDirectory hmem
  refine ⟨d, hd, hm.of_keeps he.keeps (h.inv.dir d (hsub hmem')).2 (hdir d hmem')
    (h.inv.dir _ (hsub hk)).2 (hdir _ hk) fun u hu hku => ⟨?_, htab d hmem _ u hu hku⟩⟩
  exact (h.inv.table d (hsub hmem') _ u hu).1

/-- A call that leaves every page in use. -/
theorem Core.of_evolves_nil (h : Core v L xs) (he : v.Evolves (dirs L) xs w (dirs L) ys []) :
    Core w L ys :=
  h.of_evolves (.refl L) he (fun p hp => he.fresh p (h.fresh p hp) List.not_mem_nil)
    (fun _ _ => List.not_mem_nil) fun _ _ _ _ _ _ => List.not_mem_nil

/-- A call that writes or frees pages nothing points to; the ledger's must still be such. -/
theorem Core.of_evolves_fresh (h : Core v L xs) (he : v.Evolves (dirs L) xs w (dirs L) ys gone)
    (hgone : ∀ p ∈ gone, v.Fresh (dirs L) xs p)
    (hfresh : ∀ p ∈ held L, p ∈ gone → w.Fresh (dirs L) ys p) : Core w L ys := by
  refine h.of_evolves (.refl L) he (fun p hp => ?_) (fun d hd hg => (hgone d hg).notDir hd)
    fun d hd j t ht _ hg => (hgone t hg).notTable d (List.mem_cons_of_mem _ hd) j ht
  by_cases hg : p ∈ gone
  · exact hfresh p hp hg
  · exact he.fresh p (h.fresh p hp) hg

/-- A store to a page nothing points to. -/
theorem Core.writeFresh (h : Core v L xs) (hp : v.Fresh (dirs L) xs p) {m : Mem}
    (hm : ∀ c, addrToIndex c ≠ addrToIndex p → m c = v.mem c) :
    Core (v.setMem m) L xs ∧ v.Evolves (dirs L) xs (v.setMem m) (dirs L) xs [p] ∧
      (v.setMem m).Fresh (dirs L) xs p := by
  obtain ⟨he, hf⟩ := h.inv.evolves_write hp hm
  refine ⟨h.of_evolves_fresh he (fun q hq => ?_) fun q _ hq => ?_, he, hf⟩
  · rw [List.mem_singleton.1 hq]
    exact hp
  · rw [List.mem_singleton.1 hq]
    exact hf

/-- A store to a page of the ledger. -/
theorem Core.write (h : Core v L xs) (hp : p ∈ held L) {m : Mem}
    (hm : ∀ c, addrToIndex c ≠ addrToIndex p → m c = v.mem c) :
    Core (v.setMem m) L xs ∧ v.Evolves (dirs L) xs (v.setMem m) (dirs L) xs [p] := by
  obtain ⟨hcore, he, -⟩ := h.writeFresh (h.fresh p hp) hm
  exact ⟨hcore, he⟩

/-- The pointer to the current directory is no part of it. -/
theorem Core.setDirectory (h : Core v L xs) (d : UInt32) :
    Core { v with currentDirectory := d } L xs := by
  obtain ⟨h1, h2, h3, h4, h5, h6⟩ := h
  refine ⟨⟨h1.pmm, h1.dir, h1.kernel, h1.table, h1.table_ne, h1.sharing⟩, h2, h3, ?_, ?_, h6⟩
  · exact fun p hp => ⟨(h4 p hp).ne_zero, (h4 p hp).inUse, (h4 p hp).notDir, (h4 p hp).notTable⟩
  · intro o ho p hp
    obtain ⟨d', hd, hm⟩ := h5 o ho p hp
    exact ⟨d', hd, hm.aligned, hm.translate, hm.own⟩

/-- A new task, with its pages taken before and its directory made by the call. -/
theorem Core.add (h : Core v L xs) (he : v.Evolves (dirs L) xs w (dirs (o :: L)) ys [])
    (hmaps : o.maps = []) (hdir : ∀ d, o.dir = some d → d ∉ dirs L)
    (hpcb : v.Fresh (dirs L) xs o.pcb) (hstack : v.Fresh (dirs L) xs o.stack)
    (hne : o.pcb ≠ o.stack) (hp : o.pcb ∉ held L) (hs : o.stack ∉ held L) : Core w (o :: L) ys := by
  have hheld : held (o :: L) = o.pcb :: o.stack :: held L := by
    simp [held, Owned.held, hmaps]
  refine ⟨he.inv, ?_, ?_, fun p hmem => ?_, fun o' ho' p hp' => ?_,
    fun _ _ => h.scan_of_keeps he.keeps List.not_mem_nil⟩
  · unfold dirs
    rw [List.filterMap_cons]
    split
    · exact h.dirsNodup
    · next d hd => exact List.nodup_cons.2 ⟨hdir d hd, h.dirsNodup⟩
  · rw [hheld]
    exact List.nodup_cons.2 ⟨by simp [hne, hp], List.nodup_cons.2 ⟨hs, h.heldNodup⟩⟩
  · rw [hheld] at hmem
    rcases List.mem_cons.1 hmem with rfl | hmem
    · exact he.fresh _ hpcb List.not_mem_nil
    · rcases List.mem_cons.1 hmem with rfl | hmem
      · exact he.fresh _ hstack List.not_mem_nil
      · exact he.fresh _ (h.fresh p hmem) List.not_mem_nil
  · rcases List.mem_cons.1 ho' with rfl | ho'
    · rw [hmaps] at hp'
      cases hp'
    · obtain ⟨d, hd, hm⟩ := h.maps o' ho' p hp'
      have hmem := List.mem_cons_of_mem v.kernelPageDirectory (mem_dirs ho' hd)
      refine ⟨d, hd, hm.of_keeps he.keeps (h.inv.dir d hmem).2 List.not_mem_nil
        (h.inv.dir _ List.mem_cons_self).2 List.not_mem_nil fun u hu _ => ⟨?_, List.not_mem_nil⟩⟩
      exact (h.inv.table d hmem _ u hu).1

/-- The order of the ledger does not matter. -/
theorem Core.perm {L' : List Owned} (h : Core v L xs) (hp : L.Perm L') : Core v L' xs := by
  have hdirs : (dirs L).Perm (dirs L') := hp.filterMap _
  have hheld : (held L).Perm (held L') := hp.flatMap_right _
  have hsub : v.kernelPageDirectory :: dirs L' ⊆ v.kernelPageDirectory :: dirs L :=
    List.cons_subset_cons _ hdirs.symm.subset
  refine ⟨h.inv.subset hdirs.symm.subset, hdirs.nodup h.dirsNodup, hheld.nodup h.heldNodup,
    fun p hp => ?_, fun o ho => h.maps o (hp.symm.subset ho), h.scan⟩
  have hf := h.fresh p (hheld.symm.subset hp)
  exact ⟨hf.ne_zero, hf.inUse, fun hm => hf.notDir (hsub hm), fun d hd => hf.notTable d (hsub hd)⟩

end Pages

/-- The free pages. -/
def Sched.Free (s : Sched) (i : UInt32) : Prop :=
  i < s.vmm.pmm.totalPages ∧ s.vmm.pmm.getPageBit i = true

theorem Core.free_iff {s : Sched} {L : List Owned} {xs : List UInt32} (h : Core s.vmm L xs)
    (i : UInt32) : s.Free i ↔ i ∈ xs := (h.inv.pmm.mem_iff i).symm

/-! ## The words of the tasks -/

theorem Field.index_lt (f : Field) : f.index.toNat < 1024 := by
  cases f with
  | userVirtPage i =>
    have := i.isLt
    change (UInt32.ofNat (12 + i.val)).toNat < 1024
    rw [UInt32.toNat_ofNat']
    omega
  | _ => decide

/-- A field's number; different fields are different words. -/
theorem Field.index_inj {f g : Field} (h : f.index = g.index) : f = g := by
  have hnat : ∀ i : Fin 96, (UInt32.ofNat (12 + i.val)).toNat = 12 + i.val := fun i => by
    rw [UInt32.toNat_ofNat']
    omega
  have h := congrArg UInt32.toNat h
  cases f <;> cases g <;> simp only [index, hnat, UInt32.reduceToNat] at h <;>
    first | rfl | (exfalso; omega) | (congr 1; exact Fin.ext (by omega))

structure TaskOk (s : Sched) (o : Owned) : Prop where
  esp0 : s.get o.pcb .kernelEsp0 = if o.pcb = s.idleTask then 0 else o.stack + 4096
  user : s.get o.pcb .isUser = if o.dir.isSome then 1 else 0
  dir : ∀ d, o.dir = some d → s.get o.pcb .pageDirectory = d
  count : (s.get o.pcb .userVirtCount).toNat = o.maps.length
  bound : o.maps.length ≤ 96
  virt : ∀ (i : Fin 96) p, o.maps[i.val]? = some p → s.get o.pcb (.userVirtPage i) = p.1

/-- The list `ts` and the zombies `zs` are the tasks of the ledger. Those that are not current are
ready, but for the idle task, which `load_and_run_shell` leaves running. -/
structure Tasks (s : Sched) (L : List Owned) (ts zs : List UInt32) : Prop where
  ok : ∀ o ∈ L, TaskOk s o
  list : Follows (fun t => s.get t .next) s.taskList ts 0
  zombies : Follows (fun t => s.get t .next) s.zombieList zs 0
  perm : (ts ++ zs).Perm (L.map Owned.pcb)
  current : s.currentTask ∈ ts
  idle : s.idleTask ∈ ts
  ready : ∀ t ∈ ts, t ≠ s.currentTask → s.get t .state = TaskState.ready.code ∨
    t = s.idleTask ∧ s.get t .state = TaskState.running.code

structure SchedInv (s : Sched) (L : List Owned) (ts zs xs : List UInt32) : Prop where
  core : Core s.vmm L xs
  tasks : Tasks s L ts zs

section Words

variable {s : Sched} {L : List Owned} {ts zs xs : List UInt32} {o : Owned} {t x : UInt32}
  {f g : Field}

theorem TaskOk.congr {s' : Sched} (h : TaskOk s o) (hidle : s'.idleTask = s.idleTask)
    (hget : ∀ f, f ≠ .state → f ≠ .next → f ≠ .esp → s'.get o.pcb f = s.get o.pcb f) :
    TaskOk s' o := by
  refine ⟨?_, ?_, fun d hd => ?_, ?_, h.bound, fun i p hp => ?_⟩
  · rw [hget _ (by decide) (by decide) (by decide), hidle, h.esp0]
  · rw [hget _ (by decide) (by decide) (by decide), h.user]
  · rw [hget _ (by decide) (by decide) (by decide), h.dir d hd]
  · rw [hget _ (by decide) (by decide) (by decide), h.count]
  · rw [hget _ (by simp) (by simp) (by simp), h.virt i p hp]

theorem SchedInv.entry (h : SchedInv s L ts zs xs) (ht : t ∈ ts ++ zs) : ∃ o ∈ L, o.pcb = t :=
  List.mem_map.1 (h.tasks.perm.subset ht)

theorem SchedInv.mem_lists (h : SchedInv s L ts zs xs) (ho : o ∈ L) : o.pcb ∈ ts ++ zs :=
  h.tasks.perm.symm.subset (List.mem_map_of_mem ho)

theorem Core.pcbs_nodup {v : Vmm} (h : Core v L xs) : (L.map Owned.pcb).Nodup := by
  refine List.Nodup.map_on (fun o ho o' ho' e => h.eq_of_pcb ho ho' e) ?_
  have hpair := (List.nodup_flatMap.1 h.heldNodup).2
  refine hpair.imp fun {o o'} hd => ?_
  rintro rfl
  exact hd List.mem_cons_self List.mem_cons_self

theorem SchedInv.nodup (h : SchedInv s L ts zs xs) : (ts ++ zs).Nodup :=
  h.tasks.perm.symm.nodup h.core.pcbs_nodup

theorem SchedInv.fresh (h : SchedInv s L ts zs xs) (ht : t ∈ ts ++ zs) :
    s.vmm.Fresh (dirs L) xs t := by
  obtain ⟨o, ho, rfl⟩ := h.entry ht
  exact h.core.pcb ho

theorem SchedInv.zero_not_mem (h : SchedInv s L ts zs xs) : (0 : UInt32) ∉ ts ++ zs :=
  fun h0 => (h.fresh h0).ne_zero rfl

/-- A word of a task after a store to a word of a task. -/
theorem get_set (ht : t.toNat % 4096 = 0) {u : UInt32} (hu : u.toNat % 4096 = 0) :
    (s.set t f x).get u g = if u = t ∧ g = f then x else s.get u g := by
  unfold Sched.set Sched.get
  rw [Vmm.setMem_mem, entryAt_storeEntry ht hu f.index_lt g.index_lt]
  by_cases hc : u = t ∧ g = f
  · rw [if_pos hc, if_pos ⟨hc.1, by rw [hc.2]⟩]
  · rw [if_neg hc, if_neg fun e => hc ⟨e.1, Field.index_inj e.2⟩]

theorem get_set_of_ne (ht : t.toNat % 4096 = 0) {u : UInt32} (hu : u.toNat % 4096 = 0)
    (hne : g ≠ f ∨ u ≠ t) : (s.set t f x).get u g = s.get u g := by
  rw [get_set ht hu, if_neg]
  rintro ⟨e1, e2⟩
  exact hne.elim (fun h => h e2) fun h => h e1

theorem get_set_self (s : Sched) (t : UInt32) (f : Field) (x : UInt32) :
    (s.set t f x).get t f = x := entryAt_storeEntry_self ..

theorem Core.set (h : Core s.vmm L xs) (ho : t ∈ held L) (f : Field) (x : UInt32) :
    Core (s.set t f x).vmm L xs ∧
      s.vmm.Evolves (dirs L) xs (s.set t f x).vmm (dirs L) xs [t] :=
  h.write ho fun _ hc => storeEntry_apply (h.fresh t ho).inUse.aligned f.index_lt hc

/-- The kernel's directory and the directories `ds` keep their tables, and the memory its layout. -/
structure SameTables (ds : List UInt32) (v w : Vmm) : Prop where
  boot : v.SameBoot w
  tables : ∀ d ∈ v.kernelPageDirectory :: ds, ∀ i, tableOf w.mem d i = tableOf v.mem d i

theorem SameTables.refl (ds : List UInt32) (v : Vmm) : SameTables ds v v :=
  ⟨.refl v, fun _ _ _ => rfl⟩

theorem SameTables.trans {ds : List UInt32} {u v w : Vmm} (h₁ : SameTables ds u v)
    (h₂ : SameTables ds v w) : SameTables ds u w :=
  ⟨h₁.boot.trans h₂.boot, fun d hd i => by
    rw [← h₁.tables d hd, h₂.tables d (by rwa [h₁.boot.1])]⟩

theorem SameTables.mono {ds es : List UInt32} {v w : Vmm} (h : SameTables ds v w) (hsub : es ⊆ ds) :
    SameTables es v w :=
  ⟨h.boot, fun d hd => h.tables d (List.cons_subset_cons _ hsub hd)⟩

theorem SameTables.setDirectory {ds : List UInt32} {v w : Vmm} (h : SameTables ds v w) (d : UInt32) :
    SameTables ds v { w with currentDirectory := d } := ⟨h.boot, h.tables⟩

/-- A call that does not touch the directories. -/
theorem Core.sameTables {v w : Vmm} {ys gone : List UInt32} (h : Core v L xs)
    (hk : v.KeepsOff xs w ys gone) (hg : ∀ d ∈ v.kernelPageDirectory :: dirs L, d ∉ gone) :
    SameTables (dirs L) v w :=
  ⟨hk.boot, fun d hd _ => hk.tableOf (h.inv.dir d hd).2 (hg d hd)⟩

theorem Core.set_sameTables (h : Core s.vmm L xs) (ho : t ∈ held L) (f : Field) (x : UInt32) :
    SameTables (dirs L) s.vmm (s.set t f x).vmm :=
  h.sameTables (h.set ho f x).2.keeps fun _ hd hm =>
    (h.fresh t ho).notDir (List.mem_singleton.1 hm ▸ hd)

end Words

end HaoSys.Proc
