import HaoSys.Mm.VmmDestroy
import HaoSys.Mm.VmmLaws

/-!
# What a call leaves alone

`Evolves v dirs xs w ds ys gone`: from `v` to `w` the invariant is kept, with
the directories `ds` for `dirs` and the free pages `ys` for `xs`; the pages in
use outside `gone` keep their contents, and those that nothing pointed to are
still such pages. `gone` lists what was freed or written. There is one lemma
for each call, and `Evolves.trans` for the calls of a routine.
-/

namespace HaoSys.Mm

open HaoSys.Lib

theorem Pmm.Inv.unique {s : Pmm} {xs ys : List UInt32} (h : s.Inv xs) (h' : s.Inv ys) : xs = ys :=
  h.follows.unique h'.follows h.nilLink_notMem h'.nilLink_notMem

namespace Vmm

variable {v w u : Vmm} {dirs ds es xs ys zs gone more : List UInt32} {dir t virt phys flags : UInt32}

structure Evolves (v : Vmm) (dirs xs : List UInt32) (w : Vmm) (ds ys gone : List UInt32) :
    Prop where
  inv : w.Inv ds ys
  keeps : v.KeepsOff xs w ys gone
  fresh : ∀ p, v.Fresh dirs xs p → p ∉ gone → w.Fresh ds ys p

theorem Evolves.refl (h : v.Inv dirs xs) : v.Evolves dirs xs v dirs xs [] :=
  ⟨h, .refl v xs, fun _ hp _ => hp⟩

theorem Evolves.trans (h1 : v.Evolves dirs xs w ds ys gone) (h2 : w.Evolves ds ys u es zs more) :
    v.Evolves dirs xs u es zs (gone ++ more) := by
  refine ⟨h2.inv, h1.keeps.trans h2.keeps, fun p hp hm => ?_⟩
  rw [List.mem_append, not_or] at hm
  exact h2.fresh p (h1.fresh p hp hm.1) hm.2

/-- Only pages in use count among those that are gone. -/
theorem Evolves.mono (h : v.Evolves dirs xs w ds ys gone)
    (hsub : ∀ a, v.pmm.InUse xs a → a ∈ gone → a ∈ more) : v.Evolves dirs xs w ds ys more :=
  ⟨h.inv, ⟨h.keeps.boot, fun a ha hm => h.keeps.inUse a ha fun hg => hm (hsub a ha hg),
    fun a ha hm => h.keeps.entry a ha fun hg => hm (hsub a ha hg)⟩,
    fun p hp hm => h.fresh p hp fun hg => hm (hsub p hp.inUse hg)⟩

theorem Keeps.keepsOff (h : v.Keeps xs w ys) : v.KeepsOff xs w ys [] :=
  ⟨h.boot, fun a ha _ => h.inUse a ha, fun a ha _ => h.entry a ha⟩

/-- Nothing is gone that was in use. -/
theorem KeepsOff.of_new (h : v.KeepsOff xs w ys gone) (hg : ∀ a, v.pmm.InUse xs a → a ∉ gone) :
    v.KeepsOff xs w ys [] :=
  ⟨h.boot, fun a ha _ => h.inUse a ha (hg a ha), fun a ha _ => h.entry a ha (hg a ha)⟩

/-- The translation of an address whose directory and table are left alone. -/
theorem KeepsOff.translate (h : v.KeepsOff xs w ys gone) (hu : v.pmm.InUse xs dir)
    (hg : dir ∉ gone) {a : UInt32}
    (ht : ∀ t, HaoSys.Mm.tableOf v.mem dir (pdIndex a) = some t → v.pmm.InUse xs t ∧ t ∉ gone) :
    w.translate dir a = v.translate dir a := by
  rw [translate_eq, translate_eq, h.tableOf hu hg]
  cases htab : HaoSys.Mm.tableOf v.mem dir (pdIndex a) with
  | none => rfl
  | some t =>
    obtain ⟨hut, hgt⟩ := ht t htab
    simp only [Option.bind_some]
    rw [h.entry t hut hgt _ (ptIndex_lt a)]

/-! ## Pages -/

theorem Inv.evolves_keeps (h : v.Inv dirs xs) (hw : w.Inv dirs ys) (hk : v.Keeps xs w ys) :
    v.Evolves dirs xs w dirs ys [] :=
  ⟨hw, hk.keepsOff, fun _ hp hm => hp.keepsOff h hk.keepsOff hm fun _ _ => List.not_mem_nil⟩

/-- `pmm_alloc_page`. -/
theorem Inv.evolves_alloc (h : v.Inv dirs xs) :
    ∃ p s, v.pmm.pmmAllocPage = (p, s) ∧ p = indexToAddr (xs.headD 0) ∧
      v.Evolves dirs xs { v with pmm := s } dirs xs.tail [] ∧
      (p ≠ 0 → Fresh { v with pmm := s } dirs xs.tail p ∧ ∀ a, v.pmm.InUse xs a → a ≠ p) := by
  cases xs with
  | nil =>
    refine ⟨0, v.pmm, h.pmm.pmmAllocPage_nil, rfl, .refl h, fun hne => absurd rfl hne⟩
  | cons x xs =>
    obtain ⟨haddr, hs⟩ := h.pmm.pmmAllocPage
    have hlay := Pmm.sameMachine_pmmAllocPage v.pmm
    obtain ⟨hinv, hkeep⟩ := h.takePage hs hlay
      (fun i hi => List.mem_cons_of_mem x hi) fun c hc => h.pmm.pmmAllocPage_mem hc
    have hx20 := h.pmm.fits.lt (h.pmm.lt (i := x) List.mem_cons_self)
    have hpage : addrToIndex (indexToAddr x) = x := addrToIndex_indexToAddr hx20
    have hfree : ∀ a, v.pmm.InUse (x :: xs) a → a ≠ indexToAddr x := by
      rintro a ha rfl
      exact ha.notFree (by rw [hpage]; exact List.mem_cons_self)
    refine ⟨indexToAddr x, v.pmm.pmmAllocPage.2, Prod.ext haddr rfl, rfl,
      h.evolves_keeps hinv hkeep, fun hz => ⟨⟨hz, ⟨?_, ?_, ?_⟩, ?_, ?_⟩, hfree⟩⟩
    · rw [indexToAddr_toNat hx20]
      omega
    · rw [hpage]
      exact (List.nodup_cons.1 h.pmm.nodup).1
    · rw [hpage]
      exact fun hb => h.pmm.not_bitmapPage List.mem_cons_self (hb.congr hlay.1.1 hlay.1.2)
    · exact fun hm => hfree _ (h.dir _ hm).2 rfl
    · intro d hd i ht
      rw [hkeep.tableOf (h.dir d hd).2] at ht
      exact hfree _ (h.table d hd i _ ht).1 rfl

/-- `pmm_alloc_page` and clearing the page. -/
theorem Inv.evolves_allocatePt (h : v.Inv dirs xs) :
    ∃ p w, v.allocatePt = (p, w) ∧ p = indexToAddr (xs.headD 0) ∧
      v.Evolves dirs xs w dirs xs.tail [] ∧ w.currentDirectory = v.currentDirectory ∧
      (p ≠ 0 → w.Fresh dirs xs.tail p ∧ (∀ a, v.pmm.InUse xs a → a ≠ p) ∧
        ∀ i, i.toNat < 1024 → entryAt w.mem p i = 0) := by
  obtain ⟨p, w, halloc, haddr, hinv, hkeep, hfresh⟩ := h.allocatePt
  refine ⟨p, w, halloc, haddr, h.evolves_keeps hinv hkeep, ?_, hfresh⟩
  have hw : w = v.allocatePt.2 := by rw [halloc]
  rw [hw]
  unfold Vmm.allocatePt
  simp only
  split <;> rfl

/-- A store inside a page that nothing points to. -/
theorem Inv.evolves_write (h : v.Inv dirs xs) (ht : v.Fresh dirs xs t) {m : Mem}
    (hm : ∀ c, addrToIndex c ≠ addrToIndex t → m c = v.mem c) :
    v.Evolves dirs xs (v.setMem m) dirs xs [t] ∧ (v.setMem m).Fresh dirs xs t := by
  obtain ⟨hinv, hfresh, hentry⟩ := h.writeFresh ht hm
  have hk : v.KeepsOff xs (v.setMem m) xs [t] :=
    ⟨sameBoot_setMem v m, fun a ha _ => ha.congr, fun a ha hm i hi =>
      hentry a (fun e => hm (List.mem_singleton.2 e)) ha.aligned i hi⟩
  refine ⟨⟨hinv, hk, fun p hp hm => hp.keepsOff h hk hm fun d hd hm => ?_⟩, hfresh⟩
  exact ht.notDir (List.mem_singleton.1 hm ▸ hd)

theorem Inv.evolves_free (h : v.Inv dirs xs) (ht : v.Fresh dirs xs t) :
    ∃ ys, v.Evolves dirs xs (v.freePage t) dirs ys [t] ∧
      GivesBack v.pmm.totalPages [t] xs ys := by
  obtain ⟨ys, hinv, hk, -⟩ := h.freePage ht
  refine ⟨ys, ⟨hinv, hk, fun p hp hm => hp.keepsOff h hk hm fun d hd hm => ?_⟩,
    h.givesBack ht hinv.pmm⟩
  exact ht.notDir (List.mem_singleton.1 hm ▸ hd)

/-- Frees in a row: each page goes to the front of the list. -/
theorem Inv.evolves_frees (h : v.Inv dirs xs) (hps : ∀ p ∈ ps, v.Fresh dirs xs p)
    (hnd : ps.Nodup) (hlt : ∀ p ∈ ps, addrToIndex p < v.pmm.totalPages) :
    v.Evolves dirs xs (ps.foldl Vmm.freePage v) dirs ((ps.map addrToIndex).reverse ++ xs) ps := by
  induction ps generalizing v xs with
  | nil => exact .refl h
  | cons p ps ih =>
    obtain ⟨ys, hinv, hk, -, hys⟩ := h.freePage (hps p List.mem_cons_self)
    obtain rfl := hys (hlt p List.mem_cons_self)
    have he : v.Evolves dirs xs (v.freePage p) dirs (addrToIndex p :: xs) [p] := by
      obtain ⟨us, he, -⟩ := h.evolves_free (hps p List.mem_cons_self)
      rwa [he.inv.pmm.unique hinv.pmm] at he
    rw [List.nodup_cons] at hnd
    have hrest := ih hinv (fun q hq => ?_) hnd.2 fun q hq => ?_
    · have := he.trans hrest
      rw [List.map_cons, List.reverse_cons, List.append_assoc]
      exact this
    · refine he.fresh q (hps q (List.mem_cons_of_mem _ hq)) fun hm => ?_
      exact hnd.1 (List.mem_singleton.1 hm ▸ hq)
    · rw [hk.boot.2.1.2]
      exact hlt q (List.mem_cons_of_mem _ hq)

/-- The page at the head of `xs` goes back once the rest has lost page 0 at most. -/
theorem Inv.evolves_giveBack (h : v.Inv dirs zs) (hsub : xs ⊆ zs)
    (hne : indexToAddr (xs.headD 0) ≠ 0) (hw : w.Inv dirs (xs.tail.erase 0))
    (hpages : w.pmm.totalPages = v.pmm.totalPages)
    (hf : w.Fresh dirs (xs.tail.erase 0) (indexToAddr (xs.headD 0))) :
    w.Evolves dirs (xs.tail.erase 0) (w.freePage (indexToAddr (xs.headD 0))) dirs (xs.erase 0)
      [indexToAddr (xs.headD 0)] := by
  cases xs with
  | nil => exact absurd rfl hne
  | cons x xs =>
    rw [List.headD_cons] at hne hf ⊢
    rw [List.tail_cons] at hw hf ⊢
    have hmem : x ∈ zs := hsub List.mem_cons_self
    have hx := h.pmm.lt hmem
    have hx0 : x ≠ 0 := fun e => hne ((h.pmm.indexToAddr_eq_zero hmem).2 e)
    have hpage : addrToIndex (indexToAddr x) = x := addrToIndex_indexToAddr (h.pmm.fits.lt hx)
    have he := hw.evolves_frees (show ∀ p ∈ [indexToAddr x], _ from by simpa using hf)
      (List.nodup_singleton _) (by simpa [hpage, hpages] using hx)
    rw [List.erase_cons_tail (by simpa using hx0)]
    simpa [hpage] using he

/-! ## Directories -/

theorem Inv.evolves_create (h : v.Inv dirs xs) :
    ∃ d w, v.vmmCreateDirectory = (d, w) ∧ d = indexToAddr (xs.headD 0) ∧
      w.currentDirectory = v.currentDirectory ∧
      (d = 0 → v.Evolves dirs xs w dirs xs.tail []) ∧
      (d ≠ 0 → v.Evolves dirs xs w (d :: dirs) xs.tail [] ∧ d ∉ dirs ∧
        (∀ a, v.pmm.InUse xs a → a ≠ d) ∧
        ∀ i, i.toNat < 1024 → entryAt w.mem d i = entryAt v.mem v.kernelPageDirectory i) := by
  obtain ⟨d, w, hc, haddr, hkeep, hz, hnz⟩ := h.vmmCreateDirectory
  have hcur : w.currentDirectory = v.currentDirectory := by
    obtain ⟨p, w', hp, -, -, hcur, -⟩ := h.evolves_allocatePt
    have hw : w = v.vmmCreateDirectory.2 := by rw [hc]
    rw [hw]
    unfold Vmm.vmmCreateDirectory
    simp only [hp]
    split
    · exact hcur
    · rw [setMem_currentDirectory]
      exact hcur
  refine ⟨d, w, hc, haddr, hcur, fun h0 => h.evolves_keeps (hz h0) hkeep, fun h0 => ?_⟩
  obtain ⟨hinv, hnd, hcopy⟩ := hnz h0
  have hold : ∀ a, v.pmm.InUse xs a → a ≠ d := by
    obtain ⟨p, w', hp, hpa, -, -, hfresh⟩ := h.evolves_allocatePt
    rw [haddr, ← hpa]
    exact (hfresh (hpa ▸ haddr ▸ h0)).2.1
  refine ⟨⟨hinv, hkeep.keepsOff, fun p hp _ => ⟨hp.ne_zero, hkeep.inUse p hp.inUse, ?_, ?_⟩⟩,
    hnd, hold, hcopy⟩
  · rw [hkeep.boot.1]
    intro hm
    rcases List.mem_cons.1 hm with e | hm
    · exact hp.notDir (e ▸ List.mem_cons_self)
    · rcases List.mem_cons.1 hm with e | hm
      · exact hold p hp.inUse e
      · exact hp.notDir (List.mem_cons_of_mem _ hm)
  · rw [hkeep.boot.1]
    intro d' hd' i ht
    -- the new directory has the tables of the kernel's
    have hcase : d' = d ∨ d' ∈ v.kernelPageDirectory :: dirs := by
      rcases List.mem_cons.1 hd' with e | hm
      · exact .inr (e ▸ List.mem_cons_self)
      · exact (List.mem_cons.1 hm).imp_right (List.mem_cons_of_mem _)
    rcases hcase with rfl | hd'
    · have htab : tableOf w.mem d' i = tableOf v.mem v.kernelPageDirectory i :=
        tableOf_congr (hcopy i)
      rw [htab] at ht
      exact hp.notTable _ List.mem_cons_self i ht
    · rw [hkeep.tableOf (h.dir d' hd').2] at ht
      exact hp.notTable d' hd' i ht

theorem Inv.evolves_destroy (h : v.Inv dirs xs) (hd : dir ∈ dirs) (hu : v.Unshared dir)
    (hsub : ds ⊆ dirs) (hnot : dir ∉ ds) :
    ∃ ys, v.Evolves dirs xs (v.vmmDestroyDirectory dir).2 ds ys (v.vmmDestroyDirectory dir).1 ∧
      GivesBack v.pmm.totalPages (v.vmmDestroyDirectory dir).1 xs ys := by
  obtain ⟨ys, hinv, hk, -, hback⟩ := h.vmmDestroyDirectory hd hu hsub hnot
  have hmem : v.kernelPageDirectory :: ds ⊆ v.kernelPageDirectory :: dirs :=
    List.cons_subset_cons _ hsub
  refine ⟨ys, ⟨hinv, hk, fun p hp hm => ?_⟩, hback⟩
  have hp' : v.Fresh ds xs p := ⟨hp.ne_zero, hp.inUse, fun hm => hp.notDir (hmem hm),
    fun d hd' => hp.notTable d (hmem hd')⟩
  refine hp'.keepsOff (h.subset hsub) hk hm fun d hd' hg => ?_
  rw [h.mem_vmmDestroyDirectory (List.mem_cons_of_mem _ hd)] at hg
  rcases hg with rfl | ⟨i, hi⟩
  · rcases List.mem_cons.1 hd' with e | hm
    · exact h.kernel (e ▸ hd)
    · exact hnot hm
  · exact (h.table dir (List.mem_cons_of_mem _ hd) i d (ownTable_eq_some.1 hi).1).2 (hmem hd')

/-- A directory that is not destroyed is only forgotten. -/
theorem Inv.evolves_forget (h : v.Inv dirs xs) (hsub : ds ⊆ dirs) : v.Evolves dirs xs v ds xs [] := by
  have hmem : v.kernelPageDirectory :: ds ⊆ v.kernelPageDirectory :: dirs :=
    List.cons_subset_cons _ hsub
  exact ⟨h.subset hsub, .refl v xs, fun p hp _ => ⟨hp.ne_zero, hp.inUse,
    fun hm => hp.notDir (hmem hm), fun d hd => hp.notTable d (hmem hd)⟩⟩

theorem destroyTables_currentDirectory (dir : UInt32) (n : Nat) (i : UInt32) (v : Vmm) :
    (destroyTables dir n i v).2.currentDirectory = v.currentDirectory := by
  induction n generalizing i v with
  | zero => rfl
  | succ n ih =>
    unfold destroyTables
    simp only
    split
    · exact ih ..
    · split
      · exact ih ..
      · rw [ih]
        unfold freePt
        split <;> rfl

theorem vmmDestroyDirectory_currentDirectory (v : Vmm) (dir : UInt32) :
    (v.vmmDestroyDirectory dir).2.currentDirectory = v.currentDirectory := by
  unfold Vmm.vmmDestroyDirectory
  split
  · rfl
  · exact destroyTables_currentDirectory dir 1024 0 v

/-! ## Mappings -/

/-- A store to a directory or a table. -/
theorem evolves_store (hu : v.pmm.InUse xs t) {i e : UInt32}
    (hi : i.toNat < 1024) (hinv : (v.setMem (storeEntry v.mem t i e)).Inv dirs xs)
    (hnew : ∀ d ∈ v.kernelPageDirectory :: dirs, ∀ j p, v.Fresh dirs xs p → p ∉ t :: more →
      tableOf (storeEntry v.mem t i e) d j ≠ some p) :
    v.Evolves dirs xs (v.setMem (storeEntry v.mem t i e)) dirs xs (t :: more) := by
  refine ⟨hinv, ⟨sameBoot_setMem .., fun a ha _ => ha.congr, fun a ha hm j hj => ?_⟩,
    fun p hp hm => ⟨hp.ne_zero, hp.inUse.congr, hp.notDir, fun d hd j => hnew d hd j p hp hm⟩⟩
  exact entryAt_storeEntry_of_ne hu.aligned ha.aligned hi hj
    fun e => hm (e ▸ List.mem_cons_self)

theorem Inv.evolves_storePte (h : v.Inv dirs xs) (hd : dir ∈ v.kernelPageDirectory :: dirs)
    {j : UInt32} (ht : tableOf v.mem dir j = some t) {i : UInt32} (hi : i.toNat < 1024)
    (e : UInt32) :
    v.Evolves dirs xs (v.setMem (storeEntry v.mem t i e)) dirs xs [t] ∧
      ∀ d ∈ v.kernelPageDirectory :: dirs, ∀ k,
        tableOf (storeEntry v.mem t i e) d k = tableOf v.mem d k := by
  obtain ⟨hu, hnd⟩ := h.table dir hd j t ht
  have htab : ∀ d ∈ v.kernelPageDirectory :: dirs, ∀ k,
      tableOf (storeEntry v.mem t i e) d k = tableOf v.mem d k := fun d hd' k =>
    tableOf_congr fun hk => entryAt_storeEntry_of_ne hu.aligned (h.dir d hd').2.aligned hi hk
      fun e => hnd (e ▸ hd')
  refine ⟨evolves_store hu hi (h.storePte hu hnd hi e) fun d hd' k p hp _ => ?_, htab⟩
  rw [htab d hd']
  exact hp.notTable d hd' k

theorem Inv.evolves_mapInTable (h : v.Inv dirs xs) (hd : dir ∈ v.kernelPageDirectory :: dirs)
    {j : UInt32} (ht : tableOf v.mem dir j = some t) {i : UInt32} (hi : i.toNat < 1024)
    (phys flags : UInt32) :
    v.Evolves dirs xs (v.mapInTable t i phys flags).2 dirs xs [t] ∧
      (v.mapInTable t i phys flags).2.currentDirectory = v.currentDirectory ∧
      ∀ d ∈ v.kernelPageDirectory :: dirs, ∀ k,
        tableOf (v.mapInTable t i phys flags).2.mem d k = tableOf v.mem d k := by
  rcases v.mapInTable_cases t i phys flags with ⟨-, e⟩ | ⟨-, e⟩ <;> rw [e]
  · exact ⟨(Evolves.refl h).mono fun _ _ hm => absurd hm List.not_mem_nil, rfl, fun _ _ _ => rfl⟩
  · obtain ⟨h1, h2⟩ := h.evolves_storePte hd ht hi (mkEntry phys (flags ||| pagePresent))
    exact ⟨h1, rfl, h2⟩

theorem Inv.evolves_unmap (h : v.Inv dirs xs) (hd : dir ∈ v.kernelPageDirectory :: dirs)
    (virt : UInt32) :
    v.Evolves dirs xs (v.vmmUnmapPage dir virt).2 dirs xs
        (tableOf v.mem dir (pdIndex virt)).toList ∧
      (v.vmmUnmapPage dir virt).2.currentDirectory = v.currentDirectory ∧
      ∀ d ∈ v.kernelPageDirectory :: dirs, ∀ k,
        tableOf (v.vmmUnmapPage dir virt).2.mem d k = tableOf v.mem d k := by
  have hsame : v.Evolves dirs xs v dirs xs (tableOf v.mem dir (pdIndex virt)).toList :=
    (Evolves.refl h).mono fun _ _ hm => absurd hm List.not_mem_nil
  simp only [Vmm.vmmUnmapPage, if_neg (h.dir dir hd).1, pdIndex_page, ptIndex_page]
  cases hpde : isPresent (entryAt v.mem dir (pdIndex virt)) with
  | false => exact ⟨hsame, rfl, fun _ _ _ => rfl⟩
  | true =>
    have ht := tableOf_pdIndex hpde
    simp only [Bool.not_true, Bool.false_eq_true, ↓reduceIte]
    split
    · exact ⟨hsame, rfl, fun _ _ _ => rfl⟩
    · rw [ht]
      obtain ⟨h1, h2⟩ := h.evolves_storePte hd ht (ptIndex_lt virt) 0
      exact ⟨h1, rfl, h2⟩

/-- What `vmm_map_page` writes: the directory and its table for the address, which may be new. -/
structure MapWrites (v : Vmm) (dirs xs : List UInt32) (dir virt : UInt32) (w : Vmm)
    (ys : List UInt32) : Prop where
  evolves : v.Evolves dirs xs w dirs ys (dir :: (tableOf v.mem dir (pdIndex virt)).toList)
  current : w.currentDirectory = v.currentDirectory
  tables : ∀ j, tableOf w.mem dir j = tableOf v.mem dir j ∨
    j = pdIndex virt ∧ tableOf v.mem dir j = none ∧
      ∃ t, tableOf w.mem dir j = some t ∧ ¬ v.pmm.InUse xs t

/-- What a mapping that is made takes from the allocator: nothing, or the page of a new table. -/
def MapTakes (v w : Vmm) (xs ys : List UInt32) (dir virt : UInt32) : Prop :=
  (ys = xs ∧ ∀ j, tableOf w.mem dir j = tableOf v.mem dir j) ∨
    ∃ y, xs = y :: ys ∧ tableOf v.mem dir (pdIndex virt) = none ∧
      ∀ j, tableOf w.mem dir j =
        if j = pdIndex virt then some (indexToAddr y) else tableOf v.mem dir j

theorem Inv.mapWrites (h : v.Inv dirs xs) (hd : dir ∈ v.kernelPageDirectory :: dirs)
    (virt phys flags : UInt32) :
    ∃ ys, v.MapWrites dirs xs dir virt (v.vmmMapPage dir virt phys flags).2 ys ∧
      ((v.vmmMapPage dir virt phys flags).1 = true →
        MapTakes v (v.vmmMapPage dir virt phys flags).2 xs ys dir virt) ∧
      ((v.vmmMapPage dir virt phys flags).1 = false →
        ∀ j, tableOf (v.vmmMapPage dir virt phys flags).2.mem dir j = tableOf v.mem dir j) := by
  obtain ⟨hne, hdir⟩ := h.dir dir hd
  have hpd := pdIndex_lt virt
  have hpt := ptIndex_lt virt
  have hnil : ∀ a, v.pmm.InUse xs a → a ∈ ([] : List UInt32) →
      a ∈ dir :: (tableOf v.mem dir (pdIndex virt)).toList := fun _ _ hm => absurd hm List.not_mem_nil
  rcases v.vmmMapPage_cases hne virt phys flags with ⟨-, w, halloc, e⟩ |
    ⟨hpde, pt, w, halloc, hz, f, e⟩ | ⟨-, -, -, e⟩ | ⟨hpde, -, -, e⟩ | ⟨hpde, -, e⟩ <;> rw [e]
  · -- no page for the table
    obtain ⟨p, w', halloc', -, hev, hcur, -⟩ := h.evolves_allocatePt
    rw [halloc] at halloc'
    cases halloc'
    have htab : ∀ j, tableOf w.mem dir j = tableOf v.mem dir j := fun j =>
      hev.keeps.tableOf hdir List.not_mem_nil
    exact ⟨_, ⟨hev.mono hnil, hcur, fun j => .inl (htab j)⟩, nofun, fun _ => htab⟩
  · -- a new table
    obtain ⟨p, w', halloc', haddr, hev, hcur, hfresh⟩ := h.evolves_allocatePt
    rw [halloc] at halloc'
    cases halloc'
    obtain ⟨hfr, hold, hzero⟩ := hfresh hz
    have hd' : dir ∈ w.kernelPageDirectory :: dirs := by rwa [hev.keeps.boot.1]
    have hempty : tableOf w.mem dir (pdIndex virt) = none := by
      rw [hev.keeps.tableOf hdir List.not_mem_nil, tableOf_pdIndex_none hpde]
    have hT := hev.inv.tableOf_install hd' hpd hfr.inUse f
    have h2 : w.Evolves dirs xs.tail _ dirs xs.tail (dir :: [pt]) :=
      evolves_store (hev.inv.dir dir hd').2 hpd (hev.inv.install hd' hpd hempty hfr f)
        fun d hd'' j p hp hm => by
          rw [hT d hd'']
          split
          · rintro ⟨rfl⟩
            exact hm (by simp)
          · exact hp.notTable d hd'' j
    have hslot : tableOf (storeEntry w.mem dir (pdIndex virt) (mkEntry pt f)) dir (pdIndex virt) =
        some pt := by rw [hT dir hd', if_pos ⟨rfl, rfl⟩]
    obtain ⟨h3, hc3, ht3⟩ := h2.inv.evolves_mapInTable hd' hslot hpt (phys &&& 0xFFFFF000) flags
    have htab : ∀ j, tableOf ((w.setMem (storeEntry w.mem dir (pdIndex virt)
        (mkEntry pt f))).mapInTable pt (ptIndex virt) (phys &&& 0xFFFFF000) flags).2.mem dir j =
          if j = pdIndex virt then some pt else tableOf v.mem dir j := fun j => by
      rw [ht3 dir hd', setMem_mem, hT dir hd']
      by_cases hj : j = pdIndex virt
      · rw [if_pos ⟨rfl, hj⟩, if_pos hj]
      · rw [if_neg fun e => hj e.2, if_neg hj, hev.keeps.tableOf hdir List.not_mem_nil]
    have hnone := tableOf_pdIndex_none hpde
    refine ⟨_, ⟨((hev.trans h2).trans h3).mono fun a ha hm => ?_, hc3.trans hcur, fun j => ?_⟩,
      fun _ => ?_, fun hr => ?_⟩
    · have : a = dir ∨ a = pt := by simpa using hm
      rcases this with rfl | rfl
      · exact List.mem_cons_self
      · exact absurd rfl (hold a ha)
    · rw [htab]
      by_cases hj : j = pdIndex virt
      · exact .inr ⟨hj, hj ▸ hnone, pt, if_pos hj, fun hu => hold pt hu rfl⟩
      · exact .inl (if_neg hj)
    · cases xs with
      | nil => exact absurd haddr hz
      | cons y ys =>
        rw [List.headD_cons] at haddr
        exact .inr ⟨y, rfl, hnone, haddr ▸ htab⟩
    · -- the new table is empty
      rcases mapInTable_cases (w.setMem (storeEntry w.mem dir (pdIndex virt) (mkEntry pt f))) pt
        (ptIndex virt) (phys &&& 0xFFFFF000) flags with ⟨hp, -⟩ | ⟨-, e⟩
      · rw [setMem_mem, entryAt_storeEntry_of_ne (hev.inv.dir dir hd').2.aligned hfr.inUse.aligned
          hpd hpt fun e => hfr.notDir (e ▸ hd'), hzero _ hpt] at hp
        cases hp
      · rw [e] at hr
        cases hr
  · exact ⟨xs, ⟨(Evolves.refl h).mono hnil, rfl, fun _ => .inl rfl⟩, nofun, fun _ _ => rfl⟩
  · -- `PAGE_USER` goes into the PDE first
    have hT := h.tableOf_setUser hd hpd
    have h2 : v.Evolves dirs xs _ dirs xs (dir :: []) :=
      evolves_store hdir hpd (h.setUser hd hpd) fun d hd' j p hp _ => by
        rw [hT d hd']
        exact hp.notTable d hd' j
    have hslot := hT dir hd (pdIndex virt)
    rw [tableOf_pdIndex hpde] at hslot
    rw [entryAt_storeEntry_self, frameOf_or_user]
    obtain ⟨h3, hc3, ht3⟩ := h2.inv.evolves_mapInTable hd hslot hpt (phys &&& 0xFFFFF000) flags
    have htab := fun j => (ht3 dir hd j).trans (hT dir hd j)
    refine ⟨xs, ⟨(h2.trans h3).mono fun a _ hm => ?_, hc3, fun j => .inl (htab j)⟩,
      fun _ => .inl ⟨rfl, htab⟩, fun _ => htab⟩
    rw [tableOf_pdIndex hpde]
    simpa using hm
  · have ht := tableOf_pdIndex hpde
    obtain ⟨h3, hc3, ht3⟩ := h.evolves_mapInTable hd ht hpt (phys &&& 0xFFFFF000) flags
    refine ⟨xs, ⟨h3.mono fun a _ hm => ?_, hc3, fun j => .inl (ht3 dir hd j)⟩,
      fun _ => .inl ⟨rfl, ht3 dir hd⟩, fun _ => ht3 dir hd⟩
    rw [ht]
    exact List.mem_cons_of_mem _ (by simpa using hm)

/-- A user mapping that succeeds is not made in a table the scan recognises. -/
theorem vmmMapPage_user (hne : dir ≠ 0) (hf : flags &&& pageUser ≠ 0)
    (h : (v.vmmMapPage dir virt phys flags).1 = true)
    (ht : tableOf v.mem dir (pdIndex virt) = some t) : v.isKernelTable t = false := by
  obtain ⟨-, hp, hframe⟩ := tableOf_eq_some.1 ht
  rcases v.vmmMapPage_cases hne virt phys flags with ⟨hpde, -⟩ | ⟨hpde, -⟩ | ⟨-, -, -, e⟩ |
    ⟨-, -, hk, -⟩ | ⟨-, hu, -⟩
  · rw [hp] at hpde
    cases hpde
  · rw [hp] at hpde
    cases hpde
  · rw [e] at h
    cases h
  · rwa [hframe] at hk
  · exact absurd hu hf

end Vmm

end HaoSys.Mm
