import HaoSys.Mm.VmmInv

/-!
# The routines keep the paging invariant

`vmm_create_directory` copies the kernel's entries into a fresh page,
`vmm_map_page` installs a fresh table or writes one entry, `vmm_unmap_page`
clears one, and `vmm_init` starts from a cleared kernel directory.
-/

namespace HaoSys.Mm.Vmm

open HaoSys.Lib

variable {v : Vmm} {dirs xs : List UInt32} {dir i t : UInt32} {m : Mem}

/-! ## `vmm_create_directory` -/

/-- The copying loop: slots `i`, …, `i + n - 1` of `dir` become the kernel's. -/
theorem copyKernelPdes_spec {k : UInt32} (hk : k.toNat % 4096 = 0) (hdir : dir.toNat % 4096 = 0)
    (hne : k ≠ dir) :
    ∀ {n : Nat} {i : UInt32} {m : Mem}, i.toNat + n ≤ 1024 →
      (∀ c, addrToIndex c ≠ addrToIndex dir → copyKernelPdes k dir n i m c = m c) ∧
      ∀ j, j.toNat < 1024 → entryAt (copyKernelPdes k dir n i m) dir j =
        if i.toNat ≤ j.toNat ∧ j.toNat < i.toNat + n then entryAt m k j else entryAt m dir j
  | 0, i, m, _ => ⟨fun _ _ => rfl, fun j _ => by rw [if_neg (by omega)]; rfl⟩
  | n + 1, i, m, hn => by
    have hi : i.toNat < 1024 := by omega
    have hsucc : (i + 1).toNat = i.toNat + 1 := by
      rw [UInt32.toNat_add, UInt32.toNat_one]; omega
    obtain ⟨hbytes, hentry⟩ := copyKernelPdes_spec hk hdir hne (n := n) (i := i + 1)
      (m := storeEntry m dir i (entryAt m k i)) (by omega)
    refine ⟨fun c hc => ?_, fun j hj => ?_⟩
    · rw [copyKernelPdes, hbytes c hc, storeEntry_apply hdir hi hc]
    · have hkj : entryAt (storeEntry m dir i (entryAt m k i)) k j = entryAt m k j := by
        rw [entryAt_storeEntry_of_ne hdir hk hi hj hne]
      rw [copyKernelPdes, hentry j hj, hsucc, hkj, entryAt_storeEntry hdir hdir hi hj]
      by_cases hji : j = i
      · subst hji
        simp
      · have hji' : j.toNat ≠ i.toNat := fun e => hji (UInt32.toNat_inj.1 e)
        simp only [hji, and_false, ↓reduceIte]
        by_cases hlo : i.toNat + 1 ≤ j.toNat ∧ j.toNat < i.toNat + 1 + n
        · rw [if_pos hlo, if_pos (by omega)]
        · rw [if_neg hlo, if_neg (by omega)]

/-- `vmm_create_directory`: a new directory with the kernel's entries, or `NULL`. -/
theorem Inv.vmmCreateDirectory (h : v.Inv dirs xs) :
    ∃ d w, v.vmmCreateDirectory = (d, w) ∧ d = indexToAddr (xs.headD 0) ∧
      v.Keeps xs w xs.tail ∧ (d = 0 → w.Inv dirs xs.tail) ∧
      (d ≠ 0 → w.Inv (d :: dirs) xs.tail ∧ d ∉ dirs ∧
        ∀ i, i.toNat < 1024 → entryAt w.mem d i = entryAt v.mem v.kernelPageDirectory i) := by
  obtain ⟨d, w, halloc, haddr, hinv, hkeep, hfresh⟩ := h.allocatePt
  by_cases hz : d = 0
  · subst hz
    refine ⟨0, w, ?_, haddr, hkeep, fun _ => hinv, fun hne => absurd rfl hne⟩
    simp only [Vmm.vmmCreateDirectory, halloc, ↓reduceIte]
  obtain ⟨hfr, hold, -⟩ := hfresh hz
  have hk := (hinv.dir _ List.mem_cons_self).2
  have hkne : w.kernelPageDirectory ≠ d := fun e => hfr.notDir (e ▸ List.mem_cons_self)
  obtain ⟨hbytes, hentry⟩ := copyKernelPdes_spec hk.aligned hfr.inUse.aligned hkne (n := 1024)
    (i := 0) (m := w.mem) (by decide)
  have hcreate : v.vmmCreateDirectory =
      (d, w.setMem (copyKernelPdes w.kernelPageDirectory d 1024 0 w.mem)) := by
    simp only [Vmm.vmmCreateDirectory, halloc, hz, ↓reduceIte]
  generalize copyKernelPdes w.kernelPageDirectory d 1024 0 w.mem = m at hbytes hentry hcreate
  have hother : ∀ a, a ≠ d → a.toNat % 4096 = 0 → ∀ i, i.toNat < 1024 →
      entryAt m a i = entryAt w.mem a i := fun a hne ha i hi =>
    entryAt_congr ha hi fun c hc => hbytes c (by rw [hc]; exact page_ne hfr.inUse.aligned ha hne)
  have hcopy : ∀ i, i.toNat < 1024 → entryAt m d i = entryAt w.mem w.kernelPageDirectory i :=
    fun i hi => by rw [hentry i hi, if_pos ⟨Nat.zero_le _, by simpa using hi⟩]
  have htab : ∀ a ∈ w.kernelPageDirectory :: dirs, ∀ i, tableOf m a i = tableOf w.mem a i :=
    fun a ha i => tableOf_congr fun hi =>
      hother a (fun e => hfr.notDir (e ▸ ha)) (hinv.dir a ha).2.aligned i hi
  -- every directory's tables are tables of the directories before
  have htab' : ∀ a ∈ w.kernelPageDirectory :: d :: dirs, ∀ i t, tableOf m a i = some t →
      ∃ a' ∈ w.kernelPageDirectory :: dirs, tableOf w.mem a' i = some t := by
    intro a ha i t ht
    rcases List.mem_cons.1 ha with rfl | ha
    · exact ⟨_, List.mem_cons_self, by rwa [htab _ List.mem_cons_self] at ht⟩
    · rcases List.mem_cons.1 ha with rfl | ha
      · exact ⟨_, List.mem_cons_self, by rwa [tableOf_congr (hcopy i)] at ht⟩
      · have ha := List.mem_cons_of_mem w.kernelPageDirectory ha
        exact ⟨a, ha, by rwa [htab a ha] at ht⟩
  have hpmm : ∀ c, addrToIndex c ∈ xs.tail ∨ w.pmm.BitmapPage (addrToIndex c) → m c = w.mem c :=
    fun c hc => hbytes c fun heq => by
      rw [heq] at hc
      exact hc.elim hfr.inUse.notFree hfr.inUse.notBitmap
  refine ⟨d, w.setMem m, hcreate, haddr, ⟨hkeep.boot.trans (sameBoot_setMem w m),
    fun a ha => (hkeep.inUse a ha).congr, fun a ha i hi => ?_⟩, fun hz' => absurd hz' hz,
    fun _ => ⟨⟨hinv.pmm.congr_mem hpmm, fun a ha => ?_, fun hm => ?_, fun a ha i t ht => ?_,
      fun a ha i t ht => ?_, ?_⟩, fun hm => hfr.notDir (List.mem_cons_of_mem _ hm), fun i hi => ?_⟩⟩
  · exact (hother a (hold a ha) ha.aligned i hi).trans (hkeep.entry a ha i hi)
  · rcases List.mem_cons.1 ha with rfl | ha
    · exact ⟨(hinv.dir _ List.mem_cons_self).1, hk.congr⟩
    · rcases List.mem_cons.1 ha with rfl | ha
      · exact ⟨hz, hfr.inUse.congr⟩
      · have := hinv.dir a (List.mem_cons_of_mem _ ha)
        exact ⟨this.1, this.2.congr⟩
  · rcases List.mem_cons.1 hm with e | hm
    · exact hkne e
    · exact hinv.kernel hm
  · obtain ⟨a', ha', ht'⟩ := htab' a ha i t ht
    obtain ⟨huse, hnd⟩ := hinv.table a' ha' i t ht'
    refine ⟨huse.congr, fun hm => ?_⟩
    rcases List.mem_cons.1 hm with rfl | hm
    · exact hnd List.mem_cons_self
    · rcases List.mem_cons.1 hm with rfl | hm
      · exact hfr.notTable a' ha' i ht'
      · exact hnd (List.mem_cons_of_mem _ hm)
  · obtain ⟨a', ha', ht'⟩ := htab' a ha i t ht
    exact hinv.table_ne a' ha' i t ht'
  · exact hinv.sharing.copy htab fun i => tableOf_congr fun hi => hcopy i hi
  · rw [← hkeep.boot.1, setMem_mem, hcopy i hi, hkeep.boot.1]
    exact hkeep.entry _ (h.dir _ List.mem_cons_self).2 i hi

/-! ## `vmm_map_page` and `vmm_unmap_page` -/

/-- The end of `vmm_map_page`: the PTE is there already, or it is written. -/
theorem mapInTable_cases (v : Vmm) (pt ptIdx phys flags : UInt32) :
    (isPresent (entryAt v.mem pt ptIdx) = true ∧ v.mapInTable pt ptIdx phys flags = (false, v)) ∨
      (isPresent (entryAt v.mem pt ptIdx) = false ∧ v.mapInTable pt ptIdx phys flags =
        (true, v.setMem (storeEntry v.mem pt ptIdx (mkEntry phys (flags ||| pagePresent))))) := by
  rw [mapInTable]
  cases isPresent (entryAt v.mem pt ptIdx) with
  | true => exact .inl ⟨rfl, rfl⟩
  | false => exact .inr ⟨rfl, rfl⟩

theorem Inv.mapInTable (h : v.Inv dirs xs) (ht : v.pmm.InUse xs t)
    (hdir : t ∉ v.kernelPageDirectory :: dirs) (hi : i.toNat < 1024) (phys flags : UInt32) :
    (v.mapInTable t i phys flags).2.Inv dirs xs := by
  rcases v.mapInTable_cases t i phys flags with ⟨-, e⟩ | ⟨-, e⟩ <;> rw [e]
  · exact h
  · exact h.storePte ht hdir hi _

/-- What `vmm_map_page` does in each of its branches. -/
theorem vmmMapPage_cases (v : Vmm) {dir : UInt32} (hdir : dir ≠ 0) (virt phys flags : UInt32) :
    let pde := entryAt v.mem dir (pdIndex virt)
    let p := phys &&& 0xFFFFF000
    (isPresent pde = false ∧ ∃ w, v.allocatePt = (0, w) ∧
      v.vmmMapPage dir virt phys flags = (false, w)) ∨
    (isPresent pde = false ∧ ∃ pt w, v.allocatePt = (pt, w) ∧ pt ≠ 0 ∧ ∃ f,
      v.vmmMapPage dir virt phys flags =
        (w.setMem (storeEntry w.mem dir (pdIndex virt) (mkEntry pt f))).mapInTable pt
          (ptIndex virt) p flags) ∨
    (isPresent pde = true ∧ flags &&& pageUser ≠ 0 ∧ v.isKernelTable (frameOf pde) = true ∧
      v.vmmMapPage dir virt phys flags = (false, v)) ∨
    (isPresent pde = true ∧ flags &&& pageUser ≠ 0 ∧ v.isKernelTable (frameOf pde) = false ∧
      v.vmmMapPage dir virt phys flags =
        (v.setMem (storeEntry v.mem dir (pdIndex virt) (pde ||| pageUser))).mapInTable
          (frameOf (entryAt (storeEntry v.mem dir (pdIndex virt) (pde ||| pageUser)) dir
            (pdIndex virt))) (ptIndex virt) p flags) ∨
    (isPresent pde = true ∧ flags &&& pageUser = 0 ∧
      v.vmmMapPage dir virt phys flags = v.mapInTable (frameOf pde) (ptIndex virt) p flags) := by
  simp only [vmmMapPage, if_neg hdir, pdIndex_page, ptIndex_page]
  cases hpde : isPresent (entryAt v.mem dir (pdIndex virt)) with
  | false =>
    obtain ⟨pt, w, halloc⟩ : ∃ pt w, v.allocatePt = (pt, w) := ⟨_, _, rfl⟩
    simp only [halloc, Bool.not_false, ↓reduceIte]
    by_cases hz : pt = 0
    · left
      exact ⟨trivial, w, by rw [hz], by rw [if_pos hz]⟩
    · right; left
      exact ⟨trivial, pt, w, rfl, hz, _, by rw [if_neg hz]⟩
  | true =>
    right; right
    by_cases hu : flags &&& pageUser = 0
    · right; right
      exact ⟨rfl, hu, by simp [hu]⟩
    · cases hker : v.isKernelTable (frameOf (entryAt v.mem dir (pdIndex virt))) with
      | true =>
        left
        exact ⟨rfl, hu, rfl, by simp [hu]⟩
      | false =>
        right; left
        exact ⟨rfl, hu, rfl, by simp [hu]⟩

theorem tableOf_pdIndex (hp : isPresent (entryAt m dir (pdIndex i)) = true) :
    tableOf m dir (pdIndex i) = some (frameOf (entryAt m dir (pdIndex i))) :=
  tableOf_eq_some.2 ⟨pdIndex_lt i, hp, rfl⟩

theorem tableOf_pdIndex_none (hp : isPresent (entryAt m dir (pdIndex i)) = false) :
    tableOf m dir (pdIndex i) = none := by
  rw [tableOf, if_neg]
  rw [hp]
  simp

theorem sameBoot_mapInTable (v : Vmm) (pt ptIdx phys flags : UInt32) :
    v.SameBoot (v.mapInTable pt ptIdx phys flags).2 := by
  rcases v.mapInTable_cases pt ptIdx phys flags with ⟨-, e⟩ | ⟨-, e⟩ <;> rw [e]
  · exact .refl v
  · exact sameBoot_setMem ..

theorem Inv.vmmMapPage (h : v.Inv dirs xs) (hd : dir ∈ v.kernelPageDirectory :: dirs)
    (virt phys flags : UInt32) :
    v.SameBoot (v.vmmMapPage dir virt phys flags).2 ∧
      ∃ ys, (v.vmmMapPage dir virt phys flags).2.Inv dirs ys := by
  have hpd := pdIndex_lt virt
  have hpt := ptIndex_lt virt
  obtain ⟨hne, hdir⟩ := h.dir dir hd
  rcases v.vmmMapPage_cases hne virt phys flags with ⟨-, w, halloc, e⟩ |
    ⟨hpde, pt, w, halloc, hz, f, e⟩ | ⟨-, -, -, e⟩ | ⟨hpde, -, -, e⟩ | ⟨hpde, -, e⟩ <;> rw [e]
  · -- no page for the table
    obtain ⟨pt, w', halloc', -, hinv, hkeep, -⟩ := h.allocatePt
    rw [halloc] at halloc'
    cases halloc'
    exact ⟨hkeep.boot, _, hinv⟩
  · -- a new table
    obtain ⟨pt', w', halloc', -, hinv, hkeep, hfresh⟩ := h.allocatePt
    rw [halloc] at halloc'
    cases halloc'
    obtain ⟨hfr, -, -⟩ := hfresh hz
    have hd' : dir ∈ w.kernelPageDirectory :: dirs := by rwa [hkeep.boot.1]
    have hempty : tableOf w.mem dir (pdIndex virt) = none := by
      rw [hkeep.tableOf hdir, tableOf_pdIndex_none hpde]
    exact ⟨(hkeep.boot.trans (sameBoot_setMem ..)).trans (sameBoot_mapInTable ..), _,
      (hinv.install hd' hpd hempty hfr f).mapInTable hfr.inUse.congr hfr.notDir hpt _ _⟩
  · exact ⟨.refl v, _, h⟩
  · -- a table of the directory's own, or one the scan does not recognise
    obtain ⟨huse, hnd⟩ := h.table dir hd _ _ (tableOf_pdIndex hpde)
    have hframe : frameOf (entryAt (storeEntry v.mem dir (pdIndex virt)
        (entryAt v.mem dir (pdIndex virt) ||| pageUser)) dir (pdIndex virt)) =
          frameOf (entryAt v.mem dir (pdIndex virt)) := by
      rw [entryAt_storeEntry_self, frameOf_or_user]
    rw [hframe]
    exact ⟨(sameBoot_setMem ..).trans (sameBoot_mapInTable ..), _,
      (h.setUser hd hpd).mapInTable huse.congr hnd hpt _ _⟩
  · obtain ⟨huse, hnd⟩ := h.table dir hd _ _ (tableOf_pdIndex hpde)
    exact ⟨sameBoot_mapInTable .., _, h.mapInTable huse hnd hpt _ _⟩

theorem Inv.vmmUnmapPage (h : v.Inv dirs xs) (hd : dir ∈ v.kernelPageDirectory :: dirs)
    (virt : UInt32) :
    v.SameBoot (v.vmmUnmapPage dir virt).2 ∧
      (v.vmmUnmapPage dir virt).2.Inv dirs xs := by
  simp only [Vmm.vmmUnmapPage, if_neg (h.dir dir hd).1, pdIndex_page, ptIndex_page]
  cases hpde : isPresent (entryAt v.mem dir (pdIndex virt)) with
  | false => exact ⟨.refl v, h⟩
  | true =>
    obtain ⟨huse, hnd⟩ := h.table dir hd _ _ (tableOf_pdIndex hpde)
    simp only [Bool.not_true, Bool.false_eq_true, ↓reduceIte]
    split
    · exact ⟨.refl v, h⟩
    · exact ⟨sameBoot_setMem .., h.storePte huse hnd (ptIndex_lt virt) 0⟩

/-! ## `vmm_init` -/

/-- The identity entries go to the new table's page. -/
theorem fillIdentity_apply {memSize pt base c : UInt32} (hpt : pt.toNat % 4096 = 0)
    (hc : addrToIndex c ≠ addrToIndex pt) :
    ∀ {n : Nat} {j : UInt32} {m : Mem}, j.toNat + n ≤ 1024 →
      fillIdentity memSize pt base n j m c = m c
  | 0, _, _, _ => rfl
  | n + 1, j, m, hn => by
    have hsucc : (j + 1).toNat = j.toNat + 1 := by
      rw [UInt32.toNat_add, UInt32.toNat_one]; omega
    rw [fillIdentity]
    split
    · rfl
    · rw [fillIdentity_apply hpt hc (by omega), storeEntry_apply hpt (by omega) hc]

/-- Building identity tables in the slots from `i` on, all of them empty. -/
theorem Inv.identityTables :
    ∀ {n : Nat} {i : UInt32} {v : Vmm} {xs : List UInt32}, v.Inv [] xs → i.toNat + n ≤ 1024 →
      (∀ j, i.toNat ≤ j.toNat → tableOf v.mem v.kernelPageDirectory j = none) →
      v.SameBoot (identityTables n i v).2 ∧
        ∃ k, k ≤ n ∧ (identityTables n i v).2.Inv [] (xs.drop k) ∧
          ∀ j, i.toNat + n ≤ j.toNat →
            tableOf (identityTables n i v).2.mem v.kernelPageDirectory j = none
  | 0, i, v, xs, h, _, hempty => ⟨.refl v, 0, Nat.le_refl _, h, fun j hj => hempty j hj⟩
  | n + 1, i, v, xs, h, hn, hempty => by
    have hi : i.toNat < 1024 := by omega
    have hsucc : (i + 1).toNat = i.toNat + 1 := by
      rw [UInt32.toNat_add, UInt32.toNat_one]; omega
    obtain ⟨pt, w, halloc, -, hinv, hkeep, hfresh⟩ := h.allocatePt
    have hk := (h.dir _ List.mem_cons_self).2
    have hempty' : ∀ j, i.toNat ≤ j.toNat → tableOf w.mem w.kernelPageDirectory j = none :=
      fun j hj => by rw [hkeep.boot.1, hkeep.tableOf hk, hempty j hj]
    rw [Vmm.identityTables, halloc]
    simp only
    split
    · refine ⟨hkeep.boot, 1, by omega, by rwa [List.drop_one], fun j hj => ?_⟩
      rw [← hkeep.boot.1]
      exact hempty' j (by omega)
    next hz =>
    obtain ⟨hfr, -, -⟩ := hfresh hz
    have hpt := hfr.inUse.aligned
    generalize hm : fillIdentity w.pmm.totalMemory pt (i * 1024 * 4096) 1024 0 w.mem = m
    obtain ⟨hinv1, hfr1, hother⟩ := hinv.writeFresh hfr (m := m)
      fun c hc => by rw [← hm]; exact fillIdentity_apply hpt hc (by decide)
    have hk1 := hinv1.dir _ List.mem_cons_self
    -- the slot is still empty when the table goes in
    have htab1 : ∀ j, tableOf m w.kernelPageDirectory j = tableOf w.mem w.kernelPageDirectory j :=
      fun j => tableOf_congr fun hj =>
        hother _ (fun e => hfr.notDir (e ▸ List.mem_cons_self)) hk1.2.aligned j hj
    have hinv2 := hinv1.install List.mem_cons_self hi
      ((htab1 i).trans (hempty' i (Nat.le_refl _))) hfr1 pageWrite
    have htab2 := hinv1.tableOf_install List.mem_cons_self hi hfr1.inUse pageWrite _
      List.mem_cons_self
    obtain ⟨hboot, k, hkn, hinv3, hrest⟩ := hinv2.identityTables (n := n) (i := i + 1) (by omega)
      fun j hj => by
        refine (htab2 j).trans ?_
        rw [if_neg (by rintro ⟨-, rfl⟩; omega)]
        exact (htab1 j).trans (hempty' j (by omega))
    rw [List.drop_tail] at hinv3
    refine ⟨(hkeep.boot.trans (sameBoot_setMem ..)).trans hboot, k + 1, by omega, hinv3, fun j hj => ?_⟩
    rw [← hkeep.boot.1]
    exact hrest j (by omega)

/-- The cleared kernel directory, before any table. -/
theorem inv_cleared {s : Pmm} {k : UInt32} (hs : s.Inv xs) (hk : s.InUse xs k) (hz : k ≠ 0) :
    Inv ⟨{ s with mem := zeroMemory s.mem k 4096 }, k, 0⟩ [] xs ∧
      ∀ j, tableOf (zeroMemory s.mem k 4096) k j = none := by
  have hnone : ∀ j, tableOf (zeroMemory s.mem k 4096) k j = none := fun j => by
    by_cases hj : j.toNat < 1024
    · rw [tableOf, entryAt_zeroMemory hk.aligned hj]
      simp
    · rw [tableOf, if_neg (fun h => hj h.1)]
  have hdir : ∀ d ∈ [k], d = k := fun d hd => List.mem_singleton.1 hd
  refine ⟨⟨hs.congr_mem fun c hc => ?_, fun d hd => ?_, List.not_mem_nil, fun d hd i t ht => ?_,
    fun d hd i t ht => ?_, fun d hd d' hd' i i' t ht => ?_⟩, hnone⟩
  · refine zeroMemory_apply_other hk.aligned fun heq => ?_
    rw [heq] at hc
    exact hc.elim hk.notFree hk.notBitmap
  · rw [hdir d hd]
    exact ⟨hz, hk.congr⟩
  all_goals
    rw [hdir d hd] at ht
    exact absurd (ht.symm.trans (hnone i)) (by simp)

/-- The identity tables `vmm_init` builds. -/
def identityCount (s : Pmm) : Nat := (s.totalMemory.toNat / 4096 + 1023) / 1024

/-- The identity tables stand below the bound of the scan. -/
theorem identityCount_le (v : Vmm) : identityCount v.pmm ≤ v.kernelPdes.toNat := by
  have hmem := v.pmm.totalMemory.toNat_lt
  have hdiv : (v.pmm.totalMemory / (1024 * 4096) + 1).toNat =
      v.pmm.totalMemory.toNat / 4194304 + 1 := by
    rw [UInt32.toNat_add, UInt32.toNat_div]
    change (v.pmm.totalMemory.toNat / 4194304 + 1) % 2 ^ 32 = _
    omega
  have hle : ¬ v.pmm.totalMemory / (1024 * 4096) + 1 > 1024 := by
    rw [gt_iff_lt, UInt32.lt_iff_toNat_lt, hdiv]
    change ¬ 1024 < _
    omega
  rw [identityCount, kernelPdes]
  simp only [if_neg hle, hdiv]
  omega

/-- `vmm_init` is its table loop, up to the current directory. -/
theorem vmmInit_eq {v w : Vmm} (hw : v.setMem (zeroMemory v.mem v.kernelPageDirectory 4096) = w) :
    ∃ cur, vmmInit v =
      { (identityTables (identityCount w.pmm) 0 w).2 with currentDirectory := cur } := by
  have hmem := w.pmm.totalMemory.toNat_lt
  have hcount : ((w.pmm.totalMemory / 4096 + 1023) / 1024).toNat = identityCount w.pmm := by
    simp only [UInt32.toNat_div, UInt32.toNat_add, UInt32.reduceToNat, identityCount]
    omega
  have hle : identityCount w.pmm ≤ 1024 := by
    simp only [identityCount]
    omega
  simp only [vmmInit, hw]
  split
  · next hpages =>
    have hzero : identityCount w.pmm = 0 := by
      rw [← hcount, hpages]
      rfl
    rw [hzero]
    exact ⟨w.currentDirectory, rfl⟩
  · rw [if_neg, hcount]
    · split
      · next e => exact ⟨_, by rw [e]⟩
      · next e => exact ⟨_, by rw [e]⟩
    · rw [gt_iff_lt, UInt32.lt_iff_toNat_lt, hcount]
      exact Nat.not_lt.2 hle

/-- **`vmm_init` establishes the invariant**, with no other directory yet. -/
theorem vmmInit_inv {s : Pmm} {k : UInt32} (hs : s.Inv xs) (hk : s.InUse xs k) (hz : k ≠ 0) :
    SameBoot ⟨s, k, 0⟩ (vmmInit ⟨s, k, 0⟩) ∧
      ∃ n, n ≤ identityCount s ∧ (vmmInit ⟨s, k, 0⟩).Inv [] (xs.drop n) ∧
        ∀ j, identityCount s ≤ j.toNat → tableOf (vmmInit ⟨s, k, 0⟩).mem k j = none := by
  obtain ⟨hinv, hnone⟩ := inv_cleared hs hk hz
  obtain ⟨cur, heq⟩ := vmmInit_eq (v := ⟨s, k, 0⟩) rfl
  have hle : identityCount s ≤ 1024 := by
    have := s.totalMemory.toNat_lt
    simp only [identityCount]
    omega
  obtain ⟨hboot, n, hn, hinv', hrest⟩ := hinv.identityTables (n := identityCount s) (i := 0)
    (by simpa using hle) fun j _ => hnone j
  rw [heq]
  exact ⟨(sameBoot_setMem ..).trans hboot, n, hn, ⟨hinv'.pmm, hinv'.dir, hinv'.kernel,
    hinv'.table, hinv'.table_ne, hinv'.sharing⟩,
    fun j hj => hrest j (by simpa using hj)⟩

end HaoSys.Mm.Vmm
