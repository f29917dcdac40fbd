import HaoSys.Mm.VmmLaws

/-!
# Destroying a directory

`vmm_destroy_directory` frees the tables of a directory that the scan over the
kernel's PDEs does not recognise, and then the directory. A free writes the
bitmap and the first word of the freed page, so the scan reads the same
entries all along and the freed pages are those of the state before
(`destroyTables_freed`). They are the directory's own exactly when no table of
the kernel's stands in one of its slots above the bound of the scan.
-/

namespace HaoSys.Mm

open HaoSys.Lib

/-- `pmm_free_page` writes a byte of the bitmap and the first word of the page. -/
theorem Pmm.Fits.pmmFreePage_mem {s : Pmm} (h : s.Fits) {addr c : UInt32}
    (ha : addr.toNat % 4096 = 0) (hc : ¬ s.BitmapPage (addrToIndex c))
    (hne : addrToIndex c ≠ addrToIndex addr) : (s.pmmFreePage addr).mem c = s.mem c := by
  unfold Pmm.pmmFreePage
  simp only
  split
  · rfl
  next hge =>
  split
  · rfl
  have hlt : addrToIndex addr < s.totalPages := UInt32.not_le.1 hge
  simp only
  rw [store32_apply_of_not_inWord]
  · unfold Pmm.setPageBit
    simp only
    rw [store8_apply, if_neg]
    rintro rfl
    exact hc (h.byteAddr_page hlt)
  · intro hin
    have := hin.page_eq (by omega)
    exact hne (UInt32.toNat_inj.1 (by rw [addrToIndex_toNat, addrToIndex_toNat, this]))

theorem Pmm.sameMachine_pmmFreePage (s : Pmm) (a : UInt32) : s.SameMachine (s.pmmFreePage a) := by
  unfold Pmm.pmmFreePage
  simp only
  split
  · exact .refl s
  · split
    · exact .refl s
    · exact ⟨⟨rfl, rfl⟩, rfl⟩

namespace Vmm

variable {v w : Vmm} {dirs xs : List UInt32} {dir i t : UInt32}

theorem sameBoot_freePage (v : Vmm) (a : UInt32) : v.SameBoot (v.freePage a) :=
  ⟨rfl, Pmm.sameMachine_pmmFreePage v.pmm a⟩

/-- A free leaves the entries of every other page outside the bitmap. -/
theorem entryAt_freePage (hf : v.pmm.Fits) {a : UInt32} (ha : a.toNat % 4096 = 0)
    (hb : ¬ v.pmm.BitmapPage (addrToIndex a)) (ht : t.toNat % 4096 = 0) (hne : a ≠ t)
    (hi : i.toNat < 1024) : entryAt (v.freePage t).mem a i = entryAt v.mem a i :=
  entryAt_congr ha hi fun c hc => hf.pmmFreePage_mem ht (by rw [hc]; exact hb)
    (by rw [hc]; exact page_ne ht ha hne)

/-! ## What is freed -/

/-- The table in slot `i`, if the scan does not take it for one of the kernel's. -/
def ownTable (v : Vmm) (dir i : UInt32) : Option UInt32 :=
  (tableOf v.mem dir i).filter fun t => !v.isKernelTable t

theorem ownTable_eq_some :
    v.ownTable dir i = some t ↔ tableOf v.mem dir i = some t ∧ v.isKernelTable t = false := by
  unfold ownTable
  rw [Option.filter_eq_some_iff, Bool.not_eq_true']

/-- The scan reads the kernel's directory and the memory size. -/
theorem isKernelTable_congr (hboot : v.SameBoot w)
    (hk : ∀ j, j.toNat < 1024 → entryAt w.mem v.kernelPageDirectory j =
      entryAt v.mem v.kernelPageDirectory j) (t : UInt32) :
    w.isKernelTable t = v.isKernelTable t := by
  have hbound : w.kernelPdes = v.kernelPdes := by rw [kernelPdes, kernelPdes, hboot.2.2]
  rw [Bool.eq_iff_iff, isKernelTable_iff, isKernelTable_iff, hbound, hboot.1]
  constructor
  · rintro ⟨k, hlt, ht⟩
    exact ⟨k, hlt, by rwa [tableOf_congr (hk k)] at ht⟩
  · rintro ⟨k, hlt, ht⟩
    exact ⟨k, hlt, by rwa [tableOf_congr (hk k)]⟩

/-- From `v` to `w` the entries of `dir` and of the kernel's directory stay. -/
structure SameEntries (v w : Vmm) (dir : UInt32) : Prop where
  boot : v.SameBoot w
  own : ∀ j, j.toNat < 1024 → entryAt w.mem dir j = entryAt v.mem dir j
  kernel : ∀ j, j.toNat < 1024 → entryAt w.mem v.kernelPageDirectory j =
    entryAt v.mem v.kernelPageDirectory j

theorem SameEntries.refl (v : Vmm) (dir : UInt32) : v.SameEntries v dir :=
  ⟨.refl v, fun _ _ => rfl, fun _ _ => rfl⟩

theorem SameEntries.ownTable (h : v.SameEntries w dir) : w.ownTable dir i = v.ownTable dir i := by
  unfold Vmm.ownTable
  rw [tableOf_congr (h.own i)]
  congr 1
  funext t
  rw [isKernelTable_congr h.boot h.kernel]

/-- Freeing a table of `dir` leaves both directories. -/
theorem Inv.sameEntries_freePage (h : v.Inv dirs xs) (hd : dir ∈ v.kernelPageDirectory :: dirs)
    (hw : v.SameEntries w dir) (ht : v.ownTable dir i = some t) :
    v.SameEntries (w.freePage t) dir := by
  obtain ⟨huse, hnd⟩ := h.table dir hd i t (ownTable_eq_some.1 ht).1
  have hfits : w.pmm.Fits := h.pmm.fits.of_sameLayout hw.boot.2.1
  have hkeep : ∀ a ∈ v.kernelPageDirectory :: dirs, ∀ j, j.toNat < 1024 →
      entryAt (w.freePage t).mem a j = entryAt w.mem a j := fun a ha j hj =>
    entryAt_freePage hfits (h.dir a ha).2.aligned
      (fun hb => (h.dir a ha).2.notBitmap (hb.congr hw.boot.2.1.1 hw.boot.2.1.2)) huse.aligned
      (fun e => hnd (e ▸ ha)) hj
  refine ⟨hw.boot.trans (sameBoot_freePage w t), fun j hj => ?_, fun j hj => ?_⟩
  · rw [hkeep dir hd j hj, hw.own j hj]
  · rw [hkeep _ List.mem_cons_self j hj, hw.kernel j hj]

/-- The three ways of one turn of the loop, in terms of the state before the call. -/
theorem Inv.destroyTables_succ (h : v.Inv dirs xs) (hd : dir ∈ v.kernelPageDirectory :: dirs)
    (hw : v.SameEntries w dir) (hi : i.toNat < 1024) (n : Nat) :
    destroyTables dir (n + 1) i w = match v.ownTable dir i with
      | none => destroyTables dir n (i + 1) w
      | some t => (t :: (destroyTables dir n (i + 1) (w.freePage t)).1,
          (destroyTables dir n (i + 1) (w.freePage t)).2) := by
  rw [destroyTables, hw.own i hi, isKernelTable_congr hw.boot hw.kernel]
  cases hp : isPresent (entryAt v.mem dir i) with
  | false =>
    have hnone : v.ownTable dir i = none := by
      unfold Vmm.ownTable tableOf
      rw [hp]
      simp
    rw [hnone]
    rfl
  | true =>
    have htab : tableOf v.mem dir i = some (frameOf (entryAt v.mem dir i)) :=
      tableOf_eq_some.2 ⟨hi, hp, rfl⟩
    have hown : v.ownTable dir i =
        (some (frameOf (entryAt v.mem dir i))).filter fun t => !v.isKernelTable t := by
      unfold Vmm.ownTable
      rw [htab]
    have hne := h.table_ne dir hd _ _ htab
    cases hk : v.isKernelTable (frameOf (entryAt v.mem dir i)) with
    | true =>
      rw [hown, Option.filter_some, hk]
      rfl
    | false =>
      rw [hown, Option.filter_some, hk]
      simp only [freePt, if_neg hne, Bool.not_true, Bool.not_false, Bool.false_eq_true, ↓reduceIte,
        List.singleton_append]

/-- The loop frees the unrecognised tables of the slots it passes. -/
theorem Inv.destroyTables_freed (h : v.Inv dirs xs) (hd : dir ∈ v.kernelPageDirectory :: dirs) :
    ∀ {n : Nat} {i : UInt32} {w : Vmm}, v.SameEntries w dir → i.toNat + n ≤ 1024 →
      (destroyTables dir n i w).1 =
        (List.range' i.toNat n).filterMap fun j => v.ownTable dir (UInt32.ofNat j) := by
  intro n
  induction n with
  | zero =>
    intro i w _ _
    rfl
  | succ n ih =>
    intro i w hw hn
    have hsucc : (i + 1).toNat = i.toNat + 1 := by
      rw [UInt32.toNat_add, UInt32.toNat_one]
      omega
    rw [h.destroyTables_succ hd hw (by omega), List.range'_succ, List.filterMap_cons,
      UInt32.ofNat_toNat, ← hsucc]
    cases hown : v.ownTable dir i with
    | none => exact ih hw (by omega)
    | some t =>
      simp only
      rw [ih (h.sameEntries_freePage hd hw hown) (by omega)]

/-- **What `vmm_destroy_directory` frees**: the unrecognised tables and the directory. -/
theorem Inv.mem_vmmDestroyDirectory (h : v.Inv dirs xs) (hd : dir ∈ v.kernelPageDirectory :: dirs)
    (a : UInt32) :
    a ∈ (v.vmmDestroyDirectory dir).1 ↔ a = dir ∨ ∃ i, v.ownTable dir i = some a := by
  unfold vmmDestroyDirectory
  rw [if_neg (h.dir dir hd).1]
  simp only [List.mem_append, List.mem_singleton]
  rw [h.destroyTables_freed hd (.refl v dir) (by decide), List.mem_filterMap, or_comm]
  refine or_congr_right ⟨fun ⟨j, _, hj⟩ => ⟨_, hj⟩, fun ⟨i, hi⟩ => ⟨i.toNat, ?_, ?_⟩⟩
  · have hlt := (tableOf_eq_some.1 (ownTable_eq_some.1 hi).1).1
    rw [List.mem_range'_1, UInt32.toNat_zero]
    omega
  · rwa [UInt32.ofNat_toNat]

/-- No page is freed twice. -/
theorem Inv.nodup_vmmDestroyDirectory (h : v.Inv dirs xs)
    (hd : dir ∈ v.kernelPageDirectory :: dirs) : (v.vmmDestroyDirectory dir).1.Nodup := by
  unfold vmmDestroyDirectory
  rw [if_neg (h.dir dir hd).1]
  simp only
  rw [h.destroyTables_freed hd (.refl v dir) (by decide), List.nodup_append]
  refine ⟨?_, List.nodup_singleton dir, ?_⟩
  · have hslots : ((List.range' 0 1024).map UInt32.ofNat).Nodup := by
      refine List.Nodup.map_on (fun j hj k hk e => ?_) List.nodup_range'
      rw [List.mem_range'_1] at hj hk
      have := congrArg UInt32.toNat e
      rw [UInt32.toNat_ofNat', UInt32.toNat_ofNat'] at this
      omega
    have := hslots.filterMap (f := v.ownTable dir) fun j k t hj hk => ?_
    · rwa [List.filterMap_map] at this
    -- a table stands in one slot
    rw [Option.mem_def, ownTable_eq_some] at hj hk
    exact (h.sharing dir hd dir hd j k t hj.1 hk.1).1
  · intro a ha b hb
    rw [List.mem_singleton.1 hb]
    rintro rfl
    obtain ⟨j, -, hj⟩ := List.mem_filterMap.1 ha
    exact (h.table a hd _ _ (ownTable_eq_some.1 hj).1).2 hd

/-- A directory page with one entry that the scan does not recognise. -/
theorem vmmDestroyDirectory_one {d t : UInt32} (hd : d ≠ 0) (ht : t ≠ 0)
    (hpde : isPresent (entryAt v.mem d 0) = true ∧ frameOf (entryAt v.mem d 0) = t)
    (hscan : v.isKernelTable t = false)
    (hrest : ∀ i : UInt32, i ≠ 0 → i.toNat < 1024 → entryAt (v.freePage t).mem d i = 0) :
    v.vmmDestroyDirectory d = ([t, d], (v.freePage t).freePage d) := by
  have hnone : ∀ {n : Nat} {i : UInt32}, i ≠ 0 → i.toNat + n ≤ 1024 →
      destroyTables d n i (v.freePage t) = ([], v.freePage t) := by
    intro n
    induction n with
    | zero => exact fun _ _ => rfl
    | succ n ih =>
      intro i hi hn
      have hsucc : (i + 1).toNat = i.toNat + 1 := by
        rw [UInt32.toNat_add, UInt32.toNat_one]
        omega
      rw [destroyTables, hrest i hi (by omega)]
      refine (if_pos rfl).trans (ih (fun e => ?_) (by omega))
      rw [e, UInt32.toNat_zero] at hsucc
      omega
  have hloop : destroyTables d 1024 0 v = ([t], v.freePage t) := by
    rw [destroyTables, hpde.1, hpde.2, hscan, freePt, if_neg ht]
    simp [hnone]
  unfold vmmDestroyDirectory
  rw [if_neg hd, hloop]
  rfl

/-! ## The directory's own pages -/

/-- Only directory `dir` holds `t`. -/
def Private (v : Vmm) (dirs : List UInt32) (dir t : UInt32) : Prop :=
  (∃ i, tableOf v.mem dir i = some t) ∧
    ∀ d ∈ v.kernelPageDirectory :: dirs, d ≠ dir → ∀ j, tableOf v.mem d j ≠ some t

/-- `vmm_destroy_directory` frees, once each, the directory and the tables only it holds; a table
of the kernel's is never freed. -/
structure FreesOwn (v : Vmm) (dirs : List UInt32) (dir : UInt32) : Prop where
  nodup : (v.vmmDestroyDirectory dir).1.Nodup
  exact : ∀ a, a ∈ (v.vmmDestroyDirectory dir).1 ↔ a = dir ∨ v.Private dirs dir a
  kernel : ∀ i t, tableOf v.mem v.kernelPageDirectory i = some t →
    t ∉ (v.vmmDestroyDirectory dir).1

/-- No slot of `dir` above the bound of the scan holds a table of the kernel's directory. -/
def Unshared (v : Vmm) (dir : UInt32) : Prop :=
  ∀ i t, v.kernelPdes ≤ i → tableOf v.mem dir i = some t →
    tableOf v.mem v.kernelPageDirectory i ≠ some t

/-- An unrecognised table is private, below the bound always and above it without shared tables. -/
theorem Inv.private_of_ownTable (h : v.Inv dirs xs) (hd : dir ∈ dirs) (hu : v.Unshared dir)
    (ht : v.ownTable dir i = some t) : v.Private dirs dir t := by
  obtain ⟨htab, hker⟩ := ownTable_eq_some.1 ht
  refine ⟨⟨i, htab⟩, h.sharing.private_of_ne (List.mem_cons_of_mem _ hd) htab fun hk => ?_⟩
  by_cases hlt : i < v.kernelPdes
  · rw [isKernelTable_iff.2 ⟨i, UInt32.lt_iff_toNat_lt.1 hlt, hk⟩] at hker
    cases hker
  · exact hu i t (UInt32.not_lt.1 hlt) htab hk

theorem Inv.ownTable_of_private (h : v.Inv dirs xs) (hd : dir ∈ dirs)
    (ht : v.Private dirs dir t) : ∃ i, v.ownTable dir i = some t := by
  obtain ⟨⟨i, htab⟩, hother⟩ := ht
  refine ⟨i, ownTable_eq_some.2 ⟨htab, ?_⟩⟩
  rw [← Bool.not_eq_true, isKernelTable_iff]
  rintro ⟨k, -, hk⟩
  exact hother _ List.mem_cons_self (fun e => h.kernel (e ▸ hd)) k hk

/-- A shared table above the bound is freed. -/
theorem Inv.ownTable_of_shared (h : v.Inv dirs xs) (hge : v.kernelPdes ≤ i)
    (ht : tableOf v.mem dir i = some t) (hk : tableOf v.mem v.kernelPageDirectory i = some t) :
    v.ownTable dir i = some t :=
  ownTable_eq_some.2 ⟨ht, h.not_isKernelTable hk hge⟩

theorem Inv.freesOwn_iff (h : v.Inv dirs xs) (hd : dir ∈ dirs) :
    v.FreesOwn dirs dir ↔ v.Unshared dir := by
  have hmem := List.mem_cons_of_mem v.kernelPageDirectory hd
  constructor
  · intro hown i t hge ht hk
    refine hown.kernel i t hk ((h.mem_vmmDestroyDirectory hmem t).2 (.inr ⟨i, ?_⟩))
    exact h.ownTable_of_shared hge ht hk
  · intro hu
    have hexact : ∀ a, a ∈ (v.vmmDestroyDirectory dir).1 ↔ a = dir ∨ v.Private dirs dir a := by
      intro a
      rw [h.mem_vmmDestroyDirectory hmem]
      refine or_congr_right ⟨fun ⟨i, hi⟩ => h.private_of_ownTable hd hu hi, fun hp => ?_⟩
      exact h.ownTable_of_private hd hp
    refine ⟨h.nodup_vmmDestroyDirectory hmem, hexact, fun i t hk ht => ?_⟩
    obtain rfl | hp := (hexact t).1 ht
    · exact (h.table _ List.mem_cons_self i t hk).2 hmem
    · exact hp.2 _ List.mem_cons_self (fun e => h.kernel (e ▸ hd)) i hk

/-- **Destruction over runs.** In every state built by the routines, `vmm_destroy_directory` frees
exactly what the directory owns if and only if no slot of it above the bound of the scan holds a
table of the kernel's directory. -/
theorem vmm_destroy_directory_exact_iff {endAddr k : UInt32} (hl : ImageLayout endAddr k)
    (h : Built endAddr k v dirs) (hd : dir ∈ dirs) : v.FreesOwn dirs dir ↔ v.Unshared dir := by
  obtain ⟨xs, hinv⟩ := h.inv hl
  exact hinv.freesOwn_iff hd

theorem Reachable.built {endAddr k : UInt32} (h : Reachable endAddr k v dirs) :
    Built endAddr k v dirs := by
  induction h with
  | init hs => exact .init hs
  | create _ hc ih => exact .create ih hc
  | mapKernel virt phys flags _ ih => exact .map virt phys flags ih List.mem_cons_self
  | mapUser virt phys _ hd _ ih => exact .map virt phys _ ih (List.mem_cons_of_mem _ hd)
  | unmap virt _ hd ih => exact .unmap virt ih hd

theorem vmm_destroy_directory_exact_iff_small : ∃ v dir, Built 0x102000 0x101000 v [dir] ∧
    (v.FreesOwn [dir] dir ↔ v.Unshared dir) := by
  obtain ⟨v, dir, h, -⟩ := small_sharesUnscanned
  exact ⟨v, dir, h.built, vmm_destroy_directory_exact_iff smallLayout h.built List.mem_cons_self⟩

/-- Destroying a directory made after the loader's mapping frees the kernel's table. -/
theorem vmm_destroy_frees_kernel_table : ∃ v dir i t, Built 0x102000 0x101000 v [dir] ∧
    tableOf v.mem v.kernelPageDirectory i = some t ∧ t ∈ (v.vmmDestroyDirectory dir).1 := by
  obtain ⟨v, dir, h, hs⟩ := small_sharesUnscanned
  obtain ⟨xs, hinv⟩ := h.inv smallLayout
  have ht := tableOf_pdIndex hs.present
  have hk := tableOf_pdIndex hs.kernelPresent
  rw [← hs.sameTable] at hk
  refine ⟨v, dir, _, _, h.built, hk, ?_⟩
  exact (hinv.mem_vmmDestroyDirectory (List.mem_cons_of_mem _ List.mem_cons_self) _).2
    (.inr ⟨_, hinv.ownTable_of_shared hs.unscanned ht hk⟩)

/-! ## The pages that stay -/

/-- From `v` with the free pages `xs` to `w` with `ys`: the pages in use outside `gone` stay, with
their entries. -/
structure KeepsOff (v : Vmm) (xs : List UInt32) (w : Vmm) (ys gone : List UInt32) : Prop where
  boot : v.SameBoot w
  inUse : ∀ a, v.pmm.InUse xs a → a ∉ gone → w.pmm.InUse ys a
  entry : ∀ a, v.pmm.InUse xs a → a ∉ gone → ∀ i, i.toNat < 1024 →
    entryAt w.mem a i = entryAt v.mem a i

section Frees

variable {ys gone ds : List UInt32}

theorem KeepsOff.refl (v : Vmm) (xs : List UInt32) : v.KeepsOff xs v xs [] :=
  ⟨.refl v, fun _ h _ => h, fun _ _ _ _ _ => rfl⟩

theorem KeepsOff.trans {u : Vmm} {zs more : List UInt32} (h1 : v.KeepsOff xs w ys gone)
    (h2 : w.KeepsOff ys u zs more) : v.KeepsOff xs u zs (gone ++ more) := by
  refine ⟨h1.boot.trans h2.boot, fun a ha hm => ?_, fun a ha hm i hi => ?_⟩ <;>
    rw [List.mem_append, not_or] at hm
  · exact h2.inUse a (h1.inUse a ha hm.1) hm.2
  · rw [h2.entry a (h1.inUse a ha hm.1) hm.2 i hi, h1.entry a ha hm.1 i hi]

theorem KeepsOff.tableOf (h : v.KeepsOff xs w ys gone) (ha : v.pmm.InUse xs dir)
    (hg : dir ∉ gone) : tableOf w.mem dir i = tableOf v.mem dir i :=
  tableOf_congr (h.entry dir ha hg i)

/-- Frees of pages that are neither directories nor tables keep the invariant. -/
theorem Inv.keepsOff (h : v.Inv dirs xs) (hs : w.pmm.Inv ys) (hk : v.KeepsOff xs w ys gone)
    (hdir : ∀ d ∈ v.kernelPageDirectory :: dirs, d ∉ gone)
    (htab : ∀ d ∈ v.kernelPageDirectory :: dirs, ∀ i t, HaoSys.Mm.tableOf v.mem d i = some t →
      t ∉ gone) : w.Inv dirs ys := by
  have hT : ∀ d ∈ v.kernelPageDirectory :: dirs, ∀ i,
      HaoSys.Mm.tableOf w.mem d i = HaoSys.Mm.tableOf v.mem d i :=
    fun d hd i => hk.tableOf (h.dir d hd).2 (hdir d hd)
  refine ⟨hs, ?_, ?_, ?_, ?_, ?_⟩ <;> rw [hk.boot.1]
  · exact fun d hd => ⟨(h.dir d hd).1, hk.inUse d (h.dir d hd).2 (hdir d hd)⟩
  · exact h.kernel
  · intro d hd i t ht
    rw [hT d hd] at ht
    obtain ⟨huse, hnd⟩ := h.table d hd i t ht
    exact ⟨hk.inUse t huse (htab d hd i t ht), hnd⟩
  · intro d hd i t ht
    rw [hT d hd] at ht
    exact h.table_ne d hd i t ht
  · exact h.sharing.congr hT

/-- A page nothing points to stays so. -/
theorem Fresh.keepsOff (ht : v.Fresh dirs xs t) (h : v.Inv dirs xs)
    (hk : v.KeepsOff xs w ys gone) (hg : t ∉ gone)
    (hdir : ∀ d ∈ v.kernelPageDirectory :: dirs, d ∉ gone) : w.Fresh dirs ys t := by
  refine ⟨ht.ne_zero, hk.inUse t ht.inUse hg, ?_, ?_⟩ <;> rw [hk.boot.1]
  · exact ht.notDir
  · intro d hd i
    rw [hk.tableOf (h.dir d hd).2 (hdir d hd)]
    exact ht.notTable d hd i

/-- The free pages `ys` are `xs` and those of the machine's `n` pages whose addresses are in `ps`. -/
def GivesBack (n : UInt32) (ps xs ys : List UInt32) : Prop :=
  ∀ i, i ∈ ys ↔ i ∈ xs ∨ i < n ∧ ∃ a ∈ ps, addrToIndex a = i

theorem GivesBack.refl (n : UInt32) (xs : List UInt32) : GivesBack n [] xs xs := fun i => by simp

theorem GivesBack.trans {n : UInt32} {ps qs zs : List UInt32} (h1 : GivesBack n ps xs ys)
    (h2 : GivesBack n qs ys zs) : GivesBack n (ps ++ qs) xs zs := fun i => by
  rw [h2 i, h1 i]
  simp only [List.mem_append, or_and_right, exists_or, and_or_left, or_assoc]

/-- `pmm_free_page` of a page nothing points to; a page of the machine becomes the first free one. -/
theorem Inv.freePage (h : v.Inv dirs xs) (ht : v.Fresh dirs xs t) :
    ∃ ys, (v.freePage t).Inv dirs ys ∧ v.KeepsOff xs (v.freePage t) ys [t] ∧
      (ys = xs ∨ ys = addrToIndex t :: xs) ∧
      (addrToIndex t < v.pmm.totalPages → ys = addrToIndex t :: xs) := by
  rcases h.pmm.pmmFreePage ht.inUse.aligned ht.inUse.notBitmap with ⟨e, hin⟩ | ⟨-, hs⟩
  · have hsame : v.freePage t = v := by
      unfold Vmm.freePage
      rw [e]
    rw [hsame]
    exact ⟨xs, h, ⟨.refl v, fun _ ha _ => ha, fun _ _ _ _ _ => rfl⟩, .inl rfl,
      fun hlt => absurd (hin hlt) ht.inUse.notFree⟩
  · have hl := Pmm.sameMachine_pmmFreePage v.pmm t
    have hk : v.KeepsOff xs (v.freePage t) (addrToIndex t :: xs) [t] := by
      refine ⟨sameBoot_freePage v t, fun a ha hm => ⟨ha.aligned, fun hmem => ?_, fun hb => ?_⟩,
        fun a ha hm i hi => ?_⟩
      · rcases List.mem_cons.1 hmem with e | hmem
        · exact page_ne ht.inUse.aligned ha.aligned (fun e => hm (List.mem_singleton.2 e)) e
        · exact ha.notFree hmem
      · exact ha.notBitmap (hb.congr hl.1.1 hl.1.2)
      · exact entryAt_freePage h.pmm.fits ha.aligned ha.notBitmap ht.inUse.aligned
          (fun e => hm (List.mem_singleton.2 e)) hi
    refine ⟨_, h.keepsOff hs hk (fun d hd hm => ?_) fun d hd i u hu hm => ?_, hk, .inr rfl,
      fun _ => rfl⟩
    · rw [List.mem_singleton] at hm
      exact ht.notDir (hm ▸ hd)
    · rw [List.mem_singleton] at hm
      exact ht.notTable d hd i (hm ▸ hu)

/-- The page is free then, if it is one of the machine's. -/
theorem Inv.givesBack (h : v.Inv dirs xs) (ht : v.Fresh dirs xs t) {ys : List UInt32}
    (hs : (v.freePage t).pmm.Inv ys) : GivesBack v.pmm.totalPages [t] xs ys := by
  obtain ⟨zs, hinv, hk, hzs, hcons⟩ := h.freePage ht
  obtain rfl : zs = ys := hinv.pmm.follows.unique hs.follows hinv.pmm.nilLink_notMem hs.nilLink_notMem
  intro i
  simp only [List.mem_singleton, exists_eq_left]
  rcases hzs with rfl | rfl
  · refine ⟨.inl, fun hi => hi.elim id ?_⟩
    rintro ⟨hlt, rfl⟩
    rw [hcons hlt]
    exact List.mem_cons_self
  · have hlt := hinv.pmm.lt (i := addrToIndex t) List.mem_cons_self
    rw [hk.boot.2.1.2] at hlt
    rw [List.mem_cons, or_comm]
    exact or_congr_right ⟨fun e => ⟨e ▸ hlt, e.symm⟩, fun e => e.2.symm⟩

/-- Fewer directories. -/
theorem Inv.subset (h : v.Inv dirs xs) (hsub : ds ⊆ dirs) : v.Inv ds xs := by
  have hmem : v.kernelPageDirectory :: ds ⊆ v.kernelPageDirectory :: dirs :=
    List.cons_subset_cons _ hsub
  refine ⟨h.pmm, fun d hd => h.dir d (hmem hd), fun hm => h.kernel (hsub hm),
    fun d hd i t ht => ?_, fun d hd i t ht => h.table_ne d (hmem hd) i t ht, ?_⟩
  · obtain ⟨huse, hnd⟩ := h.table d (hmem hd) i t ht
    exact ⟨huse, fun hm => hnd (hmem hm)⟩
  · intro d hd d' hd' i i' t h1 h2
    exact h.sharing d (hmem hd) d' (hmem hd') i i' t h1 h2

/-- Without `dir`, its page and its private tables are pages nothing points to. -/
theorem Inv.fresh_dir (h : v.Inv dirs xs) (hd : dir ∈ dirs) (hsub : ds ⊆ dirs)
    (hnot : dir ∉ ds) : v.Fresh ds xs dir := by
  obtain ⟨hne, huse⟩ := h.dir dir (List.mem_cons_of_mem _ hd)
  refine ⟨hne, huse, fun hm => ?_, fun d hd' i ht => ?_⟩
  · rcases List.mem_cons.1 hm with rfl | hm
    · exact h.kernel hd
    · exact hnot hm
  · exact (h.table d (List.cons_subset_cons _ hsub hd') i dir ht).2 (List.mem_cons_of_mem _ hd)

theorem Inv.fresh_table (h : v.Inv dirs xs) (hd : dir ∈ dirs) (hsub : ds ⊆ dirs)
    (hnot : dir ∉ ds) (hp : v.Private dirs dir t) : v.Fresh ds xs t := by
  have hmem : v.kernelPageDirectory :: ds ⊆ v.kernelPageDirectory :: dirs :=
    List.cons_subset_cons _ hsub
  obtain ⟨⟨i, ht⟩, hother⟩ := hp
  have hd' := List.mem_cons_of_mem v.kernelPageDirectory hd
  obtain ⟨huse, hnd⟩ := h.table dir hd' i t ht
  refine ⟨h.table_ne dir hd' i t ht, huse, fun hm => hnd (hmem hm), fun d hd'' j => ?_⟩
  refine hother d (hmem hd'') ?_ j
  rintro rfl
  rcases List.mem_cons.1 hd'' with e | hm
  · exact h.kernel (e ▸ hd)
  · exact hnot hm

/-- The list of free pages grows at its front, by no page at address 0. -/
structure FreesMore (xs ys : List UInt32) : Prop where
  suffix : xs <:+ ys
  room : ∀ i ∈ ys, i ∈ xs ∨ indexToAddr i ≠ 0

theorem FreesMore.refl (xs : List UInt32) : FreesMore xs xs := ⟨List.suffix_rfl, fun _ => .inl⟩

theorem FreesMore.trans {zs : List UInt32} (h1 : FreesMore xs ys) (h2 : FreesMore ys zs) :
    FreesMore xs zs :=
  ⟨h1.suffix.trans h2.suffix, fun i hi => (h2.room i hi).elim (h1.room i) .inr⟩

theorem FreesMore.cons (h : FreesMore xs ys) (ht : t.toNat % 4096 = 0) (h0 : t ≠ 0) :
    FreesMore xs (addrToIndex t :: ys) := by
  refine ⟨h.suffix.trans (List.suffix_cons _ _), fun i hi => ?_⟩
  rcases List.mem_cons.1 hi with rfl | hi
  · right
    rwa [indexToAddr_addrToIndex ht]
  · exact h.room i hi

/-- The loop, for a directory without shared tables above the bound. -/
theorem Inv.destroyTables_keeps (h : v.Inv dirs xs) (hd : dir ∈ dirs) (hu : v.Unshared dir)
    (hsub : ds ⊆ dirs) (hnot : dir ∉ ds) :
    ∀ {n : Nat} {i : UInt32} {w : Vmm} {ys gone : List UInt32}, v.SameEntries w dir →
      w.Inv ds ys → v.KeepsOff xs w ys gone → i.toNat + n ≤ 1024 →
      (∀ t ∈ gone, ∃ j, j.toNat < i.toNat ∧ v.ownTable dir j = some t) →
      ∃ zs, (destroyTables dir n i w).2.Inv ds zs ∧
        v.KeepsOff xs (destroyTables dir n i w).2 zs (gone ++ (destroyTables dir n i w).1) ∧
        FreesMore ys zs ∧ GivesBack v.pmm.totalPages (destroyTables dir n i w).1 ys zs := by
  have hmem := List.mem_cons_of_mem v.kernelPageDirectory hd
  intro n
  induction n with
  | zero =>
    intro i w ys gone _ hw hk _ _
    rw [destroyTables, List.append_nil]
    exact ⟨ys, hw, hk, .refl ys, .refl _ ys⟩
  | succ n ih =>
    intro i w ys gone hsame hw hk hn hgone
    have hsucc : (i + 1).toNat = i.toNat + 1 := by
      rw [UInt32.toNat_add, UInt32.toNat_one]
      omega
    rw [h.destroyTables_succ hmem hsame (by omega)]
    cases hown : v.ownTable dir i with
    | none =>
      refine ih hsame hw hk (by omega) fun t ht => ?_
      obtain ⟨j, hj, hjt⟩ := hgone t ht
      exact ⟨j, by omega, hjt⟩
    | some t =>
      have hp := h.private_of_ownTable hd hu hown
      -- the tables freed before stand in lower slots
      have hnew : t ∉ gone := by
        intro hm
        obtain ⟨j, hj, hjt⟩ := hgone t hm
        obtain ⟨rfl, -⟩ := h.sharing dir hmem dir hmem j i t (ownTable_eq_some.1 hjt).1
          (ownTable_eq_some.1 hown).1
        omega
      have hfr0 := h.fresh_table hd hsub hnot hp
      have hfr : w.Fresh ds ys t := by
        refine ⟨hfr0.ne_zero, hk.inUse t hfr0.inUse hnew, ?_, ?_⟩ <;> rw [hk.boot.1]
        · exact hfr0.notDir
        · intro d hd' j
          have hd'' := List.cons_subset_cons v.kernelPageDirectory hsub hd'
          rw [hk.tableOf (h.dir d hd'').2]
          · exact hfr0.notTable d hd' j
          · intro hm
            obtain ⟨k, -, hkt⟩ := hgone d hm
            exact (h.table dir hmem k d (ownTable_eq_some.1 hkt).1).2 hd''
      obtain ⟨zs, hinv, hkeep, hzs, -⟩ := hw.freePage hfr
      have hmore : FreesMore ys zs := by
        rcases hzs with rfl | rfl
        · exact .refl _
        · exact (FreesMore.refl ys).cons hfr.inUse.aligned hfr.ne_zero
      have hback := hw.givesBack hfr hinv.pmm
      rw [hk.boot.2.1.2] at hback
      obtain ⟨us, hinv', hkeep', hmore', hback'⟩ := ih (i := i + 1)
        (h.sameEntries_freePage hmem hsame hown) hinv (hk.trans hkeep) (by omega) fun u hum => by
          rcases List.mem_append.1 hum with hum | hum
          · obtain ⟨j, hj, hju⟩ := hgone u hum
            exact ⟨j, by omega, hju⟩
          · rw [List.mem_singleton.1 hum]
            exact ⟨i, by omega, hown⟩
      refine ⟨us, hinv', ?_, hmore.trans hmore', hback.trans hback'⟩
      rw [List.append_assoc, List.singleton_append] at hkeep'
      exact hkeep'

/-- **Destroying a directory without shared tables above the bound** keeps the other directories,
and every page in use that is not freed. -/
theorem Inv.vmmDestroyDirectory (h : v.Inv dirs xs) (hd : dir ∈ dirs) (hu : v.Unshared dir)
    (hsub : ds ⊆ dirs) (hnot : dir ∉ ds) :
    ∃ ys, (v.vmmDestroyDirectory dir).2.Inv ds ys ∧
      v.KeepsOff xs (v.vmmDestroyDirectory dir).2 ys (v.vmmDestroyDirectory dir).1 ∧
      (addrToIndex dir < v.pmm.totalPages →
        ∃ zs, ys = addrToIndex dir :: zs ∧ FreesMore xs zs) ∧
      GivesBack v.pmm.totalPages (v.vmmDestroyDirectory dir).1 xs ys := by
  have hmem := List.mem_cons_of_mem v.kernelPageDirectory hd
  obtain ⟨ys, hw, hk, hmore, hback⟩ := h.destroyTables_keeps hd hu hsub hnot (n := 1024) (i := 0)
    (.refl v dir) (h.subset hsub) (.refl v xs) (by decide) (by simp)
  have hfreed := h.destroyTables_freed hmem (.refl v dir) (n := 1024) (i := 0) (by decide)
  unfold Vmm.vmmDestroyDirectory
  rw [if_neg (h.dir dir hmem).1]
  simp only
  rw [List.nil_append] at hk
  have hfr0 := h.fresh_dir hd hsub hnot
  -- nothing freed so far is a directory
  have hoff : ∀ d ∈ v.kernelPageDirectory :: dirs, d ∉ (destroyTables dir 1024 0 v).1 := by
    intro d hd' hm
    rw [hfreed] at hm
    obtain ⟨j, -, hj⟩ := List.mem_filterMap.1 hm
    exact (h.table dir hmem _ _ (ownTable_eq_some.1 hj).1).2 hd'
  have hfr := hfr0.keepsOff (h.subset hsub) hk (hoff dir hmem) fun d hd' =>
    hoff d (List.cons_subset_cons _ hsub hd')
  obtain ⟨zs, hinv, hkeep, -, hcons⟩ := hw.freePage hfr
  have hback' := hw.givesBack hfr hinv.pmm
  rw [hk.boot.2.1.2] at hback'
  refine ⟨zs, hinv, hk.trans hkeep, fun hlt => ⟨ys, hcons ?_, hmore⟩, hback.trans hback'⟩
  rw [hk.boot.2.1.2]
  exact hlt

end Frees

end Vmm

end HaoSys.Mm
