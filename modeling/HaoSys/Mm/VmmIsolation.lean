import HaoSys.Mm.PmmRun
import HaoSys.Mm.VmmSteps

/-!
# Isolation of address spaces

`Vmm.Reachable` is every state after `vmm_init` and any sequence of
`vmm_create_directory`, `vmm_map_page` and `vmm_unmap_page`, together with the
directories made so far. A user mapping stays inside its own directory exactly
when it does not write a table that the kernel's directory holds in the same
slot above the bound of the scan (`SharesUnscanned`).
-/

namespace HaoSys.Mm.Vmm

open HaoSys.Lib

variable {v : Vmm} {dirs xs : List UInt32} {dir : UInt32}

/-- Where the linker puts the kernel's directory: in the image, page-aligned, with room for the
largest bitmap behind the image. -/
structure ImageLayout (endAddr k : UInt32) : Prop where
  room : endAddr.toNat + 2 ^ 17 ≤ 2 ^ 32
  aligned : k.toNat % 4096 = 0
  above : 0x100000 ≤ k.toNat
  below : k.toNat + 4096 ≤ endAddr.toNat

inductive Reachable (endAddr k : UInt32) : Vmm → List UInt32 → Prop where
  | init {fuel : Nat} {magic infoAddr : UInt32} {m : Mem} {s : Pmm} :
    Pmm.pmmInit fuel endAddr magic infoAddr m = some s →
    Reachable endAddr k (vmmInit ⟨s, k, 0⟩) []
  | create {v w : Vmm} {dirs : List UInt32} {d : UInt32} : Reachable endAddr k v dirs →
    v.vmmCreateDirectory = (d, w) → Reachable endAddr k w (if d = 0 then dirs else d :: dirs)
  | mapKernel {v : Vmm} {dirs : List UInt32} (virt phys flags : UInt32) :
    Reachable endAddr k v dirs →
    Reachable endAddr k (v.vmmMapPage v.kernelPageDirectory virt phys flags).2 dirs
  | mapUser {v : Vmm} {dirs : List UInt32} {d : UInt32} (virt phys : UInt32) {flags : UInt32} :
    Reachable endAddr k v dirs → d ∈ dirs → flags &&& pageUser ≠ 0 →
    Reachable endAddr k (v.vmmMapPage d virt phys flags).2 dirs
  | unmap {v : Vmm} {dirs : List UInt32} {d : UInt32} (virt : UInt32) :
    Reachable endAddr k v dirs → d ∈ v.kernelPageDirectory :: dirs →
    Reachable endAddr k (v.vmmUnmapPage d virt).2 dirs

/-- From `v` to `w`, no directory but `dir` translates differently, and no entry of a table of
the kernel's directory becomes a user entry. -/
structure Isolated (v w : Vmm) (dirs : List UInt32) (dir : UInt32) : Prop where
  translation : ∀ d ∈ v.kernelPageDirectory :: dirs, d ≠ dir → ∀ a,
    w.translate d a = v.translate d a
  noUser : ∀ i t, tableOf v.mem v.kernelPageDirectory i = some t → ∀ j, j.toNat < 1024 →
    entryAt w.mem t j &&& pageUser ≠ 0 → entryAt v.mem t j &&& pageUser ≠ 0

/-- `dir` and the kernel's directory hold the same table for `virt`, in a slot the scan does not
reach, and `virt` is unmapped. -/
structure SharesUnscanned (v : Vmm) (dir virt : UInt32) : Prop where
  present : isPresent (entryAt v.mem dir (pdIndex virt)) = true
  kernelPresent : isPresent (entryAt v.mem v.kernelPageDirectory (pdIndex virt)) = true
  sameTable : frameOf (entryAt v.mem dir (pdIndex virt)) =
    frameOf (entryAt v.mem v.kernelPageDirectory (pdIndex virt))
  unscanned : v.kernelPdes ≤ pdIndex virt
  unmapped : isPresent (entryAt v.mem (frameOf (entryAt v.mem dir (pdIndex virt)))
    (ptIndex virt)) = false

/-! ## The invariant of a run -/

/-- The kernel's directory is a page in use after `pmm_init`. -/
theorem ImageLayout.inUse {endAddr k : UInt32} (hl : ImageLayout endAddr k) {s : Pmm}
    (hb : s.bitmap = endAddr)
    (himg : ∀ i ∈ xs, ¬ (0x100 ≤ i.toNat ∧ i.toNat * 4096 < endAddr.toNat)) : s.InUse xs k := by
  have h1 := hl.above; have h2 := hl.below; have h3 := hl.aligned
  refine ⟨hl.aligned, fun hm => himg _ hm ?_, fun ⟨j, _, e⟩ => ?_⟩
  · rw [addrToIndex_toNat]
    omega
  · rw [hb, addrToIndex_toNat] at e
    omega

theorem ImageLayout.ne_zero {endAddr k : UInt32} (hl : ImageLayout endAddr k) : k ≠ 0 := by
  rintro rfl
  exact absurd hl.above (by decide)

theorem Reachable.inv {endAddr k : UInt32} (hl : ImageLayout endAddr k)
    (h : Reachable endAddr k v dirs) :
    ∃ xs, v.Inv dirs xs := by
  induction h with
  | init hs =>
    obtain ⟨hb, xs, hinv, himg⟩ := Pmm.pmmInit_inv hl.room hs
    obtain ⟨-, n, -, hv, -⟩ := vmmInit_inv hinv (hl.inUse hb himg) hl.ne_zero
    exact ⟨_, hv⟩
  | create _ hc ih =>
    obtain ⟨xs, hinv⟩ := ih
    obtain ⟨d, w, e, -, -, hz, hnz⟩ := hinv.vmmCreateDirectory
    rw [hc] at e
    cases e
    split
    · next h0 => exact ⟨_, hz h0⟩
    · next h0 => exact ⟨_, (hnz h0).1⟩
  | mapKernel virt phys flags _ ih =>
    obtain ⟨xs, hinv⟩ := ih
    exact (hinv.vmmMapPage List.mem_cons_self virt phys flags).2
  | mapUser virt phys _ hd _ ih =>
    obtain ⟨xs, hinv⟩ := ih
    exact (hinv.vmmMapPage (List.mem_cons_of_mem _ hd) virt phys _).2
  | unmap virt _ hd ih =>
    obtain ⟨xs, hinv⟩ := ih
    exact ⟨xs, (hinv.vmmUnmapPage hd virt).2⟩

/-! ## What a user mapping changes -/

theorem translate_eq (v : Vmm) (d a : UInt32) :
    v.translate d a = (tableOf v.mem d (pdIndex a)).bind fun t =>
      if isPresent (entryAt v.mem t (ptIndex a)) then
        some (frameOf (entryAt v.mem t (ptIndex a)) ||| (a &&& 0xFFF)) else none := by
  simp only [translate, tableOf, pdIndex_lt, true_and]
  cases isPresent (entryAt v.mem d (pdIndex a)) with
  | false => rfl
  | true =>
    simp only [Bool.not_true, Bool.false_eq_true, ↓reduceIte, Option.bind_some]
    cases isPresent (entryAt v.mem (frameOf (entryAt v.mem d (pdIndex a))) (ptIndex a)) <;> rfl

/-- The other directories keep their tables, and no entry of such a table changes. -/
theorem isolated_of_entries {w : Vmm}
    (hdir : ∀ d ∈ v.kernelPageDirectory :: dirs, d ≠ dir → ∀ i,
      tableOf w.mem d i = tableOf v.mem d i)
    (hkne : v.kernelPageDirectory ≠ dir)
    (htab : ∀ d ∈ v.kernelPageDirectory :: dirs, d ≠ dir → ∀ i t, tableOf v.mem d i = some t →
      ∀ j, j.toNat < 1024 → entryAt w.mem t j = entryAt v.mem t j) :
    v.Isolated w dirs dir := by
  constructor
  · intro d hd hne a
    rw [translate_eq, translate_eq, hdir d hd hne]
    cases htable : tableOf v.mem d (pdIndex a) with
    | none => rfl
    | some t =>
      simp only [Option.bind_some]
      rw [htab d hd hne _ t htable _ (ptIndex_lt a)]
  · intro i t ht j hj
    rw [htab _ List.mem_cons_self hkne i t ht j hj]
    exact id

/-- The scan finds exactly the tables in the kernel's slots below its bound. -/
theorem isKernelTable_iff {t : UInt32} :
    v.isKernelTable t = true ↔
      ∃ k, k.toNat < v.kernelPdes.toNat ∧ tableOf v.mem v.kernelPageDirectory k = some t := by
  have hle : v.kernelPdes.toNat ≤ 1024 := by
    simp only [kernelPdes]
    split
    · exact Nat.le_refl _
    · next h => exact Nat.not_lt.1 fun hlt => h (UInt32.lt_iff_toNat_lt.2 hlt)
  simp only [isKernelTable, List.any_eq_true, List.mem_range, Bool.and_eq_true, beq_iff_eq]
  constructor
  · rintro ⟨k, hk, hp, hf⟩
    have hval : (UInt32.ofNat k).toNat = k := by rw [UInt32.toNat_ofNat']; omega
    exact ⟨UInt32.ofNat k, by omega, tableOf_eq_some.2 ⟨by omega, hp, hf⟩⟩
  · rintro ⟨k, hk, ht⟩
    obtain ⟨-, hp, hf⟩ := tableOf_eq_some.1 ht
    exact ⟨k.toNat, hk, by rwa [UInt32.ofNat_toNat], by rwa [UInt32.ofNat_toNat]⟩

/-- Writing the PTE leaves the entries of the other pages. -/
theorem mapInTable_entry {t i a j phys flags : UInt32} (ht : t.toNat % 4096 = 0)
    (hi : i.toNat < 1024) (ha : a.toNat % 4096 = 0) (hj : j.toNat < 1024) (hne : a ≠ t) :
    entryAt (v.mapInTable t i phys flags).2.mem a j = entryAt v.mem a j := by
  rcases v.mapInTable_cases t i phys flags with ⟨-, e⟩ | ⟨-, e⟩ <;> rw [e]
  exact entryAt_storeEntry_of_ne ht ha hi hj hne

/-- A store to `dir` isolates the other directories. -/
theorem Inv.isolated_storePde (h : v.Inv dirs xs) (hd : dir ∈ dirs) {e i : UInt32}
    (hi : i.toNat < 1024) : v.Isolated (v.setMem (storeEntry v.mem dir i e)) dirs dir := by
  have hdir := (h.dir dir (List.mem_cons_of_mem _ hd)).2
  have hother : ∀ a, a.toNat % 4096 = 0 → a ≠ dir → ∀ k, k.toNat < 1024 →
      entryAt (storeEntry v.mem dir i e) a k = entryAt v.mem a k := fun a ha hne k hk =>
    entryAt_storeEntry_of_ne hdir.aligned ha hi hk hne
  refine isolated_of_entries (fun d hd' hne k => tableOf_congr fun hk => ?_)
    (fun heq => h.kernel (heq ▸ hd)) fun d hd' hne k u hu j hj => ?_
  · exact hother d (h.dir d hd').2.aligned hne k hk
  · obtain ⟨huse, hund⟩ := h.table d hd' k u hu
    exact hother u huse.aligned (fun heq => hund (heq ▸ List.mem_cons_of_mem _ hd)) j hj

/-- The PDE of `dir` and one PTE of its table `t` are written. -/
theorem Inv.isolated_writeOwn (h : v.Inv dirs xs) (hd : dir ∈ dirs) {t e i j phys flags : UInt32}
    (hi : i.toNat < 1024) (hj : j.toNat < 1024) (ht : v.pmm.InUse xs t)
    (hnd : t ∉ v.kernelPageDirectory :: dirs)
    (hpriv : ∀ d ∈ v.kernelPageDirectory :: dirs, d ≠ dir → ∀ i, tableOf v.mem d i ≠ some t) :
    v.Isolated ((v.setMem (storeEntry v.mem dir i e)).mapInTable t j phys flags).2 dirs dir := by
  have hdir := (h.dir dir (List.mem_cons_of_mem _ hd)).2
  -- the pages other than `dir` and `t` keep their entries
  have hother : ∀ a, a.toNat % 4096 = 0 → a ≠ dir → a ≠ t → ∀ k, k.toNat < 1024 →
      entryAt ((v.setMem (storeEntry v.mem dir i e)).mapInTable t j phys flags).2.mem a k =
        entryAt v.mem a k := fun a ha hne hnet k hk => by
    rw [mapInTable_entry ht.aligned hj ha hk hnet, setMem_mem,
      entryAt_storeEntry_of_ne hdir.aligned ha hi hk hne]
  refine isolated_of_entries (fun d hd' hne k => tableOf_congr fun hk => ?_)
    (fun heq => h.kernel (heq ▸ hd)) fun d hd' hne k u hu j hj => ?_
  · exact hother d (h.dir d hd').2.aligned hne (fun heq => hnd (heq ▸ hd')) k hk
  · obtain ⟨huse, hund⟩ := h.table d hd' k u hu
    refine hother u huse.aligned (fun heq => hund (heq ▸ List.mem_cons_of_mem _ hd))
      (fun heq => hpriv d hd' hne k (heq ▸ hu)) j hj

/-- Taking a page from the allocator isolates every directory. -/
theorem Inv.isolated_of_keeps {w : Vmm} {ys : List UInt32} (h : v.Inv dirs xs)
    (hk : v.Keeps xs w ys) (hd : dir ∈ dirs) : v.Isolated w dirs dir :=
  isolated_of_entries (fun d hd' _ _ => hk.tableOf (h.dir d hd').2)
    (fun heq => h.kernel (heq ▸ hd)) fun d hd' _ k u hu => hk.entry u (h.table d hd' k u hu).1

theorem Isolated.trans {w u : Vmm} (h1 : v.Isolated w dirs dir) (h2 : w.Isolated u dirs dir)
    (hk : w.kernelPageDirectory = v.kernelPageDirectory)
    (htab : ∀ i, tableOf w.mem v.kernelPageDirectory i = tableOf v.mem v.kernelPageDirectory i) :
    v.Isolated u dirs dir := by
  constructor
  · intro d hd hne a
    rw [h2.translation d (by rwa [hk]) hne a, h1.translation d hd hne a]
  · intro i t ht j hj hu
    exact h1.noUser i t ht j hj (h2.noUser i t (by rwa [hk, htab]) j hj hu)

/-- The scan misses a table that stands in a kernel slot above its bound. -/
theorem Inv.not_isKernelTable (h : v.Inv dirs xs) {i t : UInt32}
    (hi : tableOf v.mem v.kernelPageDirectory i = some t) (hge : v.kernelPdes ≤ i) :
    v.isKernelTable t = false := by
  rw [← Bool.not_eq_true, isKernelTable_iff]
  rintro ⟨k, hk, ht⟩
  obtain ⟨rfl, -⟩ := h.sharing _ List.mem_cons_self _ List.mem_cons_self k i t ht hi
  exact absurd (UInt32.le_iff_toNat_le.1 hge) (by omega)

/-- In the shared case the kernel's own translation changes. -/
theorem Inv.not_isolated_of_sharesUnscanned (h : v.Inv dirs xs) (hd : dir ∈ dirs)
    {virt flags : UInt32} (phys : UInt32) (hu : flags &&& pageUser ≠ 0)
    (hs : v.SharesUnscanned dir virt) :
    ¬ v.Isolated (v.vmmMapPage dir virt phys flags).2 dirs dir := by
  intro hiso
  have hmem := List.mem_cons_of_mem v.kernelPageDirectory hd
  obtain ⟨hne, hdir⟩ := h.dir dir hmem
  have hkne : v.kernelPageDirectory ≠ dir := fun heq => h.kernel (heq ▸ hd)
  have htab := tableOf_pdIndex hs.present
  have hktab := tableOf_pdIndex hs.kernelPresent
  rw [← hs.sameTable] at hktab
  obtain ⟨huse, hnd⟩ := h.table dir hmem _ _ htab
  have hk := (h.dir _ List.mem_cons_self).2
  have hpd := pdIndex_lt virt
  have hpt := ptIndex_lt virt
  rcases v.vmmMapPage_cases hne virt phys flags with ⟨hp, -⟩ | ⟨hp, -⟩ | ⟨-, -, hker, -⟩ |
    ⟨-, -, -, e⟩ | ⟨-, hz, -⟩
  · rw [hs.present] at hp; cases hp
  · rw [hs.present] at hp; cases hp
  · rw [h.not_isKernelTable hktab hs.unscanned] at hker; cases hker
  · have htr := hiso.translation _ List.mem_cons_self hkne virt
    rw [e, entryAt_storeEntry_self, frameOf_or_user] at htr
    have hunmapped := hs.unmapped
    generalize frameOf (entryAt v.mem dir (pdIndex virt)) = t at *
    rcases mapInTable_cases (v.setMem (storeEntry v.mem dir (pdIndex virt)
      (entryAt v.mem dir (pdIndex virt) ||| pageUser))) t (ptIndex virt) (phys &&& 0xFFFFF000)
      flags with ⟨hp, -⟩ | ⟨-, e'⟩
    · rw [setMem_mem, entryAt_storeEntry_of_ne hdir.aligned huse.aligned hpd hpt
        (fun heq => hnd (heq ▸ hmem)), hunmapped] at hp
      cases hp
    · -- unmapped before, mapped after
      have hkt : tableOf (storeEntry (storeEntry v.mem dir (pdIndex virt)
          (entryAt v.mem dir (pdIndex virt) ||| pageUser)) t (ptIndex virt)
          (mkEntry (phys &&& 0xFFFFF000) (flags ||| pagePresent))) v.kernelPageDirectory
          (pdIndex virt) = some t := by
        rw [← hktab]
        refine tableOf_congr fun _ => ?_
        rw [entryAt_storeEntry_of_ne huse.aligned hk.aligned hpt hpd
          (fun heq => hnd (heq ▸ List.mem_cons_self)),
          entryAt_storeEntry_of_ne hdir.aligned hk.aligned hpd hpd hkne]
      rw [e', translate_eq, translate_eq, setMem_mem, setMem_mem, hkt, hktab, Option.bind_some,
        Option.bind_some, entryAt_storeEntry_self, isPresent_mkEntry, hunmapped] at htr
      cases htr
  · exact hu hz

/-- **A user mapping stays in its directory, but for the unrecognised shared tables.** -/
theorem Inv.vmmMapPage_isolated_iff (h : v.Inv dirs xs) (hd : dir ∈ dirs) {flags : UInt32}
    (virt phys : UInt32) (hu : flags &&& pageUser ≠ 0) :
    v.Isolated (v.vmmMapPage dir virt phys flags).2 dirs dir ↔ ¬ v.SharesUnscanned dir virt := by
  refine ⟨fun hiso hs => h.not_isolated_of_sharesUnscanned hd phys hu hs hiso, fun hns => ?_⟩
  have hmem := List.mem_cons_of_mem v.kernelPageDirectory hd
  obtain ⟨hne, hdir⟩ := h.dir dir hmem
  have hpd := pdIndex_lt virt
  have hpt := ptIndex_lt virt
  rcases v.vmmMapPage_cases hne virt phys flags with ⟨-, w, halloc, e⟩ |
    ⟨hpde, pt, w, halloc, hz, f, e⟩ | ⟨-, -, -, e⟩ | ⟨hpde, -, hker, e⟩ | ⟨-, hz, -⟩
  · obtain ⟨pt, w', halloc', -, -, hkeep, -⟩ := h.allocatePt
    rw [halloc] at halloc'
    cases halloc'
    rw [e]
    exact h.isolated_of_keeps hkeep hd
  · obtain ⟨pt', w', halloc', -, hinv, hkeep, hfresh⟩ := h.allocatePt
    rw [halloc] at halloc'
    cases halloc'
    obtain ⟨hfr, -, -⟩ := hfresh hz
    rw [e]
    refine (h.isolated_of_keeps hkeep hd).trans ?_ hkeep.boot.1
      fun i => hkeep.tableOf (h.dir _ List.mem_cons_self).2
    exact hinv.isolated_writeOwn hd hpd hpt hfr.inUse hfr.notDir
      fun d hd' _ i => hfr.notTable d hd' i
  · rw [e]
    exact ⟨fun _ _ _ _ => rfl, fun _ _ _ _ _ => id⟩
  · have htab := tableOf_pdIndex hpde
    obtain ⟨huse, hnd⟩ := h.table dir hmem _ _ htab
    rw [e, entryAt_storeEntry_self, frameOf_or_user]
    by_cases hk : tableOf v.mem v.kernelPageDirectory (pdIndex virt) =
        some (frameOf (entryAt v.mem dir (pdIndex virt)))
    · -- shared and above the bound, so the PTE is there and only `dir` is written
      obtain ⟨-, hkp, hkf⟩ := tableOf_eq_some.1 hk
      have hge : v.kernelPdes ≤ pdIndex virt := UInt32.not_lt.1 fun hlt => by
        rw [isKernelTable_iff.2 ⟨_, UInt32.lt_iff_toNat_lt.1 hlt, hk⟩] at hker
        cases hker
      have hpte : isPresent (entryAt v.mem (frameOf (entryAt v.mem dir (pdIndex virt)))
          (ptIndex virt)) = true := by
        rw [← Bool.not_eq_false]
        exact fun habs => hns ⟨hpde, hkp, hkf.symm, hge, habs⟩
      rcases mapInTable_cases (v.setMem (storeEntry v.mem dir (pdIndex virt)
        (entryAt v.mem dir (pdIndex virt) ||| pageUser))) _ (ptIndex virt) (phys &&& 0xFFFFF000)
        flags with ⟨-, e'⟩ | ⟨hp, -⟩
      · rw [e']
        exact h.isolated_storePde hd hpd
      · rw [setMem_mem, entryAt_storeEntry_of_ne hdir.aligned huse.aligned hpd hpt
          (fun heq => hnd (by rw [heq]; exact hmem)), hpte] at hp
        cases hp
    · exact h.isolated_writeOwn hd hpd hpt huse hnd
        (h.sharing.private_of_ne hmem htab hk)
  · exact absurd hz hu

/-- **Isolation over runs.** In every reachable state, a mapping with `PAGE_USER` in a directory
made by `vmm_create_directory` leaves every other directory's translations and adds no user entry
to a table of the kernel's directory, exactly when it does not meet a shared table above the bound
of the scan with the page unmapped. -/
theorem vmm_user_map_isolated_iff {endAddr k : UInt32} (hl : ImageLayout endAddr k)
    (h : Reachable endAddr k v dirs) (hd : dir ∈ dirs) {flags : UInt32} (virt phys : UInt32)
    (hu : flags &&& pageUser ≠ 0) :
    v.Isolated (v.vmmMapPage dir virt phys flags).2 dirs dir ↔ ¬ v.SharesUnscanned dir virt := by
  obtain ⟨xs, hinv⟩ := h.inv hl
  exact hinv.vmmMapPage_isolated_iff hd virt phys hu

/-! ## The mapping at 0x20000000

On the small machine the scan covers one PDE. A kernel mapping at 0x20000000, where
`load_and_run_shell` loads the program, puts a table in slot 0x80; a directory made afterwards
shares it. -/

theorem smallLayout : ImageLayout 0x102000 0x101000 := ⟨by decide, by decide, by decide, by decide⟩

theorem smallPmm_facts : smallPmm.freePages = 13 ∧ smallPmm.totalMemory = 0x110000 ∧
    smallPmm.getPageBit 0 = false := by
  decide +kernel

/-- A mapping in an empty slot, with a page for the table at hand. -/
theorem Inv.vmmMapPage_new {x : UInt32} (h : v.Inv dirs (x :: xs))
    (hd : dir ∈ v.kernelPageDirectory :: dirs) (hx : indexToAddr x ≠ 0) (virt phys flags : UInt32)
    (hempty : isPresent (entryAt v.mem dir (pdIndex virt)) = false) :
    ∃ w, v.vmmMapPage dir virt phys flags = (true, w) ∧ v.SameBoot w ∧ w.Inv dirs xs ∧
      isPresent (entryAt w.mem dir (pdIndex virt)) = true ∧
      ∀ j, j.toNat < 1024 → j ≠ ptIndex virt →
        entryAt w.mem (frameOf (entryAt w.mem dir (pdIndex virt))) j = 0 := by
  obtain ⟨hne, hdir⟩ := h.dir dir hd
  have hpd := pdIndex_lt virt
  have hpt := ptIndex_lt virt
  rcases v.vmmMapPage_cases hne virt phys flags with ⟨-, w, halloc, -⟩ |
    ⟨-, pt, w, halloc, hz, f, e⟩ | ⟨hp, -⟩ | ⟨hp, -⟩ | ⟨hp, -⟩
  · obtain ⟨pt', w', halloc', haddr, -⟩ := h.allocatePt
    rw [halloc] at halloc'
    cases halloc'
    exact absurd haddr.symm hx
  · obtain ⟨pt', w', halloc', -, hinv, hkeep, hfresh⟩ := h.allocatePt
    rw [halloc] at halloc'
    cases halloc'
    obtain ⟨hfr, hold, hzero⟩ := hfresh hz
    have hd' : dir ∈ w.kernelPageDirectory :: dirs := by rwa [hkeep.boot.1]
    have hnone : tableOf w.mem dir (pdIndex virt) = none := by
      rw [hkeep.tableOf hdir, tableOf_pdIndex_none hempty]
    have hinv' := (hinv.install hd' hpd hnone hfr f).mapInTable (i := ptIndex virt)
      hfr.inUse.congr hfr.notDir hpt (phys &&& 0xFFFFF000) flags
    have hpde : entryAt ((w.setMem (storeEntry w.mem dir (pdIndex virt) (mkEntry pt f))).mapInTable
        pt (ptIndex virt) (phys &&& 0xFFFFF000) flags).2.mem dir (pdIndex virt) = mkEntry pt f := by
      rw [mapInTable_entry hfr.inUse.aligned hpt hdir.aligned hpd (hold dir hdir), setMem_mem,
        entryAt_storeEntry_self]
    have hstore : ∀ j, j.toNat < 1024 →
        entryAt (storeEntry w.mem dir (pdIndex virt) (mkEntry pt f)) pt j = 0 := fun j hj => by
      rw [entryAt_storeEntry_of_ne hdir.aligned hfr.inUse.aligned hpd hj
        (fun heq => hold dir hdir heq.symm), hzero j hj]
    rw [e]
    rcases mapInTable_cases (w.setMem (storeEntry w.mem dir (pdIndex virt) (mkEntry pt f))) pt
      (ptIndex virt) (phys &&& 0xFFFFF000) flags with ⟨hp, -⟩ | ⟨-, e'⟩
    · rw [setMem_mem, hstore _ hpt] at hp
      cases hp
    rw [e'] at hinv' hpde ⊢
    refine ⟨_, rfl, (hkeep.boot.trans (sameBoot_setMem ..)).trans (sameBoot_setMem ..), hinv',
      by rw [hpde, isPresent_mkEntry], fun j hj hjne => ?_⟩
    rw [hpde, frameOf_mkEntry, frameOf_eq_self hfr.inUse.aligned, setMem_mem,
      entryAt_storeEntry hfr.inUse.aligned hfr.inUse.aligned hpt hj, if_neg (fun h => hjne h.2)]
    exact hstore j hj
  · rw [hempty] at hp; cases hp
  · rw [hempty] at hp; cases hp
  · rw [hempty] at hp; cases hp

/-- A directory made after a kernel mapping above the bound shares its table. -/
theorem Inv.sharesUnscanned_of_kernel_map {x y : UInt32} (h : v.Inv dirs (x :: y :: xs))
    (hx : indexToAddr x ≠ 0) (hy : indexToAddr y ≠ 0) (virt virt' phys flags : UInt32)
    (hpd : pdIndex virt' = pdIndex virt) (hpt : ptIndex virt' ≠ ptIndex virt)
    (hempty : isPresent (entryAt v.mem v.kernelPageDirectory (pdIndex virt)) = false)
    (hge : v.kernelPdes ≤ pdIndex virt) :
    ∃ d w, (v.vmmMapPage v.kernelPageDirectory virt phys flags).2.vmmCreateDirectory = (d, w) ∧
      d ≠ 0 ∧ w.SharesUnscanned d virt' := by
  obtain ⟨u, e, hboot, hinv, hpres, hzero⟩ :=
    h.vmmMapPage_new List.mem_cons_self hx virt phys flags hempty
  rw [← hboot.1, ← hpd] at hpres hzero
  rw [← hpd] at hge
  obtain ⟨d, w, hcreate, haddr, hkeep, -, hnew⟩ := hinv.vmmCreateDirectory
  have hd : d ≠ 0 := haddr ▸ hy
  obtain ⟨-, -, hcopy⟩ := hnew hd
  have hvpd := pdIndex_lt virt'
  have hk := (hinv.dir _ List.mem_cons_self).2
  have hkpde := hkeep.entry _ hk _ hvpd
  have htable := (hinv.table _ List.mem_cons_self _ _ (tableOf_pdIndex hpres)).1
  refine ⟨d, w, by rw [e]; exact hcreate, hd, ?_, ?_, ?_, ?_, ?_⟩
  · rw [hcopy _ hvpd, hpres]
  · rw [hkeep.boot.1, hkpde, hpres]
  · rw [hcopy _ hvpd, hkeep.boot.1, hkpde]
  · rw [kernelPdes, hkeep.boot.2.2, hboot.2.2]
    exact hge
  · rw [hcopy _ hvpd, hkeep.entry _ htable _ (ptIndex_lt _), hzero _ (ptIndex_lt _) hpt]
    rfl

/-- The small machine after `vmm_init`, one kernel mapping and one new directory. -/
theorem small_sharesUnscanned : ∃ v dir, Reachable 0x102000 0x101000 v [dir] ∧
    v.SharesUnscanned dir 0x20001000 := by
  obtain ⟨hfree, htotal, hbit⟩ := smallPmm_facts
  obtain ⟨hb, xs, hs, himg⟩ := Pmm.pmmInit_inv smallLayout.room smallPmm_init
  have hlen : xs.length = 13 := by rw [← hs.count, hfree]; rfl
  have hnz : ∀ i ∈ xs, indexToAddr i ≠ 0 := fun i hi => hs.indexToAddr_ne_zero hbit hi
  have hcount : identityCount smallPmm = 1 := by rw [identityCount, htotal]; rfl
  obtain ⟨hboot, n, hn, hinv, hempty⟩ := vmmInit_inv hs (smallLayout.inUse hb himg)
    smallLayout.ne_zero
  rw [hcount] at hn hempty
  have h0 : Reachable 0x102000 0x101000 (vmmInit ⟨smallPmm, 0x101000, 0⟩) [] := .init smallPmm_init
  generalize vmmInit ⟨smallPmm, 0x101000, 0⟩ = v at *
  obtain ⟨x, y, ys, hys⟩ : ∃ x y ys, xs.drop n = x :: y :: ys := by
    have htwo : 2 ≤ (xs.drop n).length := by
      rw [List.length_drop]
      omega
    generalize xs.drop n = zs at htwo ⊢
    rcases zs with _ | ⟨x, _ | ⟨y, ys⟩⟩
    · exact absurd htwo (by decide)
    · exact absurd htwo (by simp)
    · exact ⟨x, y, ys, rfl⟩
  have hsub : ∀ i ∈ x :: y :: ys, indexToAddr i ≠ 0 := fun i hi =>
    hnz i (List.mem_of_mem_drop (hys ▸ hi))
  rw [hys] at hinv
  have hnone : isPresent (entryAt v.mem v.kernelPageDirectory (pdIndex 0x20000000)) = false := by
    have hslot := hempty (pdIndex 0x20000000) (by decide)
    rw [show (0x101000 : UInt32) = v.kernelPageDirectory from hboot.1.symm] at hslot
    rw [← Bool.not_eq_true]
    intro hp
    rw [tableOf_pdIndex hp] at hslot
    cases hslot
  have hbound : v.kernelPdes ≤ pdIndex 0x20000000 := by
    rw [kernelPdes, show v.pmm.totalMemory = 0x110000 from hboot.2.2.trans htotal]
    decide
  obtain ⟨d, w, hcreate, hd, hshares⟩ := hinv.sharesUnscanned_of_kernel_map
    (hsub x (by simp)) (hsub y (by simp)) 0x20000000 0x20001000 0x300000 pageWrite
    (by decide) (by decide) hnone hbound
  have hreach := Reachable.create (.mapKernel 0x20000000 0x300000 pageWrite h0) hcreate
  rw [if_neg hd] at hreach
  exact ⟨w, d, hreach, hshares⟩

theorem vmm_user_map_isolated_iff_small : ∃ v dir, Reachable 0x102000 0x101000 v [dir] ∧
    (v.Isolated (v.vmmMapPage dir 0x20001000 0x300000 6).2 [dir] dir ↔
      ¬ v.SharesUnscanned dir 0x20001000) := by
  obtain ⟨v, dir, h, -⟩ := small_sharesUnscanned
  exact ⟨v, dir, h, vmm_user_map_isolated_iff smallLayout h List.mem_cons_self _ _ (by decide)⟩

/-- A user mapping behind the loader's window changes the kernel's address space. -/
theorem vmm_user_map_not_isolated : ∃ v dir, Reachable 0x102000 0x101000 v [dir] ∧
    ¬ v.Isolated (v.vmmMapPage dir 0x20001000 0x300000 6).2 [dir] dir := by
  obtain ⟨v, dir, h, hs⟩ := small_sharesUnscanned
  obtain ⟨xs, hinv⟩ := h.inv smallLayout
  exact ⟨v, dir, h, fun hiso =>
    (hinv.vmmMapPage_isolated_iff List.mem_cons_self _ _ (by decide)).1 hiso hs⟩

end HaoSys.Mm.Vmm
