import HaoSys.Lib.Sharing
import HaoSys.Mm.PmmInit
import HaoSys.Mm.VmmEntries

/-!
# The paging invariant

Directories and tables are pages taken from the allocator and never given
back, so a store to one of them disturbs neither the allocator nor any other
directory or table. `Vmm.Inv v dirs xs` says so for the kernel's directory and
the directories `dirs`, with `xs` the free pages; how tables are shared between
directories is `Sharing`.
-/

namespace HaoSys.Mm

open HaoSys.Lib

/-- The table that slot `i` of a directory points to. -/
def tableOf (m : Mem) (dir i : UInt32) : Option UInt32 :=
  if i.toNat < 1024 ∧ isPresent (entryAt m dir i) then some (frameOf (entryAt m dir i)) else none

theorem tableOf_eq_some {m : Mem} {dir i t : UInt32} :
    tableOf m dir i = some t ↔
      i.toNat < 1024 ∧ isPresent (entryAt m dir i) = true ∧ frameOf (entryAt m dir i) = t := by
  simp only [tableOf, Option.ite_none_right_eq_some, Option.some.injEq, and_assoc]

theorem tableOf_congr {m m' : Mem} {dir dir' i : UInt32}
    (h : i.toNat < 1024 → entryAt m' dir' i = entryAt m dir i) :
    tableOf m' dir' i = tableOf m dir i := by
  by_cases hi : i.toNat < 1024
  · rw [tableOf, tableOf, h hi]
  · rw [tableOf, tableOf, if_neg (fun h => hi h.1), if_neg (fun h => hi h.1)]

/-- A page-aligned address whose page is neither free nor part of the bitmap. -/
structure Pmm.InUse (s : Pmm) (xs : List UInt32) (a : UInt32) : Prop where
  aligned : a.toNat % 4096 = 0
  notFree : addrToIndex a ∉ xs
  notBitmap : ¬ s.BitmapPage (addrToIndex a)

theorem Pmm.InUse.congr {s : Pmm} {xs : List UInt32} {a : UInt32} {m : Mem} (h : s.InUse xs a) :
    Pmm.InUse { s with mem := m } xs a :=
  ⟨h.aligned, h.notFree, fun hb => h.notBitmap (hb.congr rfl rfl)⟩

/-- An entry store to a page in use leaves the free pages and the bitmap. -/
theorem Pmm.InUse.storeEntry_apply {s : Pmm} {xs : List UInt32} {m : Mem} {a i e c : UInt32}
    (ha : s.InUse xs a) (hi : i.toNat < 1024)
    (hc : addrToIndex c ∈ xs ∨ s.BitmapPage (addrToIndex c)) : storeEntry m a i e c = m c := by
  refine HaoSys.Mm.storeEntry_apply ha.aligned hi fun heq => ?_
  rw [heq] at hc
  exact hc.elim ha.notFree ha.notBitmap

/-- The allocator's variables that stay when memory is written. -/
def Pmm.SameMachine (s t : Pmm) : Prop := s.SameLayout t ∧ t.totalMemory = s.totalMemory

/-- `pmm_alloc_page` writes a byte of the bitmap and nothing else. -/
theorem Pmm.Inv.pmmAllocPage_mem {s : Pmm} {xs : List UInt32} (h : s.Inv xs) {c : UInt32}
    (hc : ¬ s.BitmapPage (addrToIndex c)) : s.pmmAllocPage.2.mem c = s.mem c := by
  cases xs with
  | nil => rw [h.pmmAllocPage_nil]
  | cons x xs =>
    have hhead : s.freeListHead = x := h.follows.1
    have hx := h.lt (i := x) List.mem_cons_self
    simp only [Pmm.pmmAllocPage, hhead, h.fits.ne_nilLink hx, ↓reduceIte, Pmm.setPageBit,
      store8_apply]
    rw [if_neg]
    rintro rfl
    exact hc (h.fits.byteAddr_page hx)

theorem Pmm.SameMachine.refl (s : Pmm) : s.SameMachine s := ⟨⟨rfl, rfl⟩, rfl⟩

theorem Pmm.SameMachine.trans {s t u : Pmm} (h1 : s.SameMachine t) (h2 : t.SameMachine u) :
    s.SameMachine u := ⟨h1.1.trans h2.1, h2.2.trans h1.2⟩

theorem Pmm.sameMachine_pmmAllocPage (s : Pmm) : s.SameMachine s.pmmAllocPage.2 := by
  unfold Pmm.pmmAllocPage
  split <;> exact ⟨⟨rfl, rfl⟩, rfl⟩

namespace Vmm

variable {v : Vmm} {dirs xs : List UInt32} {dir i t : UInt32} {m : Mem}

@[simp] theorem setMem_mem (v : Vmm) (m : Mem) : (v.setMem m).mem = m := rfl

@[simp] theorem setMem_kernelPageDirectory (v : Vmm) (m : Mem) :
    (v.setMem m).kernelPageDirectory = v.kernelPageDirectory := rfl

@[simp] theorem setMem_currentDirectory (v : Vmm) (m : Mem) :
    (v.setMem m).currentDirectory = v.currentDirectory := rfl

structure Inv (v : Vmm) (dirs xs : List UInt32) : Prop where
  pmm : v.pmm.Inv xs
  dir : ∀ d ∈ v.kernelPageDirectory :: dirs, d ≠ 0 ∧ v.pmm.InUse xs d
  kernel : v.kernelPageDirectory ∉ dirs
  table : ∀ d ∈ v.kernelPageDirectory :: dirs, ∀ i t, tableOf v.mem d i = some t →
    v.pmm.InUse xs t ∧ t ∉ v.kernelPageDirectory :: dirs
  table_ne : ∀ d ∈ v.kernelPageDirectory :: dirs, ∀ i t, tableOf v.mem d i = some t → t ≠ 0
  sharing : Sharing (tableOf v.mem) v.kernelPageDirectory dirs

/-! ## Stores to directories and tables -/

/-- A store that leaves the allocator's bytes keeps the invariant with its two paging parts. -/
theorem Inv.setMem (h : v.Inv dirs xs)
    (hpmm : ∀ c, addrToIndex c ∈ xs ∨ v.pmm.BitmapPage (addrToIndex c) → m c = v.mem c)
    (htable : ∀ d ∈ v.kernelPageDirectory :: dirs, ∀ i t, tableOf m d i = some t →
      v.pmm.InUse xs t ∧ t ∉ v.kernelPageDirectory :: dirs)
    (hne : ∀ d ∈ v.kernelPageDirectory :: dirs, ∀ i t, tableOf m d i = some t → t ≠ 0)
    (hsharing : Sharing (tableOf m) v.kernelPageDirectory dirs) : (v.setMem m).Inv dirs xs where
  pmm := h.pmm.congr_mem hpmm
  dir d hd := ⟨(h.dir d hd).1, (h.dir d hd).2.congr⟩
  kernel := h.kernel
  table d hd i t ht := ⟨(htable d hd i t ht).1.congr, (htable d hd i t ht).2⟩
  table_ne := hne
  sharing := hsharing

/-- A store that also leaves the tables of every directory. -/
theorem Inv.congr_tables (h : v.Inv dirs xs)
    (hpmm : ∀ c, addrToIndex c ∈ xs ∨ v.pmm.BitmapPage (addrToIndex c) → m c = v.mem c)
    (hm : ∀ d ∈ v.kernelPageDirectory :: dirs, ∀ i, tableOf m d i = tableOf v.mem d i) :
    (v.setMem m).Inv dirs xs := by
  refine h.setMem hpmm (fun d hd i t ht => ?_) (fun d hd i t ht => ?_) (h.sharing.congr hm) <;>
    rw [hm d hd] at ht
  · exact h.table d hd i t ht
  · exact h.table_ne d hd i t ht

/-- Writing a PTE. -/
theorem Inv.storePte (h : v.Inv dirs xs) (ht : v.pmm.InUse xs t)
    (hdir : t ∉ v.kernelPageDirectory :: dirs) (hi : i.toNat < 1024) (e : UInt32) :
    (v.setMem (storeEntry v.mem t i e)).Inv dirs xs := by
  refine h.congr_tables (fun c hc => ht.storeEntry_apply hi hc) fun d hd j => ?_
  exact tableOf_congr fun hj => entryAt_storeEntry_of_ne ht.aligned (h.dir d hd).2.aligned hi hj
    fun heq => hdir (heq ▸ hd)

/-- Adding `PAGE_USER` to a PDE changes no table. -/
theorem Inv.tableOf_setUser (h : v.Inv dirs xs) (hd : dir ∈ v.kernelPageDirectory :: dirs)
    (hi : i.toNat < 1024) :
    ∀ d ∈ v.kernelPageDirectory :: dirs, ∀ j,
      tableOf (storeEntry v.mem dir i (entryAt v.mem dir i ||| pageUser)) d j =
        tableOf v.mem d j := by
  intro d hd' j
  by_cases hj : j.toNat < 1024
  · simp only [tableOf]
    rw [entryAt_storeEntry (h.dir dir hd).2.aligned (h.dir d hd').2.aligned hi hj]
    split
    · next e =>
      obtain ⟨rfl, rfl⟩ := e
      rw [isPresent_or_user, frameOf_or_user]
    · rfl
  · exact tableOf_congr fun h => absurd h hj

theorem Inv.setUser (h : v.Inv dirs xs) (hd : dir ∈ v.kernelPageDirectory :: dirs)
    (hi : i.toNat < 1024) :
    (v.setMem (storeEntry v.mem dir i (entryAt v.mem dir i ||| pageUser))).Inv dirs xs :=
  h.congr_tables (fun _ hc => (h.dir dir hd).2.storeEntry_apply hi hc) (h.tableOf_setUser hd hi)

/-- A page that no directory points to. -/
structure Fresh (v : Vmm) (dirs xs : List UInt32) (t : UInt32) : Prop where
  ne_zero : t ≠ 0
  inUse : v.pmm.InUse xs t
  notDir : t ∉ v.kernelPageDirectory :: dirs
  notTable : ∀ d ∈ v.kernelPageDirectory :: dirs, ∀ i, tableOf v.mem d i ≠ some t

theorem Inv.tableOf_install (h : v.Inv dirs xs) (hd : dir ∈ v.kernelPageDirectory :: dirs)
    (hi : i.toNat < 1024) (ht : v.pmm.InUse xs t) (flags : UInt32) :
    ∀ d ∈ v.kernelPageDirectory :: dirs, ∀ j,
      tableOf (storeEntry v.mem dir i (mkEntry t flags)) d j =
        if d = dir ∧ j = i then some t else tableOf v.mem d j := by
  intro d hd' j
  by_cases hj : j.toNat < 1024
  · simp only [tableOf]
    rw [entryAt_storeEntry (h.dir dir hd).2.aligned (h.dir d hd').2.aligned hi hj]
    split
    · next e =>
      rw [isPresent_mkEntry, frameOf_mkEntry, frameOf_eq_self ht.aligned, if_pos ⟨hj, rfl⟩]
    · rfl
  · rw [if_neg (by rintro ⟨-, rfl⟩; exact hj hi)]
    exact tableOf_congr fun h => absurd h hj

/-- Installing a fresh table in an empty slot. -/
theorem Inv.install (h : v.Inv dirs xs) (hd : dir ∈ v.kernelPageDirectory :: dirs)
    (hi : i.toNat < 1024) (hempty : tableOf v.mem dir i = none) (ht : v.Fresh dirs xs t)
    (flags : UInt32) : (v.setMem (storeEntry v.mem dir i (mkEntry t flags))).Inv dirs xs := by
  have hT := h.tableOf_install hd hi ht.inUse flags
  refine h.setMem (fun c hc => (h.dir dir hd).2.storeEntry_apply hi hc)
    (fun d hd' j u hu => ?_) (fun d hd' j u hu => ?_) (h.sharing.install hempty ht.notTable hT) <;>
    rw [hT d hd'] at hu <;> split at hu
  · cases hu
    exact ⟨ht.inUse, ht.notDir⟩
  · exact h.table d hd' j u hu
  · cases hu
    exact ht.ne_zero
  · exact h.table_ne d hd' j u hu

/-! ## Allocation -/

/-- The kernel's directory and the allocator's layout are those of `v`. -/
def SameBoot (v w : Vmm) : Prop :=
  w.kernelPageDirectory = v.kernelPageDirectory ∧ v.pmm.SameMachine w.pmm

theorem SameBoot.refl (v : Vmm) : v.SameBoot v := ⟨rfl, .refl _⟩

theorem SameBoot.trans {u w : Vmm} (h1 : u.SameBoot v) (h2 : v.SameBoot w) : u.SameBoot w :=
  ⟨h2.1.trans h1.1, h1.2.trans h2.2⟩

theorem sameBoot_setMem (v : Vmm) (m : Mem) : v.SameBoot (v.setMem m) := ⟨rfl, ⟨⟨rfl, rfl⟩, rfl⟩⟩

/-- From `v` with the free pages `xs` to `v'` with `ys`: the pages in use stay, with their
entries. -/
structure Keeps (v : Vmm) (xs : List UInt32) (v' : Vmm) (ys : List UInt32) : Prop where
  boot : v.SameBoot v'
  inUse : ∀ a, v.pmm.InUse xs a → v'.pmm.InUse ys a
  entry : ∀ a, v.pmm.InUse xs a → ∀ i, i.toNat < 1024 → entryAt v'.mem a i = entryAt v.mem a i

theorem Keeps.refl (v : Vmm) (xs : List UInt32) : v.Keeps xs v xs :=
  ⟨.refl v, fun _ h => h, fun _ _ _ _ => rfl⟩

theorem Keeps.tableOf {v' : Vmm} {ys : List UInt32} (h : v.Keeps xs v' ys)
    (ha : v.pmm.InUse xs dir) : tableOf v'.mem dir i = tableOf v.mem dir i :=
  tableOf_congr (h.entry dir ha i)

/-- Taking a page from the allocator keeps the paging parts. -/
theorem Inv.takePage {s : Pmm} {ys : List UInt32} (h : v.Inv dirs xs) (hs : s.Inv ys)
    (hl : v.pmm.SameMachine s) (hsub : ∀ i ∈ ys, i ∈ xs)
    (hmem : ∀ c, ¬ v.pmm.BitmapPage (addrToIndex c) → s.mem c = v.mem c) :
    Inv { v with pmm := s } dirs ys ∧ v.Keeps xs { v with pmm := s } ys := by
  have huse : ∀ a, v.pmm.InUse xs a → s.InUse ys a := fun a ha =>
    ⟨ha.aligned, fun hm => ha.notFree (hsub _ hm), fun hb =>
      ha.notBitmap (hb.congr hl.1.1 hl.1.2)⟩
  have hkeep : v.Keeps xs { v with pmm := s } ys :=
    ⟨⟨rfl, hl⟩, huse, fun a ha i hi => entryAt_congr ha.aligned hi fun c hc =>
      hmem c (by rw [hc]; exact ha.notBitmap)⟩
  have htab : ∀ d ∈ v.kernelPageDirectory :: dirs, ∀ i, tableOf s.mem d i = tableOf v.mem d i :=
    fun d hd i => hkeep.tableOf (h.dir d hd).2
  refine ⟨⟨hs, fun d hd => ⟨(h.dir d hd).1, huse d (h.dir d hd).2⟩, h.kernel,
    fun d hd i t ht => ?_, fun d hd i t ht => ?_, h.sharing.congr htab⟩, hkeep⟩
  all_goals have ht' : tableOf v.mem d i = some t := (htab d hd i).symm.trans ht
  · exact ⟨huse t (h.table d hd i t ht').1, (h.table d hd i t ht').2⟩
  · exact h.table_ne d hd i t ht'

/-- Writing a page that nothing points to. -/
theorem Inv.writeFresh (h : v.Inv dirs xs) (ht : v.Fresh dirs xs t)
    (hm : ∀ c, addrToIndex c ≠ addrToIndex t → m c = v.mem c) :
    (v.setMem m).Inv dirs xs ∧ (v.setMem m).Fresh dirs xs t ∧
      ∀ a, a ≠ t → a.toNat % 4096 = 0 → ∀ i, i.toNat < 1024 →
        entryAt m a i = entryAt v.mem a i := by
  have hentry : ∀ a, a ≠ t → a.toNat % 4096 = 0 → ∀ i, i.toNat < 1024 →
      entryAt m a i = entryAt v.mem a i := fun a hne ha i hi =>
    entryAt_congr ha hi fun c hc => hm c (by rw [hc]; exact page_ne ht.inUse.aligned ha hne)
  have htab : ∀ d ∈ v.kernelPageDirectory :: dirs, ∀ i, tableOf m d i = tableOf v.mem d i :=
    fun d hd i => tableOf_congr fun hi =>
      hentry d (fun e => ht.notDir (e ▸ hd)) (h.dir d hd).2.aligned i hi
  refine ⟨h.congr_tables (fun c hc => hm c fun heq => ?_) htab,
    ⟨ht.ne_zero, ht.inUse.congr, ht.notDir, fun d hd i => ?_⟩, hentry⟩
  · rw [heq] at hc
    exact hc.elim ht.inUse.notFree ht.inUse.notBitmap
  · rw [setMem_mem, htab d hd]
    exact ht.notTable d hd i

/-- `allocate_pt` takes the first free page and clears it; page 0 counts as `NULL`. -/
theorem Inv.allocatePt (h : v.Inv dirs xs) :
    ∃ pt w, v.allocatePt = (pt, w) ∧ pt = indexToAddr (xs.headD 0) ∧ w.Inv dirs xs.tail ∧
      v.Keeps xs w xs.tail ∧
      (pt ≠ 0 → w.Fresh dirs xs.tail pt ∧ (∀ a, v.pmm.InUse xs a → a ≠ pt) ∧
        ∀ i, i.toNat < 1024 → entryAt w.mem pt i = 0) := by
  cases xs with
  | nil =>
    refine ⟨0, v, ?_, rfl, h, .refl v [], fun hne => absurd rfl hne⟩
    simp only [Vmm.allocatePt, h.pmm.pmmAllocPage_nil, ↓reduceIte]
  | cons x xs =>
    obtain ⟨haddr, hs⟩ := h.pmm.pmmAllocPage
    have hlay := Pmm.sameMachine_pmmAllocPage v.pmm
    obtain ⟨hinv, hkeep⟩ := h.takePage hs hlay
      (fun i hi => List.mem_cons_of_mem x hi) fun c hc => h.pmm.pmmAllocPage_mem hc
    have hx : x ∈ x :: xs := List.mem_cons_self
    have hx20 := h.pmm.fits.lt (h.pmm.lt hx)
    have hpage : addrToIndex (indexToAddr x) = x := addrToIndex_indexToAddr hx20
    -- the page was free, so it is none of the pages in use
    have hfree : ∀ a, v.pmm.InUse (x :: xs) a → a ≠ indexToAddr x := by
      rintro a ha rfl
      exact ha.notFree (by rw [hpage]; exact hx)
    by_cases hz : indexToAddr x = 0
    · refine ⟨0, { v with pmm := v.pmm.pmmAllocPage.2 }, ?_, hz.symm, hinv, hkeep,
        fun hne => absurd rfl hne⟩
      simp only [Vmm.allocatePt, haddr, hz, ↓reduceIte]
    have hfresh : Fresh { v with pmm := v.pmm.pmmAllocPage.2 } dirs xs (indexToAddr x) := by
      refine ⟨hz, ⟨?_, ?_, ?_⟩, fun hm => hfree _ (h.dir _ hm).2 rfl, fun d hd i ht => ?_⟩
      · rw [indexToAddr_toNat hx20]; omega
      · rw [hpage]; exact (List.nodup_cons.1 h.pmm.nodup).1
      · rw [hpage]; exact fun hb => h.pmm.not_bitmapPage hx (hb.congr hlay.1.1 hlay.1.2)
      · rw [hkeep.tableOf (h.dir d hd).2] at ht
        exact hfree _ (h.table d hd i _ ht).1 rfl
    obtain ⟨hinv', hfresh', hother⟩ := hinv.writeFresh hfresh
      fun c hc => zeroMemory_apply_other hfresh.inUse.aligned hc
    refine ⟨indexToAddr x, Vmm.setMem { v with pmm := v.pmm.pmmAllocPage.2 }
      (zeroMemory v.pmm.pmmAllocPage.2.mem (indexToAddr x) 4096), ?_, rfl, hinv',
      ⟨⟨rfl, hlay⟩, fun a ha => (hkeep.inUse a ha).congr, fun a ha i hi => ?_⟩,
      fun _ => ⟨hfresh', hfree, fun i hi => entryAt_zeroMemory hfresh.inUse.aligned hi⟩⟩
    · simp only [Vmm.allocatePt, haddr, hz, ↓reduceIte]
      rfl
    · exact (hother a (hfree a ha) ha.aligned i hi).trans (hkeep.entry a ha i hi)

end Vmm

end HaoSys.Mm
