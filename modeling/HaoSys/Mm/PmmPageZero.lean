import HaoSys.Mm.PmmRun

/-!
# Page 0 and `NULL`

The address of page 0 is `NULL`, so a free page 0 makes `pmm_alloc_page` answer "no memory"
while it takes a page. Only the memory map can put page 0 on the free list: the last entry that
covers it decides (`bootEntries`, `lastCovering`), the regions marked and reserved besides the
map lie above it, and no released page is page 0.
-/

namespace HaoSys.Mm

open HaoSys.Lib

/-- The fields of a memory-map entry that `pmm_init` reads. -/
structure MmapEntry where
  base : Nat
  length : Nat
  type : UInt32
deriving DecidableEq

/-- The region marked for the entry begins in page 0; `mark_region` takes the low word of the
length. -/
def MmapEntry.CoversPageZero (e : MmapEntry) : Prop := e.base < 4096 ∧ UInt32.ofNat e.length ≠ 0

instance (e : MmapEntry) : Decidable e.CoversPageZero :=
  inferInstanceAs (Decidable (e.base < 4096 ∧ UInt32.ofNat e.length ≠ 0))

/-- The last entry of the map that covers page 0. -/
def lastCovering (es : List MmapEntry) : Option MmapEntry :=
  (es.filter fun e => e.CoversPageZero).getLast?

/-- The memory map says that page 0 is available. -/
def PageZeroAvailable (es : List MmapEntry) : Prop := ∃ e, lastCovering es = some e ∧ e.type = 1

namespace Pmm

variable {s t : Pmm} {xs : List UInt32} {i j : UInt32}

/-- The entry at `p`. -/
def mmapEntry (m : Mem) (p : UInt32) : MmapEntry :=
  ⟨load64 m (p + 4), load64 m (p + 20), load32 m (p + 36)⟩

/-- The entries the MMAP walk reads. -/
def mmapEntries (limit : UInt32) : Nat → UInt32 → Pmm → List MmapEntry
  | 0, _, _ => []
  | fuel + 1, p, s =>
    if p < limit then
      let t := s.markMmapEntry p
      mmapEntry s.mem p :: mmapEntries limit fuel (p + load32 t.mem p + 4) t
    else []

/-- The entries `pmm_init` reads: none from a Multiboot2 loader or without bit 6 of `flags`. -/
def bootEntries (fuel : Nat) (endAddr magic infoAddr : UInt32) (m : Mem) : List MmapEntry :=
  match memInfo fuel m magic infoAddr with
  | none => []
  | some (memLower, memUpper) =>
    let s := cleared m endAddr memLower memUpper
    let s := s.markRegion 0x100000 (s.totalMemory - 0x100000) true
    if magic ≠ multiboot2Magic ∧ load32 s.mem infoAddr &&& 0x40 ≠ 0 then
      let mmapAddr := load32 s.mem (infoAddr + 48)
      mmapEntries (mmapAddr + load32 s.mem (infoAddr + 44)) fuel mmapAddr s
    else []

/-! ## The bit of page 0 -/

/-- Clearing the bytes of the bitmap clears every bit. -/
theorem clearBitmap_bit (h : s.totalPages.toNat < 2 ^ 20) (hj : j < s.totalPages) :
    (forUp 0 s.bitmapSize.toNat (fun i t =>
      { t with mem := store8 t.mem (t.bitmap + UInt32.ofNat i) 0 }) s).getPageBit j = false := by
  have hsize : s.bitmapSize.toNat = (s.totalPages.toNat + 7) / 8 := by
    simp only [bitmapSize, UInt32.toNat_div, UInt32.toNat_add, UInt32.reduceToNat]
    omega
  have hjn := UInt32.lt_iff_toNat_lt.1 hj
  -- the invariant at counter `i`: the first `i` bytes are 0
  let P (i : Nat) (t : Pmm) : Prop :=
    t.bitmap = s.bitmap ∧ ∀ k, k < i → t.mem (s.bitmap + UInt32.ofNat k) = 0
  have hturn : ∀ (i : Nat) (t : Pmm), 0 ≤ i → i < s.bitmapSize.toNat → P i t →
      P (i + 1) { t with mem := store8 t.mem (t.bitmap + UInt32.ofNat i) 0 } := by
    rintro i t - - ⟨hb, hz⟩
    refine ⟨hb, fun k hk => ?_⟩
    change store8 t.mem (t.bitmap + UInt32.ofNat i) 0 (s.bitmap + UInt32.ofNat k) = 0
    rw [store8_apply, hb]
    split
    · rfl
    · next hne =>
      refine hz k (Nat.lt_of_le_of_ne (Nat.le_of_lt_succ hk) ?_)
      rintro rfl
      exact hne rfl
  have h0 : P 0 s := ⟨rfl, fun k hk => absurd hk (Nat.not_lt_zero k)⟩
  obtain ⟨hb, hzero⟩ := forUp_inv P (Nat.zero_le _) h0 hturn
  have hlt : (j / 8).toNat < s.bitmapSize.toNat := by
    rw [hsize, UInt32.toNat_div, show (8 : UInt32).toNat = 8 from rfl]
    omega
  have hbyte := hzero _ hlt
  rw [UInt32.ofNat_toNat] at hbyte
  rw [getPageBit, hb, hbyte, UInt8.zero_shiftRight, UInt8.zero_and]
  rfl

theorem cleared_bit (m : Mem) {endAddr memLower memUpper : UInt32}
    (hj : j < (cleared m endAddr memLower memUpper).totalPages) :
    (cleared m endAddr memLower memUpper).getPageBit j = false := by
  obtain ⟨-, hpages⟩ := cleared_layout m endAddr memLower memUpper
  have htotal : (cleared m endAddr memLower memUpper).totalPages =
      (if memLower + memUpper = 0 then 16 * 1024 else memLower + memUpper) * 1024 / 4096 := by
    unfold cleared
    exact forUp_keep (fun t : Pmm => t.totalPages = _) rfl fun _ _ _ _ h => h
  rw [htotal] at hj hpages
  exact clearBitmap_bit hpages hj

/-- An entry of the map sets or clears the bit of page 0 when it covers it. -/
theorem markMmapEntry_zero (h : s.Fits) (h0 : 0 < s.totalPages) (p : UInt32) :
    (s.markMmapEntry p).getPageBit 0 =
      if (mmapEntry s.mem p).CoversPageZero then (mmapEntry s.mem p).type == 1
      else s.getPageBit 0 := by
  have hcov : (mmapEntry s.mem p).CoversPageZero ↔
      load64 s.mem (p + 4) < 4096 ∧ UInt32.ofNat (load64 s.mem (p + 20)) ≠ 0 := Iff.rfl
  unfold markMmapEntry
  simp only
  split
  · next hc =>
    have hbase : (UInt32.ofNat (load64 s.mem (p + 4))).toNat = load64 s.mem (p + 4) :=
      UInt32.toNat_ofNat_of_lt' (Nat.lt_trans hc.1 (by decide))
    rw [markRegion_spec h _ h0]
    refine if_congr ?_ rfl rfl
    rw [hcov, UInt32.le_iff_toNat_le, addrToIndex_toNat, hbase, UInt32.toNat_zero]
    constructor
    · rintro ⟨h1, h2, -⟩
      exact ⟨by omega, h1⟩
    · rintro ⟨h1, h2⟩
      exact ⟨h2, by omega, UInt32.le_iff_toNat_le.2 (Nat.zero_le _)⟩
  · next hc =>
    rw [if_neg]
    rw [hcov]
    rintro ⟨h1, h2⟩
    refine hc ⟨Nat.lt_trans h1 (by decide), Nat.pos_of_ne_zero fun hz => h2 ?_⟩
    rw [hz]
    rfl

theorem lastCovering_cons (e : MmapEntry) (es : List MmapEntry) :
    lastCovering (e :: es) =
      if e.CoversPageZero then some ((lastCovering es).getD e) else lastCovering es := by
  simp only [lastCovering, List.filter_cons, decide_eq_true_eq]
  split
  · rw [List.getLast?_cons]
  · rfl

/-- The walk leaves page 0 as the last covering entry says. -/
theorem markMmap_zero {limit : UInt32} :
    ∀ {fuel : Nat} {p : UInt32} {s t : Pmm}, s.Fits → 0 < s.totalPages →
      markMmap limit fuel p s = some t →
      t.getPageBit 0 = ((lastCovering (mmapEntries limit fuel p s)).map
        fun e => e.type == 1).getD (s.getPageBit 0)
  | fuel + 1, p, s, t, hfit, h0, h => by
    rw [markMmap] at h
    rw [mmapEntries]
    split at h
    · next hp =>
      have hl : s.SameLayout (s.markMmapEntry p) := by
        unfold markMmapEntry
        simp only
        split
        · exact sameLayout_markRegion ..
        · exact .refl s
      rw [if_pos hp, lastCovering_cons,
        markMmap_zero (hfit.of_sameLayout hl) (by rwa [hl.2]) h, markMmapEntry_zero hfit h0]
      cases lastCovering (mmapEntries limit fuel (p + load32 (s.markMmapEntry p).mem p + 4)
          (s.markMmapEntry p)) with
      | none => split <;> rfl
      | some e => split <;> rfl
    · next hp =>
      rw [if_neg hp]
      cases h
      rfl

/-- **Page 0 after `pmm_init`** is free exactly when the memory map says it is available. -/
theorem pmmInit_page_zero {fuel : Nat} {endAddr magic infoAddr : UInt32} {m : Mem}
    (hlo : 0x100000 ≤ endAddr.toNat) (hend : endAddr.toNat + 2 ^ 17 ≤ 2 ^ 32)
    (h : pmmInit fuel endAddr magic infoAddr m = some s) :
    ∃ xs, s.Inv xs ∧ (0 ∈ xs ↔ PageZeroAvailable (bootEntries fuel endAddr magic infoAddr m)) := by
  simp only [pmmInit, Option.bind_eq_bind, Option.bind_eq_some_iff] at h
  obtain ⟨⟨memLower, memUpper⟩, hinfo, t, ht, hfin⟩ := h
  rw [bootEntries, hinfo]
  simp only
  generalize hc : cleared m endAddr memLower memUpper = c at ht ⊢
  have hcfit : c.Fits := hc ▸ cleared_fits m hend memLower memUpper
  have hcbit : ∀ j < c.totalPages, c.getPageBit j = false := fun j hj => by
    subst hc
    exact cleared_bit m hj
  have hmark := sameLayout_markRegion c 0x100000 (c.totalMemory - 0x100000) true
  generalize hu : c.markRegion 0x100000 (c.totalMemory - 0x100000) true = u at ht hmark ⊢
  have hlay := hmark.trans (sameLayout_markRegions ht)
  obtain ⟨-, xs, hinv, hne, hmem⟩ := finishInit_inv (hcfit.of_sameLayout hlay) hfin
  refine ⟨xs, hinv, ?_⟩
  -- some page is free, so there is a page 0
  have h0 : 0 < t.totalPages := by
    obtain ⟨x, hx⟩ := List.exists_mem_of_ne_nil xs hne
    have := UInt32.lt_iff_toNat_lt.1 ((hmem x).1 hx).1
    exact UInt32.lt_iff_toNat_lt.2 (Nat.zero_lt_of_lt this)
  have h0u : 0 < u.totalPages := by
    rw [← (sameLayout_markRegions ht).2]
    exact h0
  -- the region from 1 MB on lies above page 0
  have hubit : u.getPageBit 0 = false := by
    have h0c : 0 < c.totalPages := by rwa [hmark.2] at h0u
    rw [← hu, markRegion_spec hcfit true h0c, if_neg, hcbit 0 h0c]
    rintro ⟨-, hle, -⟩
    exact absurd hle (by decide)
  have hres1 : ¬ (addrToIndex 0x100000 ≤ 0 ∧ 0 ≤ addrToIndex (endAddr - 1)) := fun hle =>
    absurd hle.1 (by decide)
  have hres2 : ¬ (addrToIndex t.bitmap ≤ 0 ∧ 0 ≤ addrToIndex (t.bitmap + t.bitmapSize - 1)) := by
    rintro ⟨hle, -⟩
    have hle := UInt32.le_iff_toNat_le.1 hle
    rw [addrToIndex_toNat, hlay.1, ← hc, (cleared_layout ..).1, UInt32.toNat_zero] at hle
    omega
  rw [hmem, PageZeroAvailable]
  simp only [h0, hres1, hres2, not_false_eq_true, and_true, true_and]
  simp only [markRegions] at ht
  split at ht
  · next hflag =>
    rw [if_pos hflag, markMmap_zero (hcfit.of_sameLayout hmark) h0u ht, hubit]
    cases lastCovering (mmapEntries _ fuel _ u) with
    | none => simp
    | some e => simp
  · next hflag =>
    cases ht
    rw [if_neg hflag, hubit]
    simp [lastCovering]

/-! ## Booting without a memory map -/

theorem cleared_total (m : Mem) (endAddr : UInt32) {memLower memUpper : UInt32}
    (h : memLower + memUpper ≠ 0) :
    (cleared m endAddr memLower memUpper).totalMemory = (memLower + memUpper) * 1024 ∧
      (cleared m endAddr memLower memUpper).totalPages = (memLower + memUpper) * 1024 / 4096 := by
  unfold cleared
  rw [if_neg h]
  exact forUp_keep (fun t : Pmm => t.totalMemory = _ ∧ t.totalPages = _) ⟨rfl, rfl⟩
    fun _ _ _ _ h => h

theorem forPages_totalMemory {a b : UInt32} (body : UInt32 → Pmm → Pmm)
    (hbody : ∀ i t, (body i t).totalMemory = t.totalMemory) (s : Pmm) :
    (s.forPages a b body).totalMemory = s.totalMemory :=
  forUp_keep (fun t : Pmm => t.totalMemory = s.totalMemory) rfl
    fun _ _ _ _ h => (hbody ..).trans h

theorem markRegion_totalMemory (s : Pmm) (start length : UInt32) (b : Bool) :
    (s.markRegion start length b).totalMemory = s.totalMemory := by
  unfold markRegion
  split
  · rfl
  · exact forPages_totalMemory (fun i t => t.setPageBit i b) (fun _ _ => rfl) s

theorem finishInit_totalMemory {endAddr : UInt32} (h : s.finishInit endAddr = some t) :
    t.totalMemory = s.totalMemory := by
  have hreserve : ∀ (u : Pmm) a b, (u.reservePages a b).totalMemory = u.totalMemory := fun u a b =>
    forPages_totalMemory _ (fun i t => by split <;> rfl) u
  simp only [finishInit] at h
  split at h
  · cases h
  · cases h
    unfold buildFreeList
    refine forUp_keep (fun t : Pmm => t.totalMemory = s.totalMemory) ?_ fun _ t _ _ ht => ?_
    · exact (hreserve ..).trans (hreserve ..)
    · split <;> exact ht

/-- A marked page outside the image and the bitmap is enough for `pmm_init` to end well. -/
theorem finishInit_isSome {endAddr : UInt32} (h : s.Fits) (hi : i < s.totalPages)
    (hbit : s.getPageBit i = true)
    (himg : ¬ (addrToIndex 0x100000 ≤ i ∧ i ≤ addrToIndex (endAddr - 1)))
    (hmap : ¬ (addrToIndex s.bitmap ≤ i ∧ i ≤ addrToIndex (s.bitmap + s.bitmapSize - 1))) :
    ∃ t, s.finishInit endAddr = some t := by
  simp only [finishInit]
  set u : Pmm := { s with freePages := s.countFree }
  have hufit : u.Fits := h.congr rfl rfl
  obtain ⟨hl1, hc1, hbits1⟩ := reservePages_spec (a := addrToIndex 0x100000)
    (b := addrToIndex (endAddr - 1)) hufit (countFree_toNat h)
  set v := u.reservePages (addrToIndex 0x100000) (addrToIndex (endAddr - 1))
  obtain ⟨hl2, hc2, hbits2⟩ := reservePages_spec (a := addrToIndex v.bitmap)
    (b := addrToIndex (v.bitmap + v.bitmapSize - 1)) (hufit.of_sameLayout hl1) hc1
  set w := v.reservePages (addrToIndex v.bitmap) (addrToIndex (v.bitmap + v.bitmapSize - 1))
  have hbitmap : v.bitmap = s.bitmap := hl1.1
  have htotal : v.totalPages = s.totalPages := hl1.2
  have hfree : w.getPageBit i = true := by
    rw [hbits2 i (by rwa [htotal]), hbits1 i hi, bitmapSize, hbitmap, htotal, ← bitmapSize]
    exact masked_eq_true.2 ⟨hbit, himg, hmap⟩
  have hmem : i.toNat ∈ w.freeSet := by
    simp only [freeSet, freeBelow, Finset.mem_filter, Finset.mem_range, UInt32.ofNat_toNat]
    rw [hl2.2, htotal]
    exact ⟨UInt32.lt_iff_toNat_lt.1 hi, hfree⟩
  have hne : w.freePages ≠ 0 := fun e => by
    have hcard := hc2
    rw [Counted, e] at hcard
    exact Finset.notMem_empty _ (Finset.card_eq_zero.1 hcard.symm ▸ hmem)
  exact ⟨_, if_neg hne⟩

/-- The free pages of a machine without a memory map: those from 1 MB on, less the image's and the
bitmap's. -/
def PlainPage (endAddr total i : UInt32) : Prop :=
  i < total / 4096 ∧ addrToIndex 0x100000 ≤ i ∧ i ≤ addrToIndex (total - 1) ∧
    ¬ (addrToIndex 0x100000 ≤ i ∧ i ≤ addrToIndex (endAddr - 1)) ∧
    ¬ (addrToIndex endAddr ≤ i ∧ i ≤ addrToIndex (endAddr + (total / 4096 + 7) / 8 - 1))

instance (endAddr total i : UInt32) : Decidable (PlainPage endAddr total i) :=
  inferInstanceAs (Decidable (_ ∧ _ ∧ _ ∧ ¬ _ ∧ ¬ _))

/-- **A Multiboot2 loader gives no memory map**, so `pmm_init` frees the plain pages. -/
theorem pmmInit_multiboot2 {fuel : Nat} {endAddr infoAddr memLower memUpper : UInt32} {m : Mem}
    (hend : endAddr.toNat + 2 ^ 17 ≤ 2 ^ 32)
    (hinfo : memInfo fuel m multiboot2Magic infoAddr = some (memLower, memUpper))
    (hpos : (memLower + memUpper) * 1024 ≠ 0x100000)
    (hsome : ∃ i, PlainPage endAddr ((memLower + memUpper) * 1024) i) :
    ∃ s xs, pmmInit fuel endAddr multiboot2Magic infoAddr m = some s ∧
      s.totalMemory = (memLower + memUpper) * 1024 ∧ s.Inv xs ∧
      ∀ i, i ∈ xs ↔ PlainPage endAddr ((memLower + memUpper) * 1024) i := by
  obtain ⟨i, hi⟩ := hsome
  have hne : memLower + memUpper ≠ 0 := fun e => by
    have h0 := hi.1
    rw [e] at h0
    exact absurd h0 (UInt32.not_lt.2 (UInt32.le_iff_toNat_le.2 (Nat.zero_le _)))
  obtain ⟨hmem, htotal⟩ := cleared_total m endAddr hne
  obtain ⟨hbitmap, -⟩ := cleared_layout m endAddr memLower memUpper
  have hfit := cleared_fits m hend memLower memUpper
  have hzero : ∀ j, j < (cleared m endAddr memLower memUpper).totalPages →
      (cleared m endAddr memLower memUpper).getPageBit j = false := fun j hj => cleared_bit m hj
  unfold pmmInit
  rw [hinfo]
  simp only [Option.bind_eq_bind, Option.bind_some]
  generalize cleared m endAddr memLower memUpper = c at *
  generalize (memLower + memUpper) * 1024 = total at *
  have hmark := sameLayout_markRegion c 0x100000 (c.totalMemory - 0x100000) true
  have hutotal := markRegion_totalMemory c 0x100000 (c.totalMemory - 0x100000) true
  have hubit : ∀ j, j < total / 4096 →
      ((c.markRegion 0x100000 (c.totalMemory - 0x100000) true).getPageBit j = true ↔
        addrToIndex 0x100000 ≤ j ∧ j ≤ addrToIndex (total - 1)) := fun j hj => by
    rw [← htotal] at hj
    rw [markRegion_spec hfit true hj, hmem, hzero j hj, add_sub_cancel]
    simp [sub_ne_zero.2 hpos]
  have hufit := hfit.of_sameLayout hmark
  generalize c.markRegion 0x100000 (c.totalMemory - 0x100000) true = u at *
  have hub : u.bitmap = endAddr := hmark.1.trans hbitmap
  have hut : u.totalPages = total / 4096 := hmark.2.trans htotal
  have hus : u.bitmapSize = (total / 4096 + 7) / 8 := by rw [bitmapSize, hut]
  have hregions : markRegions fuel multiboot2Magic infoAddr u = some u := by
    simp [markRegions]
  rw [hregions]
  obtain ⟨h1, h2, h3, h4, h5⟩ := hi
  obtain ⟨s, hs⟩ : ∃ s, u.finishInit endAddr = some s :=
    finishInit_isSome hufit (hut ▸ h1) ((hubit i h1).2 ⟨h2, h3⟩) h4 (by rwa [hub, hus])
  obtain ⟨-, xs, hinv, -, hxs⟩ := finishInit_inv hufit hs
  refine ⟨s, xs, hs, ?_, hinv, fun j => ?_⟩
  · rw [finishInit_totalMemory hs, hutotal, hmem]
  · rw [hxs j, hut, hub, hus, PlainPage]
    refine and_congr_right fun hj => ?_
    rw [hubit j hj, and_assoc]

/-! ## Runs -/

/-- A run from `s`: allocations, releases of addresses returned before, and stores to pages that
were returned and are not free. `R` holds of the addresses returned, `NULL` apart. -/
inductive Served (s : Pmm) : Pmm → (UInt32 → Prop) → Prop where
  | start : Served s s fun _ => False
  | alloc {t : Pmm} {R : UInt32 → Prop} : Served s t R →
    Served s t.pmmAllocPage.2 fun a => R a ∨ (a = t.pmmAllocPage.1 ∧ a ≠ 0)
  | free {t : Pmm} {R : UInt32 → Prop} {a : UInt32} : Served s t R → R a →
    Served s (t.pmmFreePage a) R
  | write {t : Pmm} {R : UInt32 → Prop} {c : UInt32} (b : UInt8) : Served s t R →
    R (indexToAddr (addrToIndex c)) → t.getPageBit (addrToIndex c) = false →
    Served s { t with mem := store8 t.mem c b } R

/-- `NULL` is returned only when no page is free, and then nothing changes. -/
def NullLaw (s : Pmm) : Prop :=
  s.pmmAllocPage.1 = 0 → s.freePages = 0 ∧ s.pmmAllocPage.2 = s

theorem sameLayout_pmmAllocPage (s : Pmm) : s.SameLayout s.pmmAllocPage.2 := by
  unfold pmmAllocPage
  split <;> exact ⟨rfl, rfl⟩

theorem sameLayout_pmmFreePage (s : Pmm) (a : UInt32) : s.SameLayout (s.pmmFreePage a) := by
  unfold pmmFreePage
  simp only
  split
  · exact ⟨rfl, rfl⟩
  · split <;> exact ⟨rfl, rfl⟩

/-- With page 0 off the list the law holds. -/
theorem Inv.nullLaw (h : s.Inv xs) (h0 : 0 ∉ xs) : s.NullLaw := by
  intro hnull
  cases xs with
  | nil =>
    refine ⟨UInt32.toNat_inj.1 h.count, ?_⟩
    rw [h.pmmAllocPage_nil]
  | cons x xs =>
    rw [h.pmmAllocPage.1, h.indexToAddr_eq_zero List.mem_cons_self] at hnull
    exact absurd (hnull ▸ List.mem_cons_self) h0

/-- With page 0 at the head of the list it fails: a free page is lost. -/
theorem Inv.not_nullLaw (h : s.Inv (0 :: xs)) : ¬ s.NullLaw := fun hlaw => by
  have hz := (hlaw (by rw [h.pmmAllocPage.1]; rfl)).1
  have hcount := h.count
  rw [hz, List.length_cons, UInt32.toNat_zero] at hcount
  omega

/-- What a run keeps: page 0 off the list, and the returned addresses those of other pages. -/
structure Served.Clean (s : Pmm) (R : UInt32 → Prop) (xs : List UInt32) : Prop where
  inv : s.Inv xs
  zero : 0 ∉ xs
  returned : ∀ a, R a → a ≠ 0 ∧ a.toNat % 4096 = 0 ∧ ¬ s.BitmapPage (addrToIndex a)

theorem Served.clean {R : UInt32 → Prop} (h : s.Inv xs) (h0 : 0 ∉ xs) (hrun : Served s t R) :
    ∃ ys, Served.Clean t R ys := by
  induction hrun with
  | start => exact ⟨xs, h, h0, fun a ha => ha.elim⟩
  | @alloc t R _ ih =>
    obtain ⟨ys, hinv, hz, hret⟩ := ih
    have hlay := sameLayout_pmmAllocPage t
    have hret' : ∀ a, R a → a ≠ 0 ∧ a.toNat % 4096 = 0 ∧
        ¬ t.pmmAllocPage.2.BitmapPage (addrToIndex a) := fun a ha => by
      obtain ⟨h1, h2, h3⟩ := hret a ha
      exact ⟨h1, h2, fun hb => h3 (hb.congr hlay.1 hlay.2)⟩
    cases ys with
    | nil =>
      refine ⟨[], by rw [hinv.pmmAllocPage_nil]; exact hinv, hz, fun a ha => ha.elim (hret' a) ?_⟩
      rintro ⟨rfl, hne⟩
      rw [hinv.pmmAllocPage_nil] at hne
      exact absurd rfl hne
    | cons y ys =>
      obtain ⟨haddr, hinv'⟩ := hinv.pmmAllocPage
      have hy : y ∈ y :: ys := List.mem_cons_self
      have hy20 := hinv.fits.lt (hinv.lt hy)
      refine ⟨ys, hinv', fun hm => hz (List.mem_cons_of_mem _ hm), fun a ha => ha.elim (hret' a) ?_⟩
      rintro ⟨rfl, hne⟩
      refine ⟨hne, by rw [haddr, indexToAddr_toNat hy20]; omega, fun hb => ?_⟩
      rw [haddr, addrToIndex_indexToAddr hy20] at hb
      exact hinv.not_bitmapPage hy (hb.congr hlay.1 hlay.2)
  | @free t R a _ ha ih =>
    obtain ⟨ys, hinv, hz, hret⟩ := ih
    obtain ⟨hne, halign, hnb⟩ := hret a ha
    have hlay := sameLayout_pmmFreePage t a
    have hret' : ∀ a', R a' → a' ≠ 0 ∧ a'.toNat % 4096 = 0 ∧
        ¬ (t.pmmFreePage a).BitmapPage (addrToIndex a') := fun a' ha' => by
      obtain ⟨h1, h2, h3⟩ := hret a' ha'
      exact ⟨h1, h2, fun hb => h3 (hb.congr hlay.1 hlay.2)⟩
    rcases hinv.pmmFreePage halign hnb with ⟨heq, -⟩ | ⟨-, hinv'⟩
    · exact ⟨ys, by rw [heq]; exact hinv, hz, hret'⟩
    · refine ⟨_, hinv', fun hm => ?_, hret'⟩
      rcases List.mem_cons.mp hm with h1 | h1
      · rw [← indexToAddr_addrToIndex halign, ← h1] at hne
        exact hne rfl
      · exact hz h1
  | @write t R c b _ hR hused ih =>
    obtain ⟨ys, hinv, hz, hret⟩ := ih
    have hc20 : (addrToIndex c).toNat < 2 ^ 20 := by
      have := c.toNat_lt
      rw [addrToIndex_toNat]
      omega
    have hnb := (hret _ hR).2.2
    rw [addrToIndex_indexToAddr hc20] at hnb
    refine ⟨ys, hinv.write b (fun hm => ?_) hnb, hz, fun a ha => ?_⟩
    · rw [((hinv.mem_iff _).1 hm).2] at hused
      cases hused
    · obtain ⟨h1, h2, h3⟩ := hret a ha
      exact ⟨h1, h2, fun hb => h3 (hb.congr rfl rfl)⟩

/-- Allocating the first pages of the list brings the next one to its head. -/
theorem Served.drain {ys : List UInt32} :
    ∀ {l : List UInt32} {t : Pmm} {R : UInt32 → Prop}, Served s t R → t.Inv (l ++ ys) →
      ∃ u R', Served s u R' ∧ u.Inv ys
  | [], _, _, hrun, hinv => ⟨_, _, hrun, hinv⟩
  | _ :: l, _, _, hrun, hinv => Served.drain (l := l) hrun.alloc hinv.pmmAllocPage.2

/-- A free page 0 reaches the head of the list in some run. -/
theorem Inv.exists_not_nullLaw (h : s.Inv xs) (h0 : 0 ∈ xs) :
    ∃ t R, Served s t R ∧ ¬ t.NullLaw := by
  obtain ⟨l, r, rfl⟩ := List.append_of_mem h0
  obtain ⟨t, R, hrun, hinv⟩ := Served.drain .start h
  exact ⟨t, R, hrun, hinv.not_nullLaw⟩

/-- **`NULL` means "no page left"** over all runs exactly when the memory map does not say that
page 0 is available. -/
theorem pmm_alloc_null_iff {fuel : Nat} {endAddr magic infoAddr : UInt32} {m : Mem}
    (hlo : 0x100000 ≤ endAddr.toNat) (hend : endAddr.toNat + 2 ^ 17 ≤ 2 ^ 32)
    (h : pmmInit fuel endAddr magic infoAddr m = some s) :
    (∀ t R, Served s t R → t.NullLaw) ↔
      ¬ PageZeroAvailable (bootEntries fuel endAddr magic infoAddr m) := by
  obtain ⟨xs, hinv, hzero⟩ := pmmInit_page_zero hlo hend h
  rw [← hzero]
  constructor
  · intro hlaw h0
    obtain ⟨t, R, hrun, hnot⟩ := hinv.exists_not_nullLaw h0
    exact hnot (hlaw t R hrun)
  · intro h0 t R hrun
    obtain ⟨ys, hys⟩ := hrun.clean hinv h0
    exact hys.inv.nullLaw hys.zero

theorem smallBoot_not_available :
    ¬ PageZeroAvailable (bootEntries 1 0x102000 0x2BADB002 0 smallBootMem) := by
  rintro ⟨e, he, -⟩
  rw [show bootEntries 1 0x102000 0x2BADB002 0 smallBootMem = [] by decide +kernel] at he
  cases he

/-- The small machine has no memory map. -/
theorem pmm_alloc_null_iff_small :
    ¬ PageZeroAvailable (bootEntries 1 0x102000 0x2BADB002 0 smallBootMem) ∧
      ∀ t R, Served smallPmm t R → t.NullLaw :=
  ⟨smallBoot_not_available,
    (pmm_alloc_null_iff (by decide) (by decide) smallPmm_init).2 smallBoot_not_available⟩

/-- The small machine with a memory map at 0x100 of one entry: the page at 0 is available. -/
def mappedBootMem : Mem := fun a =>
  if a = 0 then 0x40 else if a = 44 then 40 else if a = 49 then 1
  else if a = 0x100 then 36 else if a = 0x115 then 0x10 else if a = 0x124 then 1
  else smallBootMem a

@[irreducible] def mappedBoot : Option Pmm :=
  pmmInit 2 0x102000 0x2BADB002 0 mappedBootMem

theorem mappedBoot_isSome : mappedBoot.isSome = true := by decide +kernel

theorem mappedBoot_eq : mappedBoot = pmmInit 2 0x102000 0x2BADB002 0 mappedBootMem := by
  unfold mappedBoot
  with_reducible rfl

theorem mappedBoot_available :
    PageZeroAvailable (bootEntries 2 0x102000 0x2BADB002 0 mappedBootMem) :=
  ⟨⟨0, 0x1000, 1⟩, by decide +kernel, rfl⟩

/-- There, in some run, `pmm_alloc_page` answers `NULL` while a page is free. -/
theorem pmm_alloc_null_with_free_page :
    ∃ s t R, pmmInit 2 0x102000 0x2BADB002 0 mappedBootMem = some s ∧ Served s t R ∧
      ¬ t.NullLaw := by
  have hboot : pmmInit 2 0x102000 0x2BADB002 0 mappedBootMem =
      some (mappedBoot.get mappedBoot_isSome) :=
    mappedBoot_eq.symm.trans (by rw [Option.some_get])
  obtain ⟨xs, hinv, hzero⟩ := pmmInit_page_zero (by decide) (by decide) hboot
  obtain ⟨t, R, hrun, hnot⟩ := hinv.exists_not_nullLaw (hzero.2 mappedBoot_available)
  exact ⟨_, t, R, hboot, hrun, hnot⟩

end Pmm

end HaoSys.Mm
