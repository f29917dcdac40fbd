import HaoSys.Mm.PmmInit

/-!
# Runs of the allocator

`PmmSys` is the allocator together with the pages its clients own: those
handed out by an allocation (a non-`NULL` address) and not released since. A
client stores only to pages it owns. `Reachable` is every state after
`pmm_init` and any sequence of allocations, releases and client stores; the
releases are those at page-aligned addresses that `allowed` admits.
-/

namespace HaoSys.Mm

open HaoSys.Lib

structure PmmSys where
  pmm : Pmm
  owned : UInt32 → Prop

/-- The pages `[a / 4096, a / 4096 + n)` handed out by a call that returned `a`. -/
def handedOut (a : UInt32) (n : Nat) (i : UInt32) : Prop := a ≠ 0 ∧ Pmm.InRun (addrToIndex a) n i

inductive PmmSys.Step (allowed : Pmm → UInt32 → Prop) : PmmSys → PmmSys → Prop where
  | alloc (s : Pmm) (owned : UInt32 → Prop) :
    Step allowed ⟨s, owned⟩
      ⟨s.pmmAllocPage.2, fun i => owned i ∨ handedOut s.pmmAllocPage.1 1 i⟩
  | allocContiguous {s t : Pmm} (owned : UInt32 → Prop) {fuel : Nat} {count a : UInt32} :
    s.pmmAllocContiguous fuel count = some (a, t) →
    Step allowed ⟨s, owned⟩ ⟨t, fun i => owned i ∨ handedOut a count.toNat i⟩
  | free {s : Pmm} (owned : UInt32 → Prop) {addr : UInt32} :
    addr.toNat % 4096 = 0 → allowed s addr →
    Step allowed ⟨s, owned⟩ ⟨s.pmmFreePage addr, fun i => owned i ∧ i ≠ addrToIndex addr⟩
  | write {s : Pmm} {owned : UInt32 → Prop} {a : UInt32} (b : UInt8) :
    owned (addrToIndex a) →
    Step allowed ⟨s, owned⟩ ⟨{ s with mem := store8 s.mem a b }, owned⟩

inductive PmmSys.Reachable (endAddr : UInt32) (allowed : Pmm → UInt32 → Prop) : PmmSys → Prop where
  | init {fuel : Nat} {magic infoAddr : UInt32} {m : Mem} {s : Pmm} :
    Pmm.pmmInit fuel endAddr magic infoAddr m = some s → Reachable endAddr allowed ⟨s, fun _ => False⟩
  | step {a b : PmmSys} : Reachable endAddr allowed a → PmmSys.Step allowed a b →
    Reachable endAddr allowed b

/-- The pages of the kernel image and of the bitmap behind it, from 1 MB on. -/
def Pmm.ImagePage (s : Pmm) (i : UInt32) : Prop :=
  0x100 ≤ i.toNat ∧ i.toNat * 4096 < s.bitmap.toNat + s.bitmapBytes

/-- The three representations agree. -/
def Pmm.Consistent (s : Pmm) : Prop :=
  ∃ xs, Follows s.link s.freeListHead xs nilLink ∧ xs.Nodup ∧
    (∀ i, i ∈ xs ↔ i < s.totalPages ∧ s.getPageBit i = true) ∧ s.freePages.toNat = xs.length

/-! ## The invariant of a run -/

/-- Owned pages are pages of the machine, off the free list and outside the bitmap. -/
structure PmmSys.Inv (sys : PmmSys) (xs : List UInt32) : Prop where
  pmm : sys.pmm.Inv xs
  owned : ∀ i, sys.owned i → i < sys.pmm.totalPages ∧ i ∉ xs ∧ ¬ sys.pmm.BitmapPage i

namespace PmmSys

variable {s t : Pmm} {owned : UInt32 → Prop} {xs : List UInt32}

theorem not_bitmapPage_of_not_imagePage {i : UInt32} (hlo : 0x100000 ≤ s.bitmap.toNat)
    (h : ¬ s.ImagePage i) : ¬ s.BitmapPage i := fun ⟨k, hk, e⟩ =>
  h ⟨by omega, by omega⟩

theorem handedOut_indexToAddr {i y : UInt32} {n : Nat} (hi : i.toNat < 2 ^ 20)
    (h : handedOut (indexToAddr i) n y) : Pmm.InRun i n y := by
  have := h.2
  rwa [addrToIndex_indexToAddr hi] at this

theorem Inv.alloc (h : Inv ⟨s, owned⟩ xs) :
    (∀ i, handedOut s.pmmAllocPage.1 1 i → ¬ owned i) ∧
      ∃ ys, Inv ⟨s.pmmAllocPage.2, fun i => owned i ∨ handedOut s.pmmAllocPage.1 1 i⟩ ys := by
  cases xs with
  | nil =>
    rw [h.pmm.pmmAllocPage_nil]
    refine ⟨fun i hi => absurd rfl hi.1, [], h.pmm, fun i hi => ?_⟩
    rcases hi with hi | hi
    · exact h.owned i hi
    · exact absurd rfl hi.1
  | cons x xs =>
    obtain ⟨ha, hinv⟩ := h.pmm.pmmAllocPage
    have hx : x ∈ x :: xs := List.mem_cons_self
    have hxlt := h.pmm.lt hx
    have hout : ∀ i, handedOut s.pmmAllocPage.1 1 i → i = x := fun i hi => by
      rw [ha] at hi
      obtain ⟨h1, h2⟩ := handedOut_indexToAddr (h.pmm.fits.lt hxlt) hi
      exact UInt32.toNat_inj.1 (by omega)
    have hlay : s.SameLayout s.pmmAllocPage.2 := by
      unfold Pmm.pmmAllocPage
      split <;> exact ⟨rfl, rfl⟩
    refine ⟨fun i hi ho => (h.owned i ho).2.1 (hout i hi ▸ hx), xs, hinv, fun i hi => ?_⟩
    simp only [hlay.2]
    rcases hi with hi | hi
    · obtain ⟨h1, h2, h3⟩ := h.owned i hi
      exact ⟨h1, fun hm => h2 (List.mem_cons_of_mem _ hm), fun hb => h3 (hb.congr hlay.1 hlay.2)⟩
    · rw [hout i hi]
      exact ⟨hxlt, (List.nodup_cons.1 h.pmm.nodup).1,
        fun hb => h.pmm.not_bitmapPage hx (hb.congr hlay.1 hlay.2)⟩

theorem Inv.allocContiguous (h : Inv ⟨s, owned⟩ xs) {fuel : Nat} {count a : UInt32}
    (hret : s.pmmAllocContiguous fuel count = some (a, t)) :
    (∀ i, handedOut a count.toNat i → ¬ owned i) ∧
      ∃ ys, Inv ⟨t, fun i => owned i ∨ handedOut a count.toNat i⟩ ys := by
  -- more fuel gives the same result
  have hmore : s.pmmAllocContiguous (max fuel (s.totalPages.toNat + 1)) count = some (a, t) :=
    Pmm.pmmAllocContiguous_mono (Nat.le_max_left _ _) hret
  rcases h.pmm.pmmAllocContiguous count (Nat.lt_of_lt_of_le (Nat.lt_succ_self _)
    (Nat.le_max_right fuel (s.totalPages.toNat + 1))) with hnone | ⟨i, u, hsome, hin, hinv, hb, hp⟩
  · rw [hmore] at hnone
    cases hnone
    refine ⟨fun i hi => absurd rfl hi.1, xs, h.pmm, fun i hi => ?_⟩
    rcases hi with hi | hi
    · exact h.owned i hi
    · exact absurd rfl hi.1
  · rw [hmore] at hsome
    cases hsome
    have hout : ∀ y, handedOut (indexToAddr i) count.toNat y → Pmm.InRun i count.toNat y := by
      intro y hy
      rcases Nat.eq_zero_or_pos count.toNat with hz | hpos
      · rw [hz] at hy
        exact absurd hy.2.2 (by have := hy.2.1; omega)
      · exact handedOut_indexToAddr
          (h.pmm.fits.lt (h.pmm.lt (hin i ⟨Nat.le_refl _, by omega⟩))) hy
    refine ⟨fun y hy ho => (h.owned y ho).2.1 (hin y (hout y hy)), _, hinv, fun y hy => ?_⟩
    simp only [hp]
    rcases hy with hy | hy
    · obtain ⟨h1, h2, h3⟩ := h.owned y hy
      exact ⟨h1, fun hm => h2 (List.mem_filter.1 hm).1, fun hbp => h3 (hbp.congr hb hp)⟩
    · have hy' := hin y (hout y hy)
      refine ⟨h.pmm.lt hy', fun hm => ?_, fun hbp => h.pmm.not_bitmapPage hy' (hbp.congr hb hp)⟩
      exact absurd (hout y hy) (by simpa using (List.mem_filter.1 hm).2)

theorem Inv.free (h : Inv ⟨s, owned⟩ xs) {addr : UInt32} (ha : addr.toNat % 4096 = 0)
    (hb : ¬ s.BitmapPage (addrToIndex addr)) :
    ∃ ys, Inv ⟨s.pmmFreePage addr, fun i => owned i ∧ i ≠ addrToIndex addr⟩ ys := by
  rcases h.pmm.pmmFreePage ha hb with ⟨heq, -⟩ | ⟨hnm, hinv⟩
  · rw [heq]
    exact ⟨xs, h.pmm, fun i hi => h.owned i hi.1⟩
  · have hlay : s.SameLayout (s.pmmFreePage addr) := by
      unfold Pmm.pmmFreePage
      simp only
      split
      · exact ⟨rfl, rfl⟩
      · split <;> exact ⟨rfl, rfl⟩
    refine ⟨_, hinv, fun i hi => ?_⟩
    obtain ⟨h1, h2, h3⟩ := h.owned i hi.1
    simp only [hlay.2]
    exact ⟨h1, fun hm => (List.mem_cons.1 hm).elim hi.2 h2, fun hbp => h3 (hbp.congr hlay.1 hlay.2)⟩

theorem Inv.write (h : Inv ⟨s, owned⟩ xs) {a : UInt32} (b : UInt8) (ho : owned (addrToIndex a)) :
    Inv ⟨{ s with mem := store8 s.mem a b }, owned⟩ xs := by
  obtain ⟨-, h2, h3⟩ := h.owned _ ho
  refine ⟨h.pmm.write b h2 h3, fun i hi => ?_⟩
  obtain ⟨h4, h5, h6⟩ := h.owned i hi
  exact ⟨h4, h5, fun hbp => h6 (hbp.congr rfl rfl)⟩

/-- Every reachable state satisfies the invariant. -/
theorem Reachable.inv {endAddr : UInt32} (hlo : 0x100000 ≤ endAddr.toNat)
    (hend : endAddr.toNat + 2 ^ 17 ≤ 2 ^ 32) {sys : PmmSys}
    (h : Reachable endAddr (fun s addr => ¬ s.ImagePage (addrToIndex addr)) sys) :
    sys.pmm.bitmap = endAddr ∧ ∃ xs, sys.Inv xs := by
  induction h with
  | init hinit =>
    obtain ⟨hb, xs, hinv, -⟩ := Pmm.pmmInit_inv hend hinit
    exact ⟨hb, xs, hinv, fun _ hi => hi.elim⟩
  | step _ hstep ih =>
    obtain ⟨hb, xs, hinv⟩ := ih
    cases hstep with
    | alloc s owned =>
      refine ⟨?_, hinv.alloc.2⟩
      rw [← hb]
      simp only [Pmm.pmmAllocPage]
      split <;> rfl
    | allocContiguous owned hret =>
      exact ⟨(Pmm.pmmAllocContiguous_bitmap hret).trans hb, (hinv.allocContiguous hret).2⟩
    | @free s owned addr ha hallowed =>
      refine ⟨?_, hinv.free ha (not_bitmapPage_of_not_imagePage ?_ hallowed)⟩
      · rw [← hb]
        simp only [Pmm.pmmFreePage]
        split
        · rfl
        · split <;> rfl
      · rw [show s.bitmap = endAddr from hb]
        exact hlo
    | write b ho => exact ⟨hb, xs, hinv.write b ho⟩

end PmmSys

/-- **The allocator over runs.** In every state reached without releasing a page of the
kernel image or of the bitmap: list, bitmap and counter agree; no allocation hands out a page
that a client owns; every allocation returns; and a second release changes nothing. -/
theorem pmm_reachable_consistent {endAddr : UInt32} (hlo : 0x100000 ≤ endAddr.toNat)
    (hend : endAddr.toNat + 2 ^ 17 ≤ 2 ^ 32) {sys : PmmSys}
    (h : PmmSys.Reachable endAddr (fun s addr => ¬ s.ImagePage (addrToIndex addr)) sys) :
    sys.pmm.Consistent ∧
    (∀ i, handedOut sys.pmm.pmmAllocPage.1 1 i → ¬ sys.owned i) ∧
    (∀ fuel count a t, sys.pmm.pmmAllocContiguous fuel count = some (a, t) →
      ∀ i, handedOut a count.toNat i → ¬ sys.owned i) ∧
    (∀ count, ∃ fuel r, sys.pmm.pmmAllocContiguous fuel count = some r) ∧
    ∀ addr : UInt32, addr.toNat % 4096 = 0 → ¬ sys.pmm.ImagePage (addrToIndex addr) →
      (sys.pmm.pmmFreePage addr).pmmFreePage addr = sys.pmm.pmmFreePage addr := by
  obtain ⟨hb, xs, hinv⟩ := h.inv hlo hend
  refine ⟨⟨xs, hinv.pmm.follows, hinv.pmm.nodup, hinv.pmm.mem_iff, hinv.pmm.count⟩,
    hinv.alloc.1, fun fuel count a t hret => (hinv.allocContiguous hret).1, fun count => ?_,
    fun addr ha himg => ?_⟩
  · rcases hinv.pmm.pmmAllocContiguous count (Nat.lt_succ_self _) with hret | ⟨i, t, hret, -⟩
    · exact ⟨_, _, hret⟩
    · exact ⟨_, _, hret⟩
  · have hbp := PmmSys.not_bitmapPage_of_not_imagePage (hb ▸ hlo) himg
    rcases hinv.pmm.pmmFreePage ha hbp with ⟨heq, -⟩ | ⟨-, hinv'⟩
    · rw [heq, heq]
    · -- the page is free now, so its bit stops the second release
      have hmem := (hinv'.mem_iff (addrToIndex addr)).1 List.mem_cons_self
      rw [Pmm.pmmFreePage, if_neg (UInt32.not_le.2 hmem.1), if_pos hmem.2]

/-! ## A small machine

1088 KB of memory and an image ending at 0x102000: the bitmap is page 0x102 and the pages
0x103 to 0x10F are free. -/

/-- Multiboot information at 0: 640 KB below 1 MB and 448 KB above, no memory map. -/
def smallBootMem : Mem := fun a =>
  if a = 4 then 0x80 else if a = 5 then 0x02 else if a = 8 then 0xC0 else if a = 9 then 0x01 else 0

@[irreducible] def smallBoot : Option Pmm := Pmm.pmmInit 1 0x102000 0x2BADB002 0 smallBootMem

theorem smallBoot_isSome : smallBoot.isSome = true := by decide +kernel

/-- The state after `pmm_init` of the small machine. -/
def smallPmm : Pmm := smallBoot.get smallBoot_isSome

theorem smallBoot_eq : smallBoot = Pmm.pmmInit 1 0x102000 0x2BADB002 0 smallBootMem := by
  unfold smallBoot
  with_reducible rfl

theorem smallPmm_init : Pmm.pmmInit 1 0x102000 0x2BADB002 0 smallBootMem = some smallPmm :=
  smallBoot_eq.symm.trans (by rw [smallPmm, Option.some_get])

theorem pmm_reachable_consistent_small :
    PmmSys.Reachable 0x102000 (fun s addr => ¬ s.ImagePage (addrToIndex addr))
        ⟨smallPmm, fun _ => False⟩ ∧ smallPmm.Consistent :=
  ⟨.init smallPmm_init,
    (pmm_reachable_consistent (by decide) (by decide) (.init smallPmm_init)).1⟩

/-- The list after page 0x102, which holds the bitmap, is released. -/
def smallList : List UInt32 :=
  [0x102, 0x10F, 0x10E, 0x10D, 0x10C, 0x10B, 0x10A, 0x109, 0x108, 0x107, 0x106, 0x105, 0x104, 0x103]

theorem smallPmm_free_bitmap :
    Follows (smallPmm.pmmFreePage 0x102000).link (smallPmm.pmmFreePage 0x102000).freeListHead
        smallList nilLink ∧
      (smallPmm.pmmFreePage 0x102000).totalPages = 272 ∧
      (smallPmm.pmmFreePage 0x102000).getPageBit 0 = true := by
  decide +kernel

/-- Releasing a page of the bitmap writes a link over the bitmap: pages then count as free
that are not on the list. -/
theorem pmm_free_bitmap_page_inconsistent :
    ∃ sys, PmmSys.Reachable 0x102000 (fun _ _ => True) sys ∧ ¬ sys.pmm.Consistent := by
  refine ⟨⟨smallPmm.pmmFreePage 0x102000, _⟩,
    .step (.init smallPmm_init) (.free _ (by decide) trivial), ?_⟩
  rintro ⟨xs, hf, -, hmem, -⟩
  obtain ⟨hlist, htotal, hbit⟩ := smallPmm_free_bitmap
  have hxs : xs = smallList := by
    refine hf.unique hlist (fun hm => ?_) (by decide)
    have := ((hmem _).1 hm).1
    rw [htotal] at this
    exact absurd this (by decide)
  have h0 : (0 : UInt32) ∈ xs := (hmem 0).2 ⟨by rw [htotal]; decide, hbit⟩
  rw [hxs] at h0
  exact absurd h0 (by decide)

end HaoSys.Mm
