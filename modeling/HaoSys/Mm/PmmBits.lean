import HaoSys.Mm.Pmm

/-!
# Bits, links and pages

The three representations of `Pmm` share one memory. The lemmas here say which
accesses are independent: a bit from another bit, a link from another link, and
a bit from a link whenever the linked page holds no byte of the bitmap
(`BitmapPage`).
-/

namespace HaoSys.Mm

open HaoSys.Lib

theorem bit_eq_testBit (b k : UInt8) (hk : k.toNat < 8) :
    (b >>> k &&& 1 != 0) = b.toNat.testBit k.toNat := by
  rw [Nat.testBit, Nat.and_comm, ← Nat.mod_eq_of_lt hk, ← UInt8.toNat_shiftRight]
  rw [← UInt8.toNat_one, ← UInt8.toNat_and, bne, bne, ← UInt8.toNat_zero]
  congr 1
  rw [Bool.eq_iff_iff]
  simp [← UInt8.toNat_inj]

theorem testBit_or_mask (b k : UInt8) (hk : k.toNat < 8) (j : Nat) :
    (b ||| (1 <<< k)).toNat.testBit j = (decide (j = k.toNat) || b.toNat.testBit j) := by
  have hlt : 2 ^ k.toNat < 2 ^ 8 := Nat.pow_lt_pow_right (by decide) hk
  rw [UInt8.toNat_or, UInt8.toNat_shiftLeft, Nat.testBit_or, Nat.mod_eq_of_lt hk,
    UInt8.toNat_one, Nat.one_shiftLeft, Nat.mod_eq_of_lt hlt, Nat.testBit_two_pow, Bool.or_comm]
  simp [eq_comm]

theorem testBit_and_not_mask (b k : UInt8) (hk : k.toNat < 8) (j : Nat) (hj : j < 8) :
    (b &&& ~~~(1 <<< k)).toNat.testBit j = (decide (j ≠ k.toNat) && b.toNat.testBit j) := by
  have hm : (~~~((1 : UInt8) <<< k)).toNat.testBit j = decide (j ≠ k.toNat) := by
    have hb : ((1 : UInt8) <<< k).toNat = 2 ^ k.toNat := by
      rw [UInt8.toNat_shiftLeft, Nat.mod_eq_of_lt hk, UInt8.toNat_one, Nat.one_shiftLeft]
      exact Nat.mod_eq_of_lt (Nat.pow_lt_pow_right (by decide) hk)
    have : ((1 : UInt8) <<< k).toBitVec.getLsbD j = decide (j = k.toNat) := by
      rw [← BitVec.testBit_toNat]
      change (((1 : UInt8) <<< k).toNat).testBit j = _
      rw [hb, Nat.testBit_two_pow]
      simp [eq_comm]
    change (~~~((1 : UInt8) <<< k)).toBitVec.toNat.testBit j = _
    rw [BitVec.testBit_toNat, UInt8.toBitVec_not, BitVec.getLsbD_not, this]
    simp [hj]
  rw [UInt8.toNat_and, Nat.testBit_and, hm, Bool.and_comm]

/-! ## Page indices and addresses -/

theorem indexToAddr_toNat {i : UInt32} (h : i.toNat < 2 ^ 20) :
    (indexToAddr i).toNat = i.toNat * 4096 := by
  simp only [indexToAddr, UInt32.toNat_mul, UInt32.reduceToNat]
  omega

theorem addrToIndex_toNat (a : UInt32) : (addrToIndex a).toNat = a.toNat / 4096 := by
  simp [addrToIndex]

theorem addrToIndex_indexToAddr {i : UInt32} (h : i.toNat < 2 ^ 20) :
    addrToIndex (indexToAddr i) = i := by
  apply UInt32.toNat_inj.1
  rw [addrToIndex_toNat, indexToAddr_toNat h]
  omega

theorem indexToAddr_addrToIndex {a : UInt32} (h : a.toNat % 4096 = 0) :
    indexToAddr (addrToIndex a) = a := by
  have := a.toNat_lt
  apply UInt32.toNat_inj.1
  rw [indexToAddr_toNat (by rw [addrToIndex_toNat]; omega), addrToIndex_toNat]
  omega

namespace Pmm

/-! ## Layout -/

/-- The bytes of the bitmap. -/
def bitmapBytes (s : Pmm) : Nat := (s.totalPages.toNat + 7) / 8

/-- Page `i` holds a byte of the bitmap. -/
def BitmapPage (s : Pmm) (i : UInt32) : Prop :=
  ∃ k, k < s.bitmapBytes ∧ (s.bitmap.toNat + k) / 4096 = i.toNat

/-- The layout `pmm_init` sets up: page indices and the bitmap fit in 32-bit addresses. -/
structure Fits (s : Pmm) : Prop where
  pages : s.totalPages.toNat ≤ 2 ^ 20
  bitmap : s.bitmap.toNat + s.bitmapBytes ≤ 2 ^ 32

variable {s : Pmm} {i j : UInt32}

theorem Fits.lt (h : s.Fits) (hi : i < s.totalPages) : i.toNat < 2 ^ 20 := by
  have := UInt32.lt_iff_toNat_lt.1 hi
  have := h.pages
  omega

theorem Fits.ne_nilLink (h : s.Fits) (hi : i < s.totalPages) : i ≠ nilLink := by
  rintro rfl
  exact absurd (h.lt hi) (by decide)

/-- The bitmap byte of page `i`. -/
theorem Fits.byteAddr (h : s.Fits) (hi : i < s.totalPages) :
    (s.bitmap + i / 8).toNat = s.bitmap.toNat + i.toNat / 8 := by
  have := UInt32.lt_iff_toNat_lt.1 hi
  have := h.bitmap
  simp only [bitmapBytes] at this
  simp only [UInt32.toNat_add, UInt32.toNat_div, UInt32.reduceToNat]
  omega

theorem Fits.byteAddr_page (h : s.Fits) (hi : i < s.totalPages) :
    s.BitmapPage (addrToIndex (s.bitmap + i / 8)) := by
  have hlt := UInt32.lt_iff_toNat_lt.1 hi
  refine ⟨i.toNat / 8, ?_, ?_⟩
  · simp only [bitmapBytes]; omega
  · rw [addrToIndex_toNat, h.byteAddr hi]

/-! ## Reading and writing bits -/

theorem shift_toNat (i : UInt32) : (i % 8).toUInt8.toNat = i.toNat % 8 := by
  simp only [UInt32.toNat_toUInt8, UInt32.toNat_mod, UInt32.reduceToNat]
  omega

theorem getPageBit_eq (s : Pmm) (i : UInt32) :
    s.getPageBit i = (s.mem (s.bitmap + i / 8)).toNat.testBit (i.toNat % 8) := by
  rw [getPageBit, bit_eq_testBit _ _ (by rw [shift_toNat]; omega), shift_toNat]

/-- The bitmap depends on the memory only through its own bytes. -/
theorem getPageBit_congr {t : Pmm} (hb : t.bitmap = s.bitmap)
    (hm : t.mem (s.bitmap + i / 8) = s.mem (s.bitmap + i / 8)) :
    t.getPageBit i = s.getPageBit i := by
  rw [getPageBit_eq, getPageBit_eq, hb, hm]

@[simp] theorem setPageBit_bitmap (b : Bool) : (s.setPageBit i b).bitmap = s.bitmap := rfl

@[simp] theorem setPageBit_totalPages (b : Bool) :
    (s.setPageBit i b).totalPages = s.totalPages := rfl

@[simp] theorem setPageBit_freePages (b : Bool) :
    (s.setPageBit i b).freePages = s.freePages := rfl

@[simp] theorem setPageBit_freeListHead (b : Bool) :
    (s.setPageBit i b).freeListHead = s.freeListHead := rfl

/-- Writing a bit changes that bit only. -/
theorem getPageBit_setPageBit (h : s.Fits) (hi : i < s.totalPages) (hj : j < s.totalPages)
    (b : Bool) :
    (s.setPageBit i b).getPageBit j = if j = i then b else s.getPageBit j := by
  have hk : ((i % 8).toUInt8).toNat < 8 := by rw [shift_toNat]; omega
  have hj8 : j.toNat % 8 < 8 := Nat.mod_lt _ (by decide)
  rw [getPageBit_eq, getPageBit_eq]
  simp only [setPageBit, store8_apply]
  by_cases hbyte : s.bitmap + j / 8 = s.bitmap + i / 8
  · -- the two bits share a byte, so they differ in their position
    have hdiv : j.toNat / 8 = i.toNat / 8 := by
      have := congrArg UInt32.toNat hbyte
      rw [h.byteAddr hj, h.byteAddr hi] at this
      omega
    have hpos : j.toNat % 8 = (i % 8).toUInt8.toNat ↔ j = i := by
      rw [shift_toNat]
      constructor
      · intro e; exact UInt32.toNat_inj.1 (by omega)
      · rintro rfl; rfl
    rw [if_pos hbyte, hbyte]
    cases b
    · simp only [Bool.false_eq_true, ↓reduceIte]
      rw [testBit_and_not_mask _ _ hk _ hj8]
      simp only [ne_eq, hpos]
      by_cases e : j = i <;> simp [e]
    · simp only [↓reduceIte]
      rw [testBit_or_mask _ _ hk]
      simp only [hpos]
      by_cases e : j = i <;> simp [e]
  · have hne : j ≠ i := by rintro rfl; exact hbyte rfl
    rw [if_neg hbyte, if_neg hne]

/-! ## Links -/

/-- The word at the start of page `i` is not touched by a byte store to another page. -/
theorem load32_store8_page {m : Mem} {c : UInt32} {b : UInt8} (hi : i.toNat < 2 ^ 20)
    (hc : addrToIndex c ≠ i) : load32 (store8 m c b) (indexToAddr i) = load32 m (indexToAddr i) := by
  have haddr := indexToAddr_toNat hi
  refine load32_store8_of_not_inWord fun hin => hc (UInt32.toNat_inj.1 ?_)
  have := hin.page_eq (by omega)
  rw [addrToIndex_toNat]
  omega

/-- A link store to page `i` leaves every byte of the other pages. -/
theorem store32_apply_page {m : Mem} {c v : UInt32} (hi : i.toNat < 2 ^ 20)
    (hc : addrToIndex c ≠ i) : store32 m (indexToAddr i) v c = m c := by
  have haddr := indexToAddr_toNat hi
  refine store32_apply_of_not_inWord fun hin => hc (UInt32.toNat_inj.1 ?_)
  have := hin.page_eq (by omega)
  rw [addrToIndex_toNat]
  omega

theorem load32_store32_page {m : Mem} {v : UInt32} (hi : i.toNat < 2 ^ 20) (hj : j.toNat < 2 ^ 20)
    (hne : j ≠ i) :
    load32 (store32 m (indexToAddr i) v) (indexToAddr j) = load32 m (indexToAddr j) := by
  have h1 := indexToAddr_toNat hi
  have h2 := indexToAddr_toNat hj
  refine load32_store32_of_aligned_ne (by omega) (by omega) fun e => hne (UInt32.toNat_inj.1 ?_)
  have := congrArg UInt32.toNat e
  omega

/-- Writing a bit leaves the links of the pages outside the bitmap. -/
theorem link_setPageBit (h : s.Fits) (hi : i < s.totalPages) (hj : j < s.totalPages)
    (hbj : ¬ s.BitmapPage j) (b : Bool) : (s.setPageBit i b).link j = s.link j :=
  load32_store8_page (h.lt hj) fun e => hbj (e ▸ h.byteAddr_page hi)

/-- Storing a link in a page outside the bitmap leaves every bit. -/
theorem getPageBit_storeLink {t : Pmm} {v : UInt32} (h : s.Fits) (hi : i < s.totalPages)
    (hj : j < s.totalPages) (hbi : ¬ s.BitmapPage i) (hb : t.bitmap = s.bitmap)
    (hm : t.mem = store32 s.mem (indexToAddr i) v) : t.getPageBit j = s.getPageBit j := by
  refine getPageBit_congr hb ?_
  rw [hm]
  exact store32_apply_page (h.lt hi) fun e => hbi (e ▸ h.byteAddr_page hj)

end Pmm

end HaoSys.Mm
