import HaoSys.Mm.PmmRun

/-!
# `pmm_alloc_contiguous` takes the lowest run

The search starts at page 0 and, behind a run that is too short, goes on past the page that
ended it. No run of `count` free pages begins before that page, for it would contain it
(`findContiguous_le`), so what the search finds is the lowest one.
-/

namespace HaoSys.Mm.Pmm

open HaoSys.Lib

variable {s t : Pmm} {xs : List UInt32} {i count : UInt32}

/-- The `count` pages from `i` on are pages of the machine, and free. -/
def FreeRun (s : Pmm) (count i : Nat) : Prop :=
  i + count ≤ s.totalPages.toNat ∧ ∀ k, k < count → s.getPageBit (UInt32.ofNat (i + k)) = true

theorem FreeRun.bit {n a k : Nat} (h : s.FreeRun n a) (hlo : a ≤ k) (hhi : k < a + n) :
    s.getPageBit (UInt32.ofNat k) = true := by
  have := h.2 (k - a) (by omega)
  rwa [Nat.add_sub_cancel' hlo] at this

/-- The inner loop stops at `count`, at the last page or at a used one. -/
theorem contiguousFrom_stop (hfits : s.Fits) (hi : i < s.totalPages) :
    ∀ (fuel : Nat) {j : UInt32}, j.toNat ≤ count.toNat → i.toNat + j.toNat ≤ s.totalPages.toNat →
      s.totalPages.toNat ≤ i.toNat + j.toNat + fuel →
      (s.contiguousFrom count i fuel j).toNat ≤ count.toNat ∧
        (s.contiguousFrom count i fuel j = count ∨
          i.toNat + (s.contiguousFrom count i fuel j).toNat = s.totalPages.toNat ∨
          s.getPageBit (i + s.contiguousFrom count i fuel j) = false)
  | 0, j, hj, hle, hfuel => ⟨hj, .inr (.inl (by rw [contiguousFrom]; omega))⟩
  | fuel + 1, j, hj, hle, hfuel => by
    have hpages := hfits.pages
    have hij : (i + j).toNat = i.toNat + j.toNat := by rw [UInt32.toNat_add]; omega
    rw [contiguousFrom]
    split
    · next hc =>
      have hjc := UInt32.lt_iff_toNat_lt.1 hc.1
      have hlt := UInt32.lt_iff_toNat_lt.1 hc.2.1
      have hj1 : (j + 1).toNat = j.toNat + 1 := by
        rw [UInt32.toNat_add, UInt32.toNat_one]; omega
      exact contiguousFrom_stop hfits hi fuel (by omega) (by omega) (by omega)
    · next hc =>
      refine ⟨hj, ?_⟩
      rcases Nat.lt_or_ge j.toNat count.toNat with hjc | hjc
      · rcases Nat.lt_or_ge (i.toNat + j.toNat) s.totalPages.toNat with hlt | hge
        · refine .inr (.inr ?_)
          cases hbit : s.getPageBit (i + j) with
          | false => rfl
          | true =>
            have hbelow : i + j < s.totalPages := UInt32.lt_iff_toNat_lt.2 (by omega)
            exact absurd ⟨UInt32.lt_iff_toNat_lt.2 hjc, hbelow, hbit⟩ hc
        · exact .inr (.inl (by omega))
      · exact .inl (UInt32.toNat_inj.1 (by omega))

/-- The search misses no run: it finds one that begins no later. -/
theorem findContiguous_le (hfits : s.Fits) (hpos : 0 < count.toNat) {k : Nat}
    (hk : s.FreeRun count.toNat k) :
    ∀ (fuel : Nat) {a : UInt32}, a.toNat ≤ k → s.totalPages.toNat < a.toNat + fuel →
      ∃ i, s.findContiguous count fuel a = some i ∧ i.toNat ≤ k
  | 0, a, ha, hfuel => by
    have := hk.1
    omega
  | fuel + 1, a, ha, hfuel => by
    have hpages := hfits.pages
    have hend := hk.1
    have hlt : a < s.totalPages := UInt32.lt_iff_toNat_lt.2 (by omega)
    rw [findContiguous, if_pos hlt]
    split
    · obtain ⟨hle, hstop⟩ := contiguousFrom_stop hfits hlt s.totalPages.toNat
        (show (1 : UInt32).toNat ≤ count.toNat by rw [UInt32.toNat_one]; omega)
        (by rw [UInt32.toNat_one]; omega) (by omega)
      generalize s.contiguousFrom count a s.totalPages.toNat 1 = j at hle hstop
      simp only
      split
      · exact ⟨a, rfl, ha⟩
      · next hne =>
        have hjne : j.toNat ≠ count.toNat := fun e => hne (UInt32.toNat_inj.1 e)
        -- a run beginning at or before the page that ended this one would contain it
        have hpast : a.toNat + j.toNat < k := by
          rcases hstop with hj | hj | hj
          · exact absurd hj hne
          · omega
          · by_contra hle'
            have hbit := hk.bit (k := a.toNat + j.toNat) (by omega) (by omega)
            rw [UInt32.ofNat_add, UInt32.ofNat_toNat, UInt32.ofNat_toNat, hj] at hbit
            cases hbit
        have hnext : (a + j + 1).toNat = a.toNat + j.toNat + 1 := by
          rw [UInt32.toNat_add, UInt32.toNat_add, UInt32.toNat_one]
          omega
        exact findContiguous_le hfits hpos hk fuel (by omega) (by omega)
    · next hbit =>
      have hne : a.toNat ≠ k := by
        rintro rfl
        have := hk.bit (Nat.le_refl _) (Nat.lt_add_of_pos_right hpos)
        rw [UInt32.ofNat_toNat] at this
        exact hbit this
      have hnext : (a + 1).toNat = a.toNat + 1 := by
        rw [UInt32.toNat_add, UInt32.toNat_one]
        omega
      exact findContiguous_le hfits hpos hk fuel (by omega) (by omega)

/-- What the search finds is a run. -/
theorem findContiguous_freeRun (hfits : s.Fits) {fuel : Nat} {a : UInt32}
    (h : s.findContiguous count fuel a = some i) : s.FreeRun count.toNat i.toNat := by
  obtain ⟨hle, hfree⟩ := findContiguous_spec hfits h
  refine ⟨hle, fun k hk => (hfree _ ?_).2⟩
  have hpages := hfits.pages
  have hval : (UInt32.ofNat (i.toNat + k)).toNat = i.toNat + k :=
    UInt32.toNat_ofNat_of_lt' (by simp only [UInt32.size]; omega)
  exact ⟨by omega, by omega⟩

/-- The bits of a state are those its list gives. -/
theorem Inv.getPageBit_eq (h : s.Inv xs) {y : UInt32} (hy : y < s.totalPages) :
    s.getPageBit y = decide (y ∈ xs) := by
  rw [Bool.eq_iff_iff, decide_eq_true_iff, h.mem_iff]
  exact ⟨fun hb => ⟨hy, hb⟩, fun hm => hm.2⟩

/-- The pages of a run leave the list one by one, so as many are left as it has fewer. -/
theorem length_filter_inRun (hnd : xs.Nodup) {n : Nat} (hle : i.toNat + n ≤ 2 ^ 32)
    (hin : ∀ y, InRun i n y → y ∈ xs) :
    (xs.filter fun y => ¬ InRun i n y).length + n = xs.length := by
  have hrun : (xs.filter fun y => InRun i n y).toFinset.image UInt32.toNat =
      Finset.Ico i.toNat (i.toNat + n) := by
    ext k
    simp only [Finset.mem_image, List.mem_toFinset, List.mem_filter, decide_eq_true_eq,
      Finset.mem_Ico]
    constructor
    · rintro ⟨y, ⟨-, hy⟩, rfl⟩
      exact hy
    · intro hk
      have hval : (UInt32.ofNat k).toNat = k :=
        UInt32.toNat_ofNat_of_lt' (by simp only [UInt32.size]; omega)
      have hrun : InRun i n (UInt32.ofNat k) := by rwa [InRun, hval]
      exact ⟨_, ⟨hin _ hrun, hrun⟩, hval⟩
  have hcard := congrArg Finset.card hrun
  rw [Finset.card_image_of_injective _ fun _ _ e => UInt32.toNat_inj.1 e,
    List.toFinset_card_of_nodup (hnd.filter _), Nat.card_Ico] at hcard
  have hsum := List.length_eq_length_filter_add (l := xs) fun y => decide (InRun i n y)
  simp only [decide_not] at hsum ⊢
  omega

/-- **`pmm_alloc_contiguous`**: the lowest run of `count` free pages leaves the bitmap and the
list, whose other pages keep their order; without such a run nothing changes. -/
theorem pmm_alloc_contiguous_lowest (h : s.Inv xs) (hcount : count ≠ 0) {fuel : Nat}
    (hfuel : s.totalPages.toNat < fuel) :
    ((∃ k, s.FreeRun count.toNat k) →
      ∃ i t, s.FreeRun count.toNat i.toNat ∧ (∀ k < i.toNat, ¬ s.FreeRun count.toNat k) ∧
        s.pmmAllocContiguous fuel count = some (indexToAddr i, t) ∧
        t.Inv (xs.filter fun y => ¬ InRun i count.toNat y) ∧
        (∀ y < s.totalPages,
          t.getPageBit y = (s.getPageBit y && !decide (InRun i count.toNat y))) ∧
        t.freePages = s.freePages - count) ∧
    ((∀ k, ¬ s.FreeRun count.toNat k) → s.pmmAllocContiguous fuel count = some (0, s)) := by
  have hpos : 0 < count.toNat :=
    Nat.pos_of_ne_zero fun e => hcount (UInt32.toNat_inj.1 (by rw [e, UInt32.toNat_zero]))
  have hpages := h.fits.pages
  rw [Pmm.pmmAllocContiguous, if_neg hcount]
  constructor
  · rintro ⟨k, hk⟩
    obtain ⟨i, hfind, -⟩ := findContiguous_le h.fits hpos hk (s.totalPages.toNat + 1) (a := 0)
      (Nat.zero_le _) (by omega)
    have hrun := findContiguous_freeRun h.fits hfind
    obtain ⟨hend, hfree⟩ := findContiguous_spec h.fits hfind
    have hin : ∀ y, InRun i count.toNat y → y ∈ xs := fun y hy => (h.mem_iff y).2 (hfree y hy)
    obtain ⟨t, ht, hinv, hb, hp⟩ := h.takePages hin (by omega) hfuel
    refine ⟨i, t, hrun, fun k' hlt hk' => ?_, by simp [hfind, ht], hinv, fun y hy => ?_, ?_⟩
    · obtain ⟨i', hfind', hle'⟩ := findContiguous_le h.fits hpos hk' (s.totalPages.toNat + 1)
        (a := 0) (Nat.zero_le _) (by omega)
      rw [hfind] at hfind'
      cases hfind'
      omega
    · rw [hinv.getPageBit_eq (by rwa [hp]), h.getPageBit_eq hy, Bool.eq_iff_iff]
      simp [List.mem_filter]
    · have hlen := length_filter_inRun h.nodup (by omega) hin
      have hcs := h.count
      have hct := hinv.count
      apply UInt32.toNat_inj.1
      rw [UInt32.toNat_sub_of_le _ _ (UInt32.le_iff_toNat_le.2 (by omega))]
      omega
  · intro hnone
    cases hfind : s.findContiguous count (s.totalPages.toNat + 1) 0 with
    | none => rfl
    | some i => exact absurd (findContiguous_freeRun h.fits hfind) (hnone _)

/-- The small machine's bitmap: the pages from 0x103 on are free, the ones before are not. -/
theorem smallPmm_bits : smallPmm.totalPages = 272 ∧
    (∀ k < 0x103, smallPmm.getPageBit (UInt32.ofNat k) = false) ∧
    ∀ k < 3, smallPmm.getPageBit (UInt32.ofNat (0x103 + k)) = true := by
  decide +kernel

/-- Three pages of the small machine: the first free ones behind the bitmap. -/
theorem pmm_alloc_contiguous_lowest_small :
    ∃ t, smallPmm.pmmAllocContiguous 300 3 = some (0x103000, t) ∧
      t.freePages = smallPmm.freePages - 3 := by
  obtain ⟨-, xs, hinv, -⟩ := pmmInit_inv (by decide) smallPmm_init
  obtain ⟨htotal, hused, hfree⟩ := smallPmm_bits
  have hrun : smallPmm.FreeRun 3 0x103 := ⟨by rw [htotal]; decide, hfree⟩
  obtain ⟨i, t, hi, hlow, hret, -, -, hpages⟩ :=
    (pmm_alloc_contiguous_lowest hinv (show (3 : UInt32) ≠ 0 by decide)
      (show smallPmm.totalPages.toNat < 300 by rw [htotal]; decide)).1 ⟨_, hrun⟩
  have hge : 0x103 ≤ i.toNat := by
    by_contra hlt
    have := hi.bit (Nat.le_refl _) (Nat.lt_add_of_pos_right (by decide))
    rw [hused _ (by omega)] at this
    cases this
  have hle : i.toNat ≤ 0x103 := Nat.le_of_not_lt fun hlt => hlow _ hlt hrun
  obtain rfl : i = 0x103 := UInt32.toNat_inj.1 (Nat.le_antisymm hle hge)
  exact ⟨t, hret, hpages⟩

end HaoSys.Mm.Pmm
