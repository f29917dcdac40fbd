import HaoSys.Mm.PmmInv

/-!
# `pmm_init` establishes the invariant

Marking regions only writes bits, so the layout stays (`SameLayout`). From
the marked bitmap on, the counter follows the number of set bits (`freeSet`)
through the two reserving loops, the second of which clears every bit of a
bitmap page; the last loop threads exactly the set bits.
-/

namespace HaoSys.Mm.Pmm

open HaoSys.Lib

variable {s t : Pmm} {i j : UInt32}

/-! ## The layout -/

/-- The place and the size of the bitmap are those of `s`. -/
def SameLayout (s t : Pmm) : Prop := t.bitmap = s.bitmap ∧ t.totalPages = s.totalPages

theorem SameLayout.refl (s : Pmm) : s.SameLayout s := ⟨rfl, rfl⟩

theorem SameLayout.trans {u : Pmm} (h1 : s.SameLayout t) (h2 : t.SameLayout u) : s.SameLayout u :=
  ⟨h2.1.trans h1.1, h2.2.trans h1.2⟩

theorem Fits.of_sameLayout (h : s.Fits) (hl : s.SameLayout t) : t.Fits := h.congr hl.1 hl.2

theorem sameLayout_markRegion (s : Pmm) (start length : UInt32) (b : Bool) :
    s.SameLayout (s.markRegion start length b) := by
  unfold markRegion
  split
  · exact .refl s
  · exact forUp_keep (s.SameLayout ·) (.refl s) fun _ _ _ _ h => h.trans ⟨rfl, rfl⟩

theorem sameLayout_markMmap {limit : UInt32} :
    ∀ {fuel : Nat} {p : UInt32} {s t : Pmm}, markMmap limit fuel p s = some t → s.SameLayout t
  | fuel + 1, p, s, t, h => by
    rw [markMmap] at h
    split at h
    · refine SameLayout.trans ?_ (sameLayout_markMmap h)
      unfold markMmapEntry
      simp only
      split
      · exact sameLayout_markRegion ..
      · exact .refl s
    · cases h
      exact .refl s

theorem sameLayout_markRegions {fuel : Nat} {magic infoAddr : UInt32}
    (h : markRegions fuel magic infoAddr s = some t) : s.SameLayout t := by
  unfold markRegions at h
  split at h
  · exact sameLayout_markMmap h
  · cases h
    exact .refl s

theorem cleared_layout (m : Mem) (endAddr memLower memUpper : UInt32) :
    (cleared m endAddr memLower memUpper).bitmap = endAddr ∧
      (cleared m endAddr memLower memUpper).totalPages.toNat < 2 ^ 20 := by
  unfold cleared
  refine forUp_keep (fun t : Pmm => t.bitmap = endAddr ∧ t.totalPages.toNat < 2 ^ 20) ⟨rfl, ?_⟩
    fun _ _ _ _ h => h
  simp only [UInt32.toNat_div, UInt32.reduceToNat]
  have := UInt32.toNat_lt
    ((if memLower + memUpper = 0 then 16 * 1024 else memLower + memUpper) * 1024)
  omega

theorem cleared_fits (m : Mem) {endAddr : UInt32} (hend : endAddr.toNat + 2 ^ 17 ≤ 2 ^ 32)
    (memLower memUpper : UInt32) : (cleared m endAddr memLower memUpper).Fits := by
  obtain ⟨hb, hp⟩ := cleared_layout m endAddr memLower memUpper
  refine ⟨by omega, ?_⟩
  simp only [bitmapBytes, hb]
  omega

/-! ## Counting the free pages -/

/-- The free pages below `n`, as the bitmap has them. -/
def freeBelow (s : Pmm) (n : Nat) : Finset Nat :=
  (Finset.range n).filter fun i => s.getPageBit (UInt32.ofNat i) = true

abbrev freeSet (s : Pmm) : Finset Nat := s.freeBelow s.totalPages.toNat

theorem card_freeBelow_le (s : Pmm) (n : Nat) : (s.freeBelow n).card ≤ n :=
  (Finset.card_filter_le _ _).trans (by simp)

theorem freeBelow_succ (s : Pmm) (n : Nat) :
    s.freeBelow (n + 1) =
      if s.getPageBit (UInt32.ofNat n) = true then insert n (s.freeBelow n) else s.freeBelow n := by
  rw [freeBelow, Finset.range_add_one, Finset.filter_insert]
  rfl

theorem countFree_toNat (h : s.Fits) : s.countFree.toNat = s.freeSet.card := by
  refine forUp_inv (fun i (n : UInt32) => n.toNat = (s.freeBelow i).card) (Nat.zero_le _)
    (by simp [freeBelow]) fun i n _ hi hn => ?_
  have hcard := s.card_freeBelow_le i
  have hpages := h.pages
  rw [freeBelow_succ]
  split
  · rw [Finset.card_insert_of_notMem (by simp [freeBelow]), UInt32.toNat_add, UInt32.toNat_one]
    omega
  · exact hn

theorem ofNat_lt_totalPages {k : Nat} (hk : k < s.totalPages.toNat) :
    UInt32.ofNat k < s.totalPages := by
  have := s.totalPages.toNat_lt
  rw [UInt32.lt_iff_toNat_lt, UInt32.toNat_ofNat']
  omega

theorem toNat_ofNat_page {k : Nat} (h : s.Fits) (hk : k < s.totalPages.toNat) :
    (UInt32.ofNat k).toNat = k := by
  have := h.pages
  rw [UInt32.toNat_ofNat']
  omega

/-- Clearing a set bit takes its page out of the free set. -/
theorem freeSet_clear (h : s.Fits) (hi : i < s.totalPages) :
    (s.setPageBit i false).freeSet = s.freeSet.erase i.toNat := by
  ext k
  simp only [freeSet, freeBelow, Finset.mem_filter, Finset.mem_range, Finset.mem_erase,
    setPageBit_totalPages]
  by_cases hk : k < s.totalPages.toNat
  · rw [getPageBit_setPageBit h hi (ofNat_lt_totalPages hk)]
    have : UInt32.ofNat k = i ↔ k = i.toNat := by
      rw [← UInt32.toNat_inj, toNat_ofNat_page h hk]
    by_cases e : k = i.toNat <;> simp [this, e, hk]
  · simp [hk]

/-! ## Reserving pages -/

/-- The counter agrees with the bitmap. -/
def Counted (s : Pmm) : Prop := s.freePages.toNat = s.freeSet.card

/-- One turn of a reserving loop. -/
theorem Counted.clear (hc : s.Counted) (h : s.Fits) (hi : i < s.totalPages)
    (hbit : s.getPageBit i = true) :
    Counted { s.setPageBit i false with freePages := s.freePages - 1 } := by
  have hmem : i.toNat ∈ s.freeSet := by
    simp only [freeSet, freeBelow, Finset.mem_filter, Finset.mem_range, UInt32.ofNat_toNat]
    exact ⟨UInt32.lt_iff_toNat_lt.1 hi, hbit⟩
  have hpos : 0 < s.freeSet.card := Finset.card_pos.2 ⟨_, hmem⟩
  have hfree : freeSet { s.setPageBit i false with freePages := s.freePages - 1 } =
      s.freeSet.erase i.toNat := freeSet_clear h hi
  rw [Counted] at hc ⊢
  rw [hfree, Finset.card_erase_of_mem hmem, ← hc]
  exact UInt32.toNat_sub_of_le _ _ (UInt32.le_iff_toNat_le.2 (by rw [UInt32.toNat_one]; omega))

/-- A loop over the pages from `a` to `b` that gives each its bit: the others keep theirs. -/
theorem forPages_spec {a b : UInt32} {body : UInt32 → Pmm → Pmm} {bit : Bool} (Q : Pmm → Prop)
    (h : s.Fits) (hQ : Q s)
    (hbody : ∀ t i, s.SameLayout t → i < s.totalPages → Q t → t.SameLayout (body i t) ∧
      Q (body i t) ∧ ∀ j, j < s.totalPages →
        (body i t).getPageBit j = if j = i then bit else t.getPageBit j) :
    s.SameLayout (s.forPages a b body) ∧ Q (s.forPages a b body) ∧
      ∀ j, j < s.totalPages → (s.forPages a b body).getPageBit j =
        if a ≤ j ∧ j ≤ b then bit else s.getPageBit j := by
  -- the invariant at counter `i`: the pages from `a` up to `i` have their bit
  let P (i : Nat) (t : Pmm) : Prop := s.SameLayout t ∧ Q t ∧ ∀ j, j < s.totalPages →
    t.getPageBit j = if a.toNat ≤ j.toNat ∧ j.toNat < i then bit else s.getPageBit j
  have hturn : ∀ (i : Nat) (t : Pmm), a.toNat ≤ i → i < min (b.toNat + 1) s.totalPages.toNat →
      P i t → P (i + 1) (body (UInt32.ofNat i) t) := by
    rintro i t hai hi ⟨hl, hq, hbits⟩
    have hval : (UInt32.ofNat i).toNat = i := toNat_ofNat_page h (by omega)
    have hi' : UInt32.ofNat i < s.totalPages := ofNat_lt_totalPages (by omega)
    obtain ⟨hl', hq', hbits'⟩ := hbody t _ hl hi' hq
    refine ⟨hl.trans hl', hq', fun j hj => ?_⟩
    rw [hbits' j hj, hbits j hj]
    by_cases hji : j = UInt32.ofNat i
    · rw [if_pos hji, if_pos (by rw [hji, hval]; omega)]
    · have hne : j.toNat ≠ i := fun e => hji (UInt32.toNat_inj.1 (by rw [hval, e]))
      rw [if_neg hji]
      exact if_congr (by omega) rfl rfl
  have h0 : P a.toNat s := ⟨.refl s, hQ, fun j _ => by rw [if_neg (by omega)]⟩
  unfold forPages
  rcases Nat.lt_or_ge (min (b.toNat + 1) s.totalPages.toNat) a.toNat with hlo | hlo
  · -- an empty range: no turn is made
    rw [forUp, show min (b.toNat + 1) s.totalPages.toNat - a.toNat = 0 by omega]
    refine ⟨.refl s, hQ, fun j hj => ?_⟩
    have hlt := UInt32.lt_iff_toNat_lt.1 hj
    rw [if_neg (by rw [UInt32.le_iff_toNat_le, UInt32.le_iff_toNat_le]; omega)]
    rfl
  · obtain ⟨hl, hq, hbits⟩ := forUp_inv P hlo h0 hturn
    refine ⟨hl, hq, fun j hj => ?_⟩
    have hlt := UInt32.lt_iff_toNat_lt.1 hj
    rw [hbits j hj]
    exact if_congr (by rw [UInt32.le_iff_toNat_le, UInt32.le_iff_toNat_le]; omega) rfl rfl

/-- A reserving loop clears its pages, leaves the other bits and keeps the count. -/
theorem reservePages_spec {a b : UInt32} (h : s.Fits) (hc : s.Counted) :
    s.SameLayout (s.reservePages a b) ∧ (s.reservePages a b).Counted ∧
      ∀ j, j < s.totalPages → (s.reservePages a b).getPageBit j =
        if a ≤ j ∧ j ≤ b then false else s.getPageBit j := by
  refine forPages_spec Counted h hc fun t i hl hi hct => ?_
  have htf := h.of_sameLayout hl
  have hit : i < t.totalPages := by rwa [hl.2]
  split
  · next hbit =>
    exact ⟨⟨rfl, rfl⟩, hct.clear htf hit hbit,
      fun j hj => getPageBit_setPageBit htf hit (by rwa [hl.2]) false⟩
  · next hbit =>
    refine ⟨.refl t, hct, fun j _ => ?_⟩
    split
    · next e => rw [e]; simpa using hbit
    · rfl

/-- Marking a region gives its pages their bit. -/
theorem markRegion_spec {start length : UInt32} (h : s.Fits) (b : Bool) {j : UInt32}
    (hj : j < s.totalPages) :
    (s.markRegion start length b).getPageBit j =
      if length ≠ 0 ∧ addrToIndex start ≤ j ∧ j ≤ addrToIndex (start + length - 1) then b
      else s.getPageBit j := by
  rw [markRegion]
  split
  · next hz => rw [if_neg fun hc => hc.1 hz]
  · next hz =>
    have hturn : ∀ t i, s.SameLayout t → i < s.totalPages → True →
        t.SameLayout (t.setPageBit i b) ∧ True ∧ ∀ j, j < s.totalPages →
          (t.setPageBit i b).getPageBit j = if j = i then b else t.getPageBit j :=
      fun t i hl hi _ => ⟨⟨rfl, rfl⟩, trivial, fun j hj =>
        getPageBit_setPageBit (h.of_sameLayout hl) (by rwa [hl.2]) (by rwa [hl.2]) b⟩
    rw [(forPages_spec (fun _ => True) h trivial hturn).2.2 j hj]
    exact if_congr (and_iff_right hz).symm rfl rfl

/-! ## Threading the list -/

/-- The bitmap pages are the ones the second reserving loop runs over. -/
theorem BitmapPage.bounds (h : s.Fits) (hb : s.BitmapPage j) (hi : j < s.totalPages) :
    addrToIndex s.bitmap ≤ j ∧ j ≤ addrToIndex (s.bitmap + s.bitmapSize - 1) := by
  obtain ⟨k, hk, e⟩ := hb
  have hfit := h.bitmap
  have hpages := h.pages
  have hlt := UInt32.lt_iff_toNat_lt.1 hi
  simp only [bitmapBytes] at hk hfit
  have hsize : s.bitmapSize.toNat = (s.totalPages.toNat + 7) / 8 := by
    simp only [bitmapSize, UInt32.toNat_div, UInt32.toNat_add, UInt32.reduceToNat]
    omega
  rw [UInt32.le_iff_toNat_le, UInt32.le_iff_toNat_le, addrToIndex_toNat, addrToIndex_toNat,
    UInt32.toNat_sub, UInt32.toNat_add, hsize, UInt32.toNat_one]
  omega

theorem buildFreeList_inv (h : s.Fits) (hc : s.Counted)
    (hbm : ∀ j, j < s.totalPages → s.BitmapPage j → s.getPageBit j = false) :
    ∃ xs, s.buildFreeList.Inv xs ∧ s.SameLayout s.buildFreeList ∧
      ∀ y, y ∈ xs ↔ y < s.totalPages ∧ s.getPageBit y = true := by
  -- the invariant at counter `i`: the list holds the free pages below `i`
  let P (i : Nat) (t : Pmm) : Prop := s.SameLayout t ∧ t.freePages = s.freePages ∧
    (∀ j, j < s.totalPages → t.getPageBit j = s.getPageBit j) ∧
    ∃ xs, Follows t.link t.freeListHead xs nilLink ∧ xs.Nodup ∧
      ∀ y, y ∈ xs ↔ y.toNat < i ∧ y < s.totalPages ∧ s.getPageBit y = true
  have hturn : ∀ (i : Nat) (t : Pmm), 0 ≤ i → i < s.totalPages.toNat → P i t →
      P (i + 1) (if t.getPageBit (UInt32.ofNat i) then t.pushFree (UInt32.ofNat i) else t) := by
    rintro i t - hi ⟨hl, hfp, hbits, xs, hf, hnd, hmem⟩
    have hi' : UInt32.ofNat i < s.totalPages := ofNat_lt_totalPages hi
    have hval : (UInt32.ofNat i).toNat = i := toNat_ofNat_page h hi
    have hlast : ∀ y : UInt32, y.toNat < i + 1 ↔ y = UInt32.ofNat i ∨ y.toNat < i := fun y => by
      rw [← UInt32.toNat_inj, hval]; omega
    have hnot : UInt32.ofNat i ∉ xs := fun hm => by
      have := (hmem _).1 hm
      omega
    rw [hbits _ hi']
    split
    · next hbit =>
      have hnbp : ¬ s.BitmapPage (UInt32.ofNat i) := fun hb => by
        rw [hbm _ hi' hb] at hbit
        cases hbit
      have htf := h.of_sameLayout hl
      refine ⟨hl.trans ⟨rfl, rfl⟩, hfp, fun j hj => ?_, UInt32.ofNat i :: xs, ⟨rfl, ?_⟩,
        List.nodup_cons.2 ⟨hnot, hnd⟩, fun y => ?_⟩
      · rw [← hbits j hj]
        refine getPageBit_storeLink (v := t.freeListHead) htf (by rw [hl.2]; exact hi')
          (by rw [hl.2]; exact hj) (fun hb => hnbp (hb.congr hl.1 hl.2)) ?_ ?_
        · rfl
        · rfl
      · change Follows _ (load32 (store32 _ (indexToAddr _) t.freeListHead) _) xs nilLink
        rw [load32_store32_self]
        refine hf.congr fun y hy => load32_store32_page (h.lt hi') (h.lt ((hmem y).1 hy).2.1) ?_
        exact fun e => hnot (e ▸ hy)
      · rw [List.mem_cons, hmem, hlast]
        constructor
        · rintro (rfl | ⟨h1, h2⟩)
          · exact ⟨.inl rfl, hi', hbit⟩
          · exact ⟨.inr h1, h2⟩
        · rintro ⟨rfl | h1, h2⟩
          · exact .inl rfl
          · exact .inr ⟨h1, h2⟩
    · next hbit =>
      refine ⟨hl, hfp, hbits, xs, hf, hnd, fun y => ?_⟩
      rw [hmem, hlast]
      constructor
      · rintro ⟨h1, h2⟩; exact ⟨.inr h1, h2⟩
      · rintro ⟨rfl | h1, h2⟩
        · exact absurd h2.2 hbit
        · exact ⟨h1, h2⟩
  have h0 : P 0 { s with freeListHead := nilLink } :=
    ⟨⟨rfl, rfl⟩, rfl, fun _ _ => rfl, [], rfl, List.nodup_nil, fun y => by simp⟩
  obtain ⟨hl, hfp, hbits, xs, hf, hnd, hmem⟩ := forUp_inv P (Nat.zero_le _) h0 hturn
  have hmem' : ∀ y, y ∈ xs ↔ y < s.totalPages ∧ s.getPageBit y = true := fun y => by
    rw [hmem]
    exact ⟨fun h => h.2, fun h => ⟨UInt32.lt_iff_toNat_lt.1 h.1, h⟩⟩
  refine ⟨xs, ⟨h.of_sameLayout hl, hf, hnd, fun y => ?_, ?_, fun j hj hb => ?_⟩, hl,
    hmem'⟩
  · rw [hmem']
    rw [show s.buildFreeList.totalPages = s.totalPages from hl.2]
    exact and_congr_right fun hy => by rw [← hbits y hy]; rfl
  · -- the counted free set and the list have the same members
    have hset : s.freeSet = (xs.map UInt32.toNat).toFinset := by
      ext k
      simp only [freeSet, freeBelow, Finset.mem_filter, Finset.mem_range, List.mem_toFinset,
        List.mem_map]
      constructor
      · rintro ⟨hk, hbit⟩
        exact ⟨UInt32.ofNat k, (hmem' _).2 ⟨ofNat_lt_totalPages hk, hbit⟩, toNat_ofNat_page h hk⟩
      · rintro ⟨y, hy, rfl⟩
        rw [UInt32.ofNat_toNat]
        exact ⟨UInt32.lt_iff_toNat_lt.1 ((hmem' y).1 hy).1, ((hmem' y).1 hy).2⟩
    have hnd' : (xs.map UInt32.toNat).Nodup := hnd.map fun _ _ e => UInt32.toNat_inj.1 e
    rw [show s.buildFreeList.freePages = s.freePages from hfp, hc, hset,
      List.toFinset_card_of_nodup hnd', List.length_map]
  · rw [show s.buildFreeList.totalPages = s.totalPages from hl.2] at hj
    rw [show s.buildFreeList.getPageBit j = s.getPageBit j from hbits j hj]
    exact hbm j hj (hb.congr hl.1 hl.2)

theorem sameLayout_reservePages (s : Pmm) (a b : UInt32) : s.SameLayout (s.reservePages a b) := by
  unfold reservePages forPages
  refine forUp_keep (s.SameLayout ·) (.refl s) fun _ t _ _ h => ?_
  simp only
  split
  · exact h.trans ⟨rfl, rfl⟩
  · exact h

theorem sameLayout_buildFreeList (s : Pmm) : s.SameLayout s.buildFreeList := by
  unfold buildFreeList
  refine forUp_keep (s.SameLayout ·) ⟨rfl, rfl⟩ fun _ t _ _ h => ?_
  split
  · exact h.trans ⟨rfl, rfl⟩
  · exact h

/-- The last page below 4 GB is not one of the machine's: the size in bytes is a 32-bit number. -/
theorem pmmInit_totalPages {fuel : Nat} {endAddr magic infoAddr : UInt32} {m : Mem}
    (h : pmmInit fuel endAddr magic infoAddr m = some s) : s.totalPages.toNat < 2 ^ 20 := by
  simp only [pmmInit, Option.bind_eq_bind, Option.bind_eq_some_iff] at h
  obtain ⟨⟨memLower, memUpper⟩, -, t, ht, hfin⟩ := h
  have hlay : (cleared m endAddr memLower memUpper).SameLayout t :=
    (sameLayout_markRegion ..).trans (sameLayout_markRegions ht)
  simp only [finishInit] at hfin
  split at hfin
  · cases hfin
  · cases hfin
    have hcount : t.SameLayout { t with freePages := t.countFree } := ⟨rfl, rfl⟩
    rw [(sameLayout_buildFreeList _).2, (sameLayout_reservePages ..).2,
      (sameLayout_reservePages ..).2, hcount.2, hlay.2]
    exact (cleared_layout ..).2

theorem buildFreeList_freePages (s : Pmm) : s.buildFreeList.freePages = s.freePages := by
  unfold buildFreeList
  refine forUp_keep (fun t : Pmm => t.freePages = s.freePages) rfl fun _ t _ _ h => ?_
  split <;> exact h

/-- A bit that two loops may have cleared. -/
theorem masked_eq_true {p q : Prop} [Decidable p] [Decidable q] {b : Bool} :
    (if p then false else if q then false else b) = true ↔ b = true ∧ ¬ q ∧ ¬ p := by
  by_cases hp : p <;> by_cases hq : q <;> simp [hp, hq]

/-- The end of `pmm_init` threads the marked pages, less those of the image and of the bitmap. -/
theorem finishInit_inv {endAddr : UInt32} (hfit : s.Fits) (h : s.finishInit endAddr = some t) :
    t.bitmap = s.bitmap ∧ ∃ xs, t.Inv xs ∧ xs ≠ [] ∧ ∀ i, i ∈ xs ↔ i < s.totalPages ∧
      s.getPageBit i = true ∧
      ¬ (addrToIndex 0x100000 ≤ i ∧ i ≤ addrToIndex (endAddr - 1)) ∧
      ¬ (addrToIndex s.bitmap ≤ i ∧ i ≤ addrToIndex (s.bitmap + s.bitmapSize - 1)) := by
  simp only [finishInit] at h
  -- the counter is set from the bitmap
  set u : Pmm := { s with freePages := s.countFree } with hu
  have hufit : u.Fits := hfit.congr rfl rfl
  have hucnt : u.Counted := countFree_toNat hfit
  -- the two reserving loops
  obtain ⟨hl1, hc1, hbits1⟩ := reservePages_spec (a := addrToIndex 0x100000)
    (b := addrToIndex (endAddr - 1)) hufit hucnt
  set v := u.reservePages (addrToIndex 0x100000) (addrToIndex (endAddr - 1))
  have hvfit := hufit.of_sameLayout hl1
  obtain ⟨hl2, hc2, hbits2⟩ := reservePages_spec (a := addrToIndex v.bitmap)
    (b := addrToIndex (v.bitmap + v.bitmapSize - 1)) hvfit hc1
  set w := v.reservePages (addrToIndex v.bitmap) (addrToIndex (v.bitmap + v.bitmapSize - 1))
  have hwfit := hvfit.of_sameLayout hl2
  split at h
  · cases h
  next hsome =>
  cases h
  obtain ⟨xs, hinv, hl3, hmem⟩ := buildFreeList_inv hwfit hc2 fun j hj hb => by
    rw [hl2.2] at hj
    obtain ⟨h1, h2⟩ := (hb.congr hl2.1 hl2.2 : v.BitmapPage j).bounds hvfit hj
    rw [hbits2 j hj, if_pos ⟨h1, h2⟩]
  have hbitmap : v.bitmap = s.bitmap := hl1.1
  have htotal : v.totalPages = s.totalPages := hl1.2
  refine ⟨by rw [hl3.1, hl2.1, hbitmap], xs, hinv, ?_, fun i => ?_⟩
  · rintro rfl
    have hcount := hinv.count
    rw [buildFreeList_freePages] at hcount
    exact hsome (UInt32.toNat_inj.1 hcount)
  rw [hmem i, hl2.2, htotal]
  refine and_congr_right fun hi => ?_
  rw [hbits2 i (by rwa [htotal]), hbits1 i hi, bitmapSize, hbitmap, htotal, ← bitmapSize]
  exact masked_eq_true

/-- **`pmm_init` establishes the invariant**, for an image ending below 4 GB less the
largest bitmap. No page of the image is free. -/
theorem pmmInit_inv {fuel : Nat} {endAddr magic infoAddr : UInt32} {m : Mem}
    (hend : endAddr.toNat + 2 ^ 17 ≤ 2 ^ 32)
    (h : pmmInit fuel endAddr magic infoAddr m = some s) :
    s.bitmap = endAddr ∧ ∃ xs, s.Inv xs ∧
      ∀ i ∈ xs, ¬ (0x100 ≤ i.toNat ∧ i.toNat * 4096 < endAddr.toNat) := by
  simp only [pmmInit, Option.bind_eq_bind, Option.bind_eq_some_iff] at h
  obtain ⟨⟨memLower, memUpper⟩, -, t, ht, hfin⟩ := h
  have hlay : (cleared m endAddr memLower memUpper).SameLayout t :=
    (sameLayout_markRegion ..).trans (sameLayout_markRegions ht)
  have hfit : t.Fits := (cleared_fits m hend _ _).of_sameLayout hlay
  obtain ⟨hb, xs, hinv, -, hmem⟩ := finishInit_inv hfit hfin
  refine ⟨by rw [hb, hlay.1, (cleared_layout ..).1], xs, hinv, fun i hi ⟨h1, h2⟩ => ?_⟩
  obtain ⟨-, -, himg, -⟩ := (hmem i).1 hi
  have hend' := endAddr.toNat_lt
  refine himg ⟨UInt32.le_iff_toNat_le.2 ?_, UInt32.le_iff_toNat_le.2 ?_⟩
  · rw [addrToIndex_toNat]
    simp only [UInt32.reduceToNat]
    omega
  · rw [addrToIndex_toNat, UInt32.toNat_sub, UInt32.toNat_one]
    omega

end HaoSys.Mm.Pmm
