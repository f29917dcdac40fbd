import HaoSys.Lib.Follows
import HaoSys.Mm.PmmBits

/-!
# The allocator invariant

`Inv s xs`: the links from `free_list_head` run through exactly the pages `xs`
and end in `-1`, the bitmap has the bits of `xs` set and no other, the counter
is their number, and the pages of the bitmap itself are not free. The
allocation and release routines change `xs` by one page at a time
(`Inv.remove`, `Inv.push`); a client's store to a page it owns changes nothing
(`Inv.write`).
-/

namespace HaoSys.Mm.Pmm

open HaoSys.Lib

variable {s t : Pmm} {xs : List UInt32} {i j : UInt32}

structure Inv (s : Pmm) (xs : List UInt32) : Prop where
  fits : s.Fits
  follows : Follows s.link s.freeListHead xs nilLink
  nodup : xs.Nodup
  mem_iff : ∀ i, i ∈ xs ↔ i < s.totalPages ∧ s.getPageBit i = true
  count : s.freePages.toNat = xs.length
  bitmapUsed : ∀ i, i < s.totalPages → s.BitmapPage i → s.getPageBit i = false

theorem Inv.lt (h : s.Inv xs) (hi : i ∈ xs) : i < s.totalPages := ((h.mem_iff i).1 hi).1

theorem Inv.indexToAddr_eq_zero (h : s.Inv xs) (hi : i ∈ xs) : indexToAddr i = 0 ↔ i = 0 := by
  have haddr := indexToAddr_toNat (h.fits.lt (h.lt hi))
  constructor
  · intro hz
    rw [hz, UInt32.toNat_zero] at haddr
    exact UInt32.toNat_inj.1 (by rw [UInt32.toNat_zero]; omega)
  · rintro rfl
    rfl

/-- Page 0 is handed out only if it is free. -/
theorem Inv.indexToAddr_ne_zero (h : s.Inv xs) (hbit : s.getPageBit 0 = false) (hi : i ∈ xs) :
    indexToAddr i ≠ 0 := fun hz => by
  rw [(h.indexToAddr_eq_zero hi).1 hz, h.mem_iff, hbit] at hi
  cases hi.2

/-- An allocation that answers `NULL` has taken page 0 off the list, if it was there. -/
theorem Inv.tail_eq_erase (h : s.Inv xs) (hnull : indexToAddr (xs.headD 0) = 0) :
    xs.tail = xs.erase 0 := by
  cases xs with
  | nil => rfl
  | cons x xs =>
    obtain rfl := (h.indexToAddr_eq_zero List.mem_cons_self).1 hnull
    rw [List.erase_cons_head, List.tail_cons]

theorem Inv.not_bitmapPage (h : s.Inv xs) (hi : i ∈ xs) : ¬ s.BitmapPage i := fun hb => by
  have := h.bitmapUsed i (h.lt hi) hb
  rw [((h.mem_iff i).1 hi).2] at this
  cases this

theorem Inv.nilLink_notMem (h : s.Inv xs) : nilLink ∉ xs := fun hm =>
  h.fits.ne_nilLink (h.lt hm) rfl

theorem length_le_of_lt {n : Nat} (hnd : xs.Nodup) (hlt : ∀ i ∈ xs, i.toNat < n) :
    xs.length ≤ n := by
  have hnd' : (xs.map UInt32.toNat).Nodup := hnd.map fun _ _ e => UInt32.toNat_inj.1 e
  have hsub : xs.map UInt32.toNat ⊆ List.range n := fun k hk => by
    obtain ⟨i, hi, rfl⟩ := List.mem_map.mp hk
    exact List.mem_range.mpr (hlt i hi)
  simpa using (List.subperm_of_subset hnd' hsub).length_le

theorem Inv.length_le (h : s.Inv xs) : xs.length ≤ s.totalPages.toNat :=
  length_le_of_lt h.nodup fun _ hi => UInt32.lt_iff_toNat_lt.1 (h.lt hi)

/-- The layout is fixed by the bitmap's place and size. -/
theorem Fits.congr (h : s.Fits) (hb : t.bitmap = s.bitmap) (hp : t.totalPages = s.totalPages) :
    t.Fits := by
  constructor
  · rw [hp]; exact h.pages
  · have := h.bitmap
    simp only [bitmapBytes] at this ⊢
    rw [hb, hp]
    exact this

theorem BitmapPage.congr (h : s.BitmapPage i) (hb : s.bitmap = t.bitmap)
    (hp : s.totalPages = t.totalPages) : t.BitmapPage i := by
  obtain ⟨k, hk, e⟩ := h
  exact ⟨k, by simp only [bitmapBytes] at hk ⊢; rwa [← hp], by rw [← hb]; exact e⟩

/-! ## One page leaves, one page joins -/

/-- A page leaves the list, the bitmap and the counter. -/
theorem Inv.remove (h : s.Inv xs) (hi : i ∈ xs) (hb : t.bitmap = s.bitmap)
    (hp : t.totalPages = s.totalPages) (hc : t.freePages = s.freePages - 1)
    (hbits : ∀ j, j < s.totalPages → t.getPageBit j = if j = i then false else s.getPageBit j)
    (hf : Follows t.link t.freeListHead (xs.erase i) nilLink) : t.Inv (xs.erase i) where
  fits := h.fits.congr hb hp
  follows := hf
  nodup := h.nodup.erase i
  mem_iff j := by
    rw [h.nodup.mem_erase_iff, h.mem_iff, hp]
    constructor
    · rintro ⟨hne, hlt, hbit⟩
      exact ⟨hlt, by rw [hbits j hlt, if_neg hne, hbit]⟩
    · rintro ⟨hlt, hbit⟩
      rw [hbits j hlt] at hbit
      split at hbit
      · cases hbit
      · next hne => exact ⟨hne, hlt, hbit⟩
  count := by
    have hpos := List.length_pos_of_mem hi
    have hcount := h.count
    rw [hc, UInt32.toNat_sub_of_le _ _ (UInt32.le_iff_toNat_le.2 (by simp; omega)), hcount,
      List.length_erase_of_mem hi]
    rfl
  bitmapUsed j hlt hbj := by
    rw [hp] at hlt
    rw [hbits j hlt]
    split
    · rfl
    · exact h.bitmapUsed j hlt (hbj.congr hb hp)

/-- A used page outside the bitmap joins at the head. -/
theorem Inv.push (h : s.Inv xs) (hlt : i < s.totalPages) (hused : s.getPageBit i = false)
    (hbi : ¬ s.BitmapPage i) (hb : t.bitmap = s.bitmap) (hp : t.totalPages = s.totalPages)
    (hc : t.freePages = s.freePages + 1)
    (hbits : ∀ j, j < s.totalPages → t.getPageBit j = if j = i then true else s.getPageBit j)
    (hf : Follows t.link t.freeListHead (i :: xs) nilLink) : t.Inv (i :: xs) where
  fits := h.fits.congr hb hp
  follows := hf
  nodup := by
    refine List.nodup_cons.2 ⟨fun hm => ?_, h.nodup⟩
    rw [((h.mem_iff i).1 hm).2] at hused
    cases hused
  mem_iff j := by
    rw [List.mem_cons, h.mem_iff, hp]
    constructor
    · rintro (rfl | ⟨hl, hbit⟩)
      · exact ⟨hlt, by rw [hbits j hlt, if_pos rfl]⟩
      · exact ⟨hl, by rw [hbits j hl, hbit, ite_self]⟩
    · rintro ⟨hl, hbit⟩
      rw [hbits j hl] at hbit
      split at hbit
      · next e => exact .inl e
      · exact .inr ⟨hl, hbit⟩
  count := by
    have h1 := h.length_le
    have h2 := h.fits.pages
    have h3 := h.count
    rw [hc, UInt32.toNat_add, List.length_cons, UInt32.toNat_one]
    omega
  bitmapUsed j hl hbj := by
    rw [hp] at hl
    have hbj := hbj.congr hb hp
    rw [hbits j hl, if_neg (by rintro rfl; exact hbi hbj)]
    exact h.bitmapUsed j hl hbj

/-- The links seen by the list, after a bit of the bitmap is written. -/
theorem Inv.follows_setPageBit {a : UInt32} {ys : List UInt32} (h : s.Inv xs)
    (hsub : ∀ y ∈ ys, y ∈ xs) (hi : i < s.totalPages) (b : Bool)
    (hf : Follows s.link a ys nilLink) : Follows (s.setPageBit i b).link a ys nilLink :=
  hf.congr fun y hy =>
    link_setPageBit h.fits hi (h.lt (hsub y hy)) (h.not_bitmapPage (hsub y hy)) b

/-! ## The routines -/

/-- `pmm_alloc_page` takes the head of the list. -/
theorem Inv.pmmAllocPage (h : s.Inv (i :: xs)) :
    s.pmmAllocPage.1 = indexToAddr i ∧ s.pmmAllocPage.2.Inv xs := by
  have hhead : s.freeListHead = i := h.follows.1
  have hi := h.lt (i := i) List.mem_cons_self
  have hne : i ≠ nilLink := h.fits.ne_nilLink hi
  simp only [Pmm.pmmAllocPage, hhead, hne, ↓reduceIte, true_and]
  have herase : (i :: xs).erase i = xs := List.erase_cons_head ..
  have hf : Follows s.link (s.link i) xs nilLink := h.follows.2
  rw [← herase]
  refine h.remove List.mem_cons_self rfl rfl rfl (fun j hj => ?_) ?_
  · exact getPageBit_setPageBit h.fits hi hj false
  · rw [herase]
    exact h.follows_setPageBit (fun y hy => List.mem_cons_of_mem _ hy) hi false hf

theorem Inv.pmmAllocPage_nil (h : s.Inv []) : s.pmmAllocPage = (0, s) := by
  have hhead : s.freeListHead = nilLink := h.follows
  simp [Pmm.pmmAllocPage, hhead]

/-- `pmm_free_page` of a page outside the bitmap: nothing, or one page more. -/
theorem Inv.pmmFreePage (h : s.Inv xs) {addr : UInt32} (ha : addr.toNat % 4096 = 0)
    (hb : ¬ s.BitmapPage (addrToIndex addr)) :
    (s.pmmFreePage addr = s ∧ (addrToIndex addr < s.totalPages → addrToIndex addr ∈ xs)) ∨
      (addrToIndex addr ∉ xs ∧ (s.pmmFreePage addr).Inv (addrToIndex addr :: xs)) := by
  simp only [Pmm.pmmFreePage]
  generalize hidx : addrToIndex addr = idx at hb
  have haddr : addr = indexToAddr idx := by rw [← hidx, indexToAddr_addrToIndex ha]
  by_cases hge : idx ≥ s.totalPages
  · left
    rw [if_pos hge]
    exact ⟨rfl, fun hlt => absurd hge (UInt32.not_le.2 hlt)⟩
  have hlt : idx < s.totalPages := UInt32.not_le.1 hge
  rw [if_neg hge]
  cases hbit : s.getPageBit idx with
  | true =>
    left
    exact ⟨rfl, fun _ => (h.mem_iff idx).2 ⟨hlt, hbit⟩⟩
  | false =>
    right
    have hnm : idx ∉ xs := fun hm => by
      rw [((h.mem_iff idx).1 hm).2] at hbit
      cases hbit
    refine ⟨hnm, ?_⟩
    have hfits : (s.setPageBit idx true).Fits := h.fits.congr rfl rfl
    rw [if_neg (by simp), haddr]
    refine h.push hlt hbit hb rfl rfl rfl (fun j hj => ?_) ⟨rfl, ?_⟩
    · refine (getPageBit_storeLink (v := s.freeListHead) hfits hlt hj hb ?_ ?_).trans
        (getPageBit_setPageBit h.fits hlt hj true)
      · rfl
      · rfl
    · change Follows _ (load32 (store32 _ (indexToAddr idx) s.freeListHead) _) xs nilLink
      rw [load32_store32_self]
      refine (h.follows_setPageBit (fun y hy => hy) hlt true h.follows).congr fun y hy => ?_
      exact load32_store32_page (h.fits.lt hlt) (h.fits.lt (h.lt hy))
        fun e => hnm (e ▸ hy)

/-- The invariant reads the memory only in the free pages and the bitmap's. -/
theorem Inv.congr_mem (h : s.Inv xs) {m : Mem}
    (hm : ∀ c, addrToIndex c ∈ xs ∨ s.BitmapPage (addrToIndex c) → m c = s.mem c) :
    Inv { s with mem := m } xs := by
  have hbits : ∀ j, j < s.totalPages → getPageBit { s with mem := m } j = s.getPageBit j :=
    fun j hj => getPageBit_congr rfl (hm _ (.inr (h.fits.byteAddr_page hj)))
  have hlink : ∀ y ∈ xs, link { s with mem := m } y = s.link y := fun y hy => by
    have haddr := indexToAddr_toNat (h.fits.lt (h.lt hy))
    have hpage : ∀ c, InWord (indexToAddr y) c → m c = s.mem c := fun c hc => by
      refine hm c (.inl ?_)
      have he : addrToIndex c = y := by
        have := hc.page_eq (by omega)
        apply UInt32.toNat_inj.1
        rw [addrToIndex_toNat]
        omega
      rwa [he]
    simp only [link, load32]
    rw [hpage _ (.inl rfl), hpage _ (.inr (.inl rfl)), hpage _ (.inr (.inr (.inl rfl))),
      hpage _ (.inr (.inr (.inr rfl)))]
  exact
    { fits := h.fits.congr rfl rfl
      follows := h.follows.congr hlink
      nodup := h.nodup
      mem_iff := fun j => by
        rw [h.mem_iff]
        exact and_congr_right fun hj => by rw [hbits j hj]
      count := h.count
      bitmapUsed := fun j hj hbj => by
        rw [hbits j hj]
        exact h.bitmapUsed j hj (hbj.congr rfl rfl) }

/-- A store to a used page outside the bitmap. -/
theorem Inv.write (h : s.Inv xs) {a : UInt32} (b : UInt8) (hused : addrToIndex a ∉ xs)
    (hb : ¬ s.BitmapPage (addrToIndex a)) : Inv { s with mem := store8 s.mem a b } xs := by
  refine h.congr_mem fun c hc => ?_
  rw [store8_apply, if_neg]
  rintro rfl
  exact hc.elim hused hb

/-! ## `pmm_alloc_contiguous` -/

/-- The walk stops at `i`, with its predecessor in hand. -/
theorem findPrev_eq {r : List UInt32} :
    ∀ {l : List UInt32} (fuel : Nat) (prev : UInt32) {cur : UInt32},
      Follows s.link cur (l ++ i :: r) nilLink → (∀ x ∈ l, x ≠ nilLink ∧ x ≠ i) →
      l.length < fuel → s.findPrev i fuel prev cur = some (l.getLastD prev, i)
  | [], fuel + 1, prev, cur, hf, _, _ => by
    have hcur : cur = i := hf.1
    simp [findPrev, hcur]
  | x :: l, fuel + 1, prev, cur, hf, hne, hfuel => by
    obtain ⟨rfl, hf⟩ := hf
    have hx := hne cur List.mem_cons_self
    rw [findPrev, if_pos ⟨hx.1, hx.2⟩,
      findPrev_eq _ _ hf (fun y hy => hne y (List.mem_cons_of_mem _ hy)) (by simp at hfuel; omega)]
    cases l <;> rfl

/-- One page leaves the list, wherever it stands. -/
theorem Inv.takePage (h : s.Inv xs) (hi : i ∈ xs) {fuel : Nat}
    (hfuel : s.totalPages.toNat < fuel) :
    ∃ t, s.takePage fuel i = some t ∧ t.Inv (xs.erase i) ∧ t.bitmap = s.bitmap ∧
      t.totalPages = s.totalPages := by
  obtain ⟨l, r, rfl⟩ := List.append_of_mem hi
  have hlen := h.length_le
  have hil : i ∉ l := fun hm =>
    (List.nodup_append.1 h.nodup).2.2 i hm i List.mem_cons_self rfl
  have hlt := h.lt hi
  have herase : (l ++ i :: r).erase i = l ++ r := by
    rw [List.erase_append_right _ hil, List.erase_cons_head]
  have hwalk := findPrev_eq fuel nilLink h.follows
    (fun x hx => ⟨fun e => h.nilLink_notMem (e ▸ List.mem_append_left _ hx),
      fun e => hil (e ▸ hx)⟩) (by simp at hlen; omega)
  simp only [Pmm.takePage, hwalk, Option.bind_eq_bind, Option.bind_some, ↓reduceIte]
  rcases List.eq_nil_or_concat' l with rfl | ⟨l, p, rfl⟩
  · -- the page is the head of the list
    refine ⟨_, rfl, h.remove hi rfl rfl rfl
      (fun j hj => getPageBit_setPageBit h.fits hlt hj false) ?_, rfl, rfl⟩
    rw [herase]
    exact h.follows_setPageBit (fun y hy => by simp_all) hlt false h.follows.2
  · -- the predecessor `p` is linked past it
    have hp : p ∈ l ++ [p] ++ i :: r := by simp
    have hpne : p ≠ nilLink := fun e => h.nilLink_notMem (e ▸ hp)
    have hpi : p ≠ i := fun e => hil (by simp [e])
    have hplt := h.lt hp
    have hgetLast : (l ++ [p]).getLastD nilLink = p := by simp
    simp only [hgetLast, hpne, ↓reduceIte]
    -- storing the link leaves the bitmap and the other links
    have hbits : ∀ j, j < s.totalPages →
        getPageBit { s with mem := store32 s.mem (indexToAddr p) (s.link i) } j =
          s.getPageBit j := fun j hj => by
      refine getPageBit_storeLink (v := s.link i) h.fits hplt hj (h.not_bitmapPage hp) ?_ ?_
      · rfl
      · rfl
    have hfits : Fits { s with mem := store32 s.mem (indexToAddr p) (s.link i) } :=
      h.fits.congr rfl rfl
    refine ⟨_, rfl, h.remove hi rfl rfl rfl (fun j hj => ?_) ?_, rfl, rfl⟩
    · exact (getPageBit_setPageBit hfits hlt hj false).trans (by rw [hbits j hj])
    · rw [herase]
      have hf : Follows s.link s.freeListHead (l ++ p :: i :: r) nilLink := by
        simpa using h.follows
      have hnd : (l ++ p :: i :: r).Nodup := by simpa using h.nodup
      have hunlink : Follows (link { s with mem := store32 s.mem (indexToAddr p) (s.link i) })
          s.freeListHead (l ++ p :: r) nilLink := by
        refine hf.unlink (load32_store32_self _ _ _) fun c hc => ?_
        have hcm : c ∈ l ++ [p] ++ i :: r := by
          rcases List.mem_append.mp hc with hc | hc <;> simp [hc]
        refine load32_store32_page (h.fits.lt hplt) (h.fits.lt (h.lt hcm)) fun e => ?_
        subst e
        have hpl := List.nodup_middle.1 hnd
        simp_all
      rw [show l ++ [p] ++ r = l ++ p :: r by simp]
      refine hunlink.congr fun c hc => ?_
      have hcm : c ∈ l ++ [p] ++ i :: r := by
        rcases List.mem_append.mp hc with hc | hc
        · simp [hc]
        · rcases List.mem_cons.mp hc with hc | hc <;> simp [hc]
      exact link_setPageBit hfits hlt (h.lt hcm)
        (fun hb => h.not_bitmapPage hcm (hb.congr rfl rfl)) false

/-- Page `y` is one of the `n` pages from `i` on. -/
def InRun (i : UInt32) (n : Nat) (y : UInt32) : Prop :=
  i.toNat ≤ y.toNat ∧ y.toNat < i.toNat + n

instance (i : UInt32) (n : Nat) : DecidablePred (InRun i n) := fun y =>
  inferInstanceAs (Decidable (i.toNat ≤ y.toNat ∧ y.toNat < i.toNat + n))

/-- A run of free pages leaves the list; the rest keeps its order. -/
theorem Inv.takePages {fuel : Nat} :
    ∀ {n : Nat} {i : UInt32} {s : Pmm} {xs : List UInt32}, s.Inv xs →
      (∀ y, InRun i n y → y ∈ xs) → i.toNat + n ≤ 2 ^ 20 → s.totalPages.toNat < fuel →
      ∃ t, takePages fuel n i s = some t ∧ t.Inv (xs.filter fun y => ¬ InRun i n y) ∧
        t.bitmap = s.bitmap ∧ t.totalPages = s.totalPages
  | 0, i, s, xs, h, _, _, _ => by
    refine ⟨s, rfl, ?_, rfl, rfl⟩
    rwa [List.filter_eq_self.2 fun y _ => by simp [InRun]]
  | n + 1, i, s, xs, h, hin, hle, hfuel => by
    have hsucc : (i + 1).toNat = i.toNat + 1 := by
      rw [UInt32.toNat_add, UInt32.toNat_one]; omega
    obtain ⟨t, ht, hinv, hb, hp⟩ := h.takePage (hin i ⟨by omega, by omega⟩) hfuel
    have hrest : ∀ y, InRun (i + 1) n y → y ∈ xs.erase i := fun y hy => by
      rw [InRun, hsucc] at hy
      refine h.nodup.mem_erase_iff.2 ⟨?_, hin y ⟨by omega, by omega⟩⟩
      rintro rfl
      omega
    obtain ⟨u, hu, hinv', hb', hp'⟩ := hinv.takePages hrest (by omega) (by rwa [hp])
    refine ⟨u, by rw [Pmm.takePages, ht]; exact hu, ?_, hb'.trans hb, hp'.trans hp⟩
    convert hinv' using 1
    rw [h.nodup.erase_eq_filter, List.filter_filter]
    refine List.filter_congr fun y _ => ?_
    have hyi : y = i ↔ y.toNat = i.toNat := UInt32.toNat_inj.symm
    simp only [InRun, hsucc, Bool.decide_and, decide_not]
    rw [Bool.eq_iff_iff]
    simp [hyi]
    omega

/-- The pages counted by the inner loop are free. -/
theorem contiguousFrom_spec (hfits : s.Fits) (count : UInt32) (hi : i < s.totalPages) :
    ∀ (fuel : Nat) {j : UInt32}, i.toNat + j.toNat ≤ s.totalPages.toNat →
      (∀ k, k < j.toNat → s.getPageBit (i + UInt32.ofNat k) = true) →
      i.toNat + (s.contiguousFrom count i fuel j).toNat ≤ s.totalPages.toNat ∧
      ∀ k, k < (s.contiguousFrom count i fuel j).toNat →
        s.getPageBit (i + UInt32.ofNat k) = true
  | 0, j, hle, hbits => ⟨hle, hbits⟩
  | fuel + 1, j, hle, hbits => by
    rw [contiguousFrom]
    split
    · next hc =>
      have hpages := hfits.pages
      have hj1 : (j + 1).toNat = j.toNat + 1 := by
        rw [UInt32.toNat_add, UInt32.toNat_one]; omega
      have hlt := UInt32.lt_iff_toNat_lt.1 hc.2.1
      rw [UInt32.toNat_add] at hlt
      refine contiguousFrom_spec hfits count hi fuel (by omega) fun k hk => ?_
      rcases Nat.lt_or_ge k j.toNat with hk' | hk'
      · exact hbits k hk'
      · rw [show k = j.toNat by omega, UInt32.ofNat_toNat]
        exact hc.2.2
    · exact ⟨hle, hbits⟩

/-- The pages `pmm_alloc_contiguous` settles on are free. -/
theorem findContiguous_spec (hfits : s.Fits) {count : UInt32} :
    ∀ {fuel : Nat} {a : UInt32}, s.findContiguous count fuel a = some i →
      i.toNat + count.toNat ≤ s.totalPages.toNat ∧
        ∀ y, InRun i count.toNat y → y < s.totalPages ∧ s.getPageBit y = true
  | fuel + 1, a, h => by
    rw [findContiguous] at h
    split at h
    · next ha =>
      split at h
      · next hbit =>
        simp only at h
        split at h
        · next hj =>
          obtain rfl : a = i := by simpa using h
          have halt := UInt32.lt_iff_toNat_lt.1 ha
          have hspec := contiguousFrom_spec hfits count ha s.totalPages.toNat
            (j := 1) (by rw [UInt32.toNat_one]; omega) fun k hk => by
              rw [UInt32.toNat_one] at hk
              rw [show k = 0 by omega]
              simpa using hbit
          rw [hj] at hspec
          refine ⟨hspec.1, fun y hy => ?_⟩
          rw [InRun] at hy
          have hk := hspec.2 (y.toNat - a.toNat) (by omega)
          have hya : a + UInt32.ofNat (y.toNat - a.toNat) = y := by
            apply UInt32.toNat_inj.1
            have := y.toNat_lt
            rw [UInt32.toNat_add, UInt32.toNat_ofNat']
            omega
          rw [hya] at hk
          exact ⟨UInt32.lt_iff_toNat_lt.2 (by omega), hk⟩
        · exact findContiguous_spec hfits h
      · exact findContiguous_spec hfits h
    · cases h

/-! A call that returned returns the same with more fuel. -/

theorem findPrev_mono {fuel' : Nat} :
    ∀ {fuel : Nat} {prev cur : UInt32} {r : UInt32 × UInt32}, fuel ≤ fuel' →
      s.findPrev i fuel prev cur = some r → s.findPrev i fuel' prev cur = some r := by
  induction fuel' with
  | zero =>
    intro fuel prev cur r hle h
    rwa [Nat.le_zero.1 hle] at h
  | succ n ih =>
    intro fuel prev cur r hle h
    cases fuel with
    | zero => cases h
    | succ fuel =>
      rw [findPrev] at h ⊢
      split at h
      · next hc => rw [if_pos hc]; exact ih (Nat.le_of_succ_le_succ hle) h
      · next hc => rw [if_neg hc]; exact h

theorem takePage_mono {fuel fuel' : Nat} (hle : fuel ≤ fuel') (h : s.takePage fuel i = some t) :
    s.takePage fuel' i = some t := by
  simp only [Pmm.takePage, Option.bind_eq_bind, Option.bind_eq_some_iff] at h ⊢
  obtain ⟨r, hr, h⟩ := h
  exact ⟨r, findPrev_mono hle hr, h⟩

theorem takePages_mono {fuel fuel' : Nat} (hle : fuel ≤ fuel') :
    ∀ {n : Nat} {i : UInt32} {s t : Pmm}, takePages fuel n i s = some t →
      takePages fuel' n i s = some t
  | 0, _, _, _, h => h
  | n + 1, i, s, t, h => by
    simp only [Pmm.takePages, Option.bind_eq_bind, Option.bind_eq_some_iff] at h ⊢
    obtain ⟨u, hu, h⟩ := h
    exact ⟨u, takePage_mono hle hu, takePages_mono hle h⟩

theorem pmmAllocContiguous_mono {fuel fuel' : Nat} {count : UInt32} {r : UInt32 × Pmm}
    (hle : fuel ≤ fuel') (h : s.pmmAllocContiguous fuel count = some r) :
    s.pmmAllocContiguous fuel' count = some r := by
  rw [Pmm.pmmAllocContiguous] at h ⊢
  split at h
  · next hz => rw [if_pos hz]; exact h
  · next hz =>
    rw [if_neg hz]
    split at h
    · exact h
    · simp only [Option.bind_eq_bind, Option.bind_eq_some_iff] at h ⊢
      obtain ⟨u, hu, h⟩ := h
      exact ⟨u, takePages_mono hle hu, h⟩

/-! The bitmap stays where it is. -/

theorem takePage_bitmap {fuel : Nat} (h : s.takePage fuel i = some t) : t.bitmap = s.bitmap := by
  simp only [Pmm.takePage, Option.bind_eq_bind, Option.bind_eq_some_iff] at h
  obtain ⟨⟨prev, cur⟩, -, h⟩ := h
  simp only [Option.pure_def, Option.some.injEq] at h
  subst h
  split
  · split <;> rfl
  · rfl

theorem takePages_bitmap {fuel : Nat} :
    ∀ {n : Nat} {i : UInt32} {s t : Pmm}, takePages fuel n i s = some t → t.bitmap = s.bitmap
  | 0, _, _, _, h => by cases h; rfl
  | n + 1, i, s, t, h => by
    simp only [Pmm.takePages, Option.bind_eq_bind, Option.bind_eq_some_iff] at h
    obtain ⟨u, hu, h⟩ := h
    exact (takePages_bitmap h).trans (takePage_bitmap hu)

theorem pmmAllocContiguous_bitmap {fuel : Nat} {count a : UInt32}
    (h : s.pmmAllocContiguous fuel count = some (a, t)) : t.bitmap = s.bitmap := by
  rw [Pmm.pmmAllocContiguous] at h
  split at h
  · cases h; rfl
  · split at h
    · cases h; rfl
    · simp only [Option.bind_eq_bind, Option.bind_eq_some_iff] at h
      obtain ⟨u, hu, h⟩ := h
      cases h
      exact takePages_bitmap hu

/-- `pmm_alloc_contiguous` returns, and takes either nothing or a run of free pages. -/
theorem Inv.pmmAllocContiguous (h : s.Inv xs) (count : UInt32) {fuel : Nat}
    (hfuel : s.totalPages.toNat < fuel) :
    s.pmmAllocContiguous fuel count = some (0, s) ∨
      ∃ i t, s.pmmAllocContiguous fuel count = some (indexToAddr i, t) ∧
        (∀ y, InRun i count.toNat y → y ∈ xs) ∧
        t.Inv (xs.filter fun y => ¬ InRun i count.toNat y) ∧
        t.bitmap = s.bitmap ∧ t.totalPages = s.totalPages := by
  rw [Pmm.pmmAllocContiguous]
  split
  · exact .inl rfl
  cases hfind : s.findContiguous count (s.totalPages.toNat + 1) 0 with
  | none => exact .inl rfl
  | some i =>
    right
    obtain ⟨hle, hfree⟩ := findContiguous_spec h.fits hfind
    have hpages := h.fits.pages
    have hin : ∀ y, InRun i count.toNat y → y ∈ xs := fun y hy => (h.mem_iff y).2 (hfree y hy)
    obtain ⟨t, ht, hinv, hb, hp⟩ := h.takePages hin (by omega) hfuel
    exact ⟨i, t, by simp [ht], hin, hinv, hb, hp⟩

end HaoSys.Mm.Pmm
