import HaoSys.Mm.VmmLaws

/-!
# The identity map

`vmm_init` fills the kernel's directory slot by slot. After `n` tables the state is
`IdentityBelow n`: slot `i < n` holds a table whose entries are `identityEntry`, and the slots
from `n` on are empty. One turn of the loop takes it from `n` to `n + 1`, since the table is a
page no earlier slot points to.
-/

namespace HaoSys.Mm.Vmm

open HaoSys.Lib

variable {v w : Vmm} {xs : List UInt32} {i j t pt memSize : UInt32}

/-- What `vmm_init` leaves in entry `j` of identity table `i`. -/
def identityEntry (memSize i j : UInt32) : UInt32 :=
  let phys := i * 1024 * 4096 + j * 4096
  if phys < memSize then mkEntry phys pageWrite else 0

/-- The first `n` slots of the kernel's directory hold identity tables, the others are empty. -/
structure IdentityBelow (v : Vmm) (n : Nat) : Prop where
  table : ∀ i : UInt32, i.toNat < n → ∃ t, t.toNat % 4096 = 0 ∧
    entryAt v.mem v.kernelPageDirectory i = mkEntry t pageWrite ∧
    ∀ j : UInt32, j.toNat < 1024 → entryAt v.mem t j = identityEntry v.pmm.totalMemory i j
  empty : ∀ i : UInt32, n ≤ i.toNat → i.toNat < 1024 → entryAt v.mem v.kernelPageDirectory i = 0

/-- The pages for the tables are on the free list, and none of them is page 0. -/
def Supplies (xs : List UInt32) (n : Nat) : Prop := n ≤ xs.length ∧ 0 ∉ xs.take n

/-! ## One table -/

theorem identityPhys_toNat (hi : i.toNat < 1024) (hj : j.toNat < 1024) :
    (i * 1024 * 4096 + j * 4096).toNat = i.toNat * 2 ^ 22 + j.toNat * 4096 := by
  simp only [UInt32.toNat_add, UInt32.toNat_mul, UInt32.reduceToNat]
  omega

/-- The inner loop writes the entries from `j` on that lie in physical memory. -/
theorem entryAt_fillIdentity (hpt : pt.toNat % 4096 = 0) (hi : i.toNat < 1024) {k : UInt32}
    (hk : k.toNat < 1024) :
    ∀ {n : Nat} {j : UInt32} {m : Mem}, j.toNat + n = 1024 →
      entryAt (fillIdentity memSize pt (i * 1024 * 4096) n j m) pt k =
        if j ≤ k ∧ i * 1024 * 4096 + k * 4096 < memSize then
          mkEntry (i * 1024 * 4096 + k * 4096) pageWrite
        else entryAt m pt k
  | 0, j, m, hn => by
    rw [fillIdentity, if_neg]
    rintro ⟨hle, -⟩
    have := UInt32.le_iff_toNat_le.1 hle
    omega
  | n + 1, j, m, hn => by
    have hj : j.toNat < 1024 := by omega
    have hsucc : (j + 1).toNat = j.toNat + 1 := by
      rw [UInt32.toNat_add, UInt32.toNat_one]; omega
    have hphysj := identityPhys_toNat hi hj
    have hphysk := identityPhys_toNat hi hk
    rw [fillIdentity]
    split
    · next hge =>
      -- the `break`: the later entries lie beyond physical memory as well
      rw [if_neg]
      rintro ⟨hle, hlt⟩
      have h1 := UInt32.le_iff_toNat_le.1 hge
      have h2 := UInt32.le_iff_toNat_le.1 hle
      have h3 := UInt32.lt_iff_toNat_lt.1 hlt
      omega
    · next hlt =>
      rw [entryAt_fillIdentity hpt hi hk (by omega)]
      by_cases hkj : k = j
      · subst hkj
        rw [if_neg (fun h => by have := UInt32.le_iff_toNat_le.1 h.1; omega),
          entryAt_storeEntry_self, if_pos ⟨UInt32.le_refl _, UInt32.not_le.1 hlt⟩]
      · have hiff : j + 1 ≤ k ↔ j ≤ k := by
          have : k.toNat ≠ j.toNat := fun e => hkj (UInt32.toNat_inj.1 e)
          rw [UInt32.le_iff_toNat_le, UInt32.le_iff_toNat_le]
          omega
        have hstore : entryAt (storeEntry m pt j (mkEntry (i * 1024 * 4096 + j * 4096) pageWrite))
            pt k = entryAt m pt k := by
          rw [entryAt_storeEntry hpt hpt hj hk, if_neg fun h => hkj h.2]
        rw [hstore]
        simp only [hiff]

/-! ## One turn -/

/-- A turn of the loop: the table for slot `i` is built and installed. -/
theorem Inv.identityTurn {x : UInt32} (h : v.Inv [] (x :: xs)) (hx : x ≠ 0)
    (hi : i.toNat < 1024) (hbelow : v.IdentityBelow i.toNat) (n : Nat) :
    ∃ w, Vmm.identityTables (n + 1) i v = Vmm.identityTables n (i + 1) w ∧ v.SameBoot w ∧
      w.Inv [] xs ∧ w.IdentityBelow (i.toNat + 1) := by
  obtain ⟨pt, u, halloc, hpteq, hinv, hkeep, hfresh⟩ := h.allocatePt
  have hz : pt ≠ 0 := fun e => by
    have haddr := indexToAddr_toNat (h.pmm.fits.lt (h.pmm.lt List.mem_cons_self))
    rw [e, List.headD_cons] at hpteq
    rw [← hpteq, UInt32.toNat_zero] at haddr
    exact hx (UInt32.toNat_inj.1 (by rw [UInt32.toNat_zero]; omega))
  obtain ⟨hfr, hother, hzero⟩ := hfresh hz
  have hpt := hfr.inUse.aligned
  have hkdir := (h.dir _ List.mem_cons_self).2
  have hkal : u.kernelPageDirectory.toNat % 4096 = 0 := by rw [hkeep.boot.1]; exact hkdir.aligned
  have hkne : u.kernelPageDirectory ≠ pt := fun e => hfr.notDir (e ▸ List.mem_cons_self)
  have hmem : u.pmm.totalMemory = v.pmm.totalMemory := hkeep.boot.2.2
  rw [Vmm.identityTables, halloc]
  simp only [if_neg hz]
  generalize hm : fillIdentity u.pmm.totalMemory pt (i * 1024 * 4096) 1024 0 u.mem = m
  obtain ⟨hinv1, hfr1, hsame⟩ := hinv.writeFresh hfr (m := m)
    fun c hc => by rw [← hm]; exact fillIdentity_apply hpt hc (by decide)
  have hkal1 : (u.setMem m).kernelPageDirectory.toNat % 4096 = 0 := hkal
  -- the slots of the directory, before the table goes in
  have hslot : ∀ j : UInt32, j.toNat < 1024 → entryAt m u.kernelPageDirectory j =
      entryAt v.mem v.kernelPageDirectory j := fun j hj => by
    rw [hsame _ hkne hkal j hj, hkeep.boot.1]
    exact hkeep.entry _ hkdir j hj
  have hempty : tableOf m u.kernelPageDirectory i = none := by
    rw [tableOf, hslot i hi, hbelow.empty i (Nat.le_refl _) hi, isPresent_zero,
      if_neg fun hc => Bool.noConfusion hc.2]
  refine ⟨_, rfl, hkeep.boot.trans (sameBoot_setMem ..),
    hinv1.install List.mem_cons_self hi hempty hfr1 pageWrite, ⟨fun k hk => ?_, fun k hlo hk => ?_⟩⟩
  · change ∃ t, _ ∧ entryAt (storeEntry m u.kernelPageDirectory i (mkEntry pt pageWrite))
      u.kernelPageDirectory k = _ ∧ ∀ j : UInt32, _ → entryAt (storeEntry m u.kernelPageDirectory i
        (mkEntry pt pageWrite)) t j = identityEntry u.pmm.totalMemory k j
    by_cases hki : k = i
    · -- the new table: a zeroed page, filled by the inner loop
      subst hki
      refine ⟨pt, hpt, entryAt_storeEntry_self .., fun j hj => ?_⟩
      rw [entryAt_storeEntry_of_ne hkal hpt hi hj hkne.symm, ← hm,
        entryAt_fillIdentity hpt hi hj (by decide), hzero j hj, identityEntry]
      simp only [show (0 : UInt32) ≤ j from UInt32.le_iff_toNat_le.2 (Nat.zero_le _), true_and]
    · have hkne' : k.toNat ≠ i.toNat := fun e => hki (UInt32.toNat_inj.1 e)
      obtain ⟨t, ht, hpde, hentries⟩ := hbelow.table k (by omega)
      have htab : tableOf v.mem v.kernelPageDirectory k = some t :=
        tableOf_eq_some.2 ⟨by omega, by rw [hpde, isPresent_mkEntry],
          by rw [hpde, frameOf_mkEntry, frameOf_eq_self ht]⟩
      obtain ⟨huse, hnd⟩ := h.table _ List.mem_cons_self _ _ htab
      have htk : t ≠ u.kernelPageDirectory := fun e =>
        hnd (by rw [e, hkeep.boot.1]; exact List.mem_cons_self)
      refine ⟨t, ht, ?_, fun j hj => ?_⟩
      · rw [entryAt_storeEntry hkal hkal hi (by omega), if_neg fun hc => hki hc.2,
          hslot k (by omega), hpde]
      · rw [entryAt_storeEntry_of_ne hkal ht hi hj htk, hsame t (hother t huse) ht j hj,
          hkeep.entry t huse j hj, hentries j hj, hmem]
  · change entryAt (storeEntry m u.kernelPageDirectory i (mkEntry pt pageWrite))
      u.kernelPageDirectory k = 0
    have hki : k ≠ i := by rintro rfl; omega
    rw [entryAt_storeEntry hkal hkal hi hk, if_neg fun hc => hki hc.2, hslot k hk]
    exact hbelow.empty k (by omega) hk

/-- The loop builds all its tables when the allocator supplies them. -/
theorem Inv.identityTables_below :
    ∀ {n : Nat} {i : UInt32} {v : Vmm} {xs : List UInt32}, v.Inv [] xs → i.toNat + n ≤ 1024 →
      Supplies xs n → v.IdentityBelow i.toNat →
      (Vmm.identityTables n i v).1 = true ∧ v.SameBoot (Vmm.identityTables n i v).2 ∧
        (Vmm.identityTables n i v).2.IdentityBelow (i.toNat + n)
  | 0, i, v, xs, _, _, _, hbelow => ⟨rfl, .refl v, hbelow⟩
  | n + 1, i, v, [], _, _, hsup, _ => absurd hsup.1 (by simp)
  | n + 1, i, v, x :: xs, h, hn, hsup, hbelow => by
    have hsucc : (i + 1).toNat = i.toNat + 1 := by
      rw [UInt32.toNat_add, UInt32.toNat_one]; omega
    have hx : x ≠ 0 := fun e => hsup.2 (by rw [e, List.take_succ_cons]; exact List.mem_cons_self)
    have hsup' : Supplies xs n :=
      ⟨by have := hsup.1; simpa using this,
        fun hm => hsup.2 (by rw [List.take_succ_cons]; exact List.mem_cons_of_mem _ hm)⟩
    obtain ⟨w, heq, hboot, hinv, hbelow'⟩ := h.identityTurn hx (by omega) hbelow n
    obtain ⟨hok, hboot', hbelow''⟩ := hinv.identityTables_below (n := n) (i := i + 1) (by omega)
      hsup' (by rwa [hsucc])
    rw [heq]
    exact ⟨hok, hboot.trans hboot', by rwa [hsucc, Nat.add_right_comm, Nat.add_assoc] at hbelow''⟩

/-! ## The translation -/

/-- An address is its page and its offset. -/
theorem page_or_offset (a : UInt32) : (a &&& 0xFFFFF000) ||| (a &&& 0xFFF) = a := by
  apply UInt32.toBitVec_inj.1
  simp only [UInt32.toBitVec_and, UInt32.toBitVec_or]
  rw [← BitVec.and_or_distrib_left]
  exact BitVec.and_allOnes (x := a.toBitVec)

/-- The physical address that `vmm_init` computes for the slots of `a` is the page of `a`. -/
theorem identityPhys_page (a : UInt32) :
    pdIndex a * 1024 * 4096 + ptIndex a * 4096 = a &&& 0xFFFFF000 := by
  apply UInt32.toNat_inj.1
  rw [identityPhys_toNat (pdIndex_lt a) (ptIndex_lt a), page_toNat, pdIndex_toNat, ptIndex_toNat]
  omega

theorem mkEntry_pageWrite_noUser (p : UInt32) : mkEntry p pageWrite &&& pageUser = 0 := by
  have h1 : p &&& 0xFFFFF000 &&& pageUser = 0 := by
    rw [UInt32.and_assoc, show (0xFFFFF000 : UInt32) &&& pageUser = 0 by decide, UInt32.and_zero]
  rw [mkEntry, or_and_mask, or_and_mask, h1]
  decide

theorem identityEntry_noUser (memSize i j : UInt32) :
    identityEntry memSize i j &&& pageUser = 0 := by
  rw [identityEntry]
  split
  · exact mkEntry_pageWrite_noUser _
  · exact UInt32.zero_and

/-- The translation through identity tables. -/
theorem IdentityBelow.translate {n : Nat} (h : v.IdentityBelow n) (a : UInt32) :
    v.translate v.kernelPageDirectory a =
      if (pdIndex a).toNat < n ∧ (a &&& 0xFFFFF000) < v.pmm.totalMemory then some a else none := by
  have hpd := pdIndex_lt a
  by_cases hn : (pdIndex a).toNat < n
  · obtain ⟨t, ht, hpde, hentries⟩ := h.table _ hn
    have htab : tableOf v.mem v.kernelPageDirectory (pdIndex a) = some t :=
      tableOf_eq_some.2 ⟨hpd, by rw [hpde, isPresent_mkEntry],
        by rw [hpde, frameOf_mkEntry, frameOf_eq_self ht]⟩
    rw [translate_of_tableOf htab, hentries _ (ptIndex_lt a), identityEntry]
    simp only [identityPhys_page, hn, true_and]
    split
    · rw [isPresent_mkEntry, if_pos rfl, frameOf_mkEntry, frameOf_eq_self, page_or_offset]
      rw [page_toNat]
      omega
    · rw [isPresent_zero]
      rfl
  · have hnone : tableOf v.mem v.kernelPageDirectory (pdIndex a) = none := by
      rw [tableOf, h.empty _ (Nat.le_of_not_lt hn) hpd, isPresent_zero,
        if_neg fun hc => Bool.noConfusion hc.2]
    rw [translate_eq, hnone, if_neg fun hc => hn hc.1]
    rfl

/-- No entry of the directory or of a table in it carries `PAGE_USER`. -/
theorem IdentityBelow.noUser {n : Nat} (h : v.IdentityBelow n) (hi : i.toNat < 1024) :
    entryAt v.mem v.kernelPageDirectory i &&& pageUser = 0 ∧
      ∀ t, tableOf v.mem v.kernelPageDirectory i = some t →
        ∀ j : UInt32, j.toNat < 1024 → entryAt v.mem t j &&& pageUser = 0 := by
  by_cases hn : i.toNat < n
  · obtain ⟨t, ht, hpde, hentries⟩ := h.table i hn
    refine ⟨by rw [hpde]; exact mkEntry_pageWrite_noUser t, fun u hu j hj => ?_⟩
    obtain ⟨-, -, hframe⟩ := tableOf_eq_some.1 hu
    rw [hpde, frameOf_mkEntry, frameOf_eq_self ht] at hframe
    rw [← hframe, hentries j hj]
    exact identityEntry_noUser _ i j
  · have hzero := h.empty i (Nat.le_of_not_lt hn) hi
    refine ⟨by rw [hzero]; exact UInt32.zero_and, fun u hu => ?_⟩
    obtain ⟨-, hp, -⟩ := tableOf_eq_some.1 hu
    rw [hzero, isPresent_zero] at hp
    cases hp

/-- `vmm_init` builds the identity tables of all of physical memory. -/
theorem vmmInit_identityBelow {s : Pmm} {k : UInt32} (hs : s.Inv xs) (hk : s.InUse xs k)
    (hz : k ≠ 0) (hsup : Supplies xs (identityCount s)) :
    (vmmInit ⟨s, k, 0⟩).kernelPageDirectory = k ∧
      (vmmInit ⟨s, k, 0⟩).pmm.totalMemory = s.totalMemory ∧
      (vmmInit ⟨s, k, 0⟩).IdentityBelow (identityCount s) := by
  obtain ⟨hinv, -⟩ := inv_cleared hs hk hz
  obtain ⟨hboot, -⟩ := vmmInit_inv hs hk hz
  obtain ⟨cur, heq⟩ := vmmInit_eq (v := ⟨s, k, 0⟩) rfl
  have hle : identityCount s ≤ 1024 := by
    have := s.totalMemory.toNat_lt
    simp only [identityCount]
    omega
  obtain ⟨-, -, hbelow⟩ := hinv.identityTables_below (n := identityCount s) (i := 0)
    (by simpa using hle) hsup
    ⟨fun i hi => absurd hi (by simp), fun i _ hi => entryAt_zeroMemory hk.aligned hi⟩
  refine ⟨hboot.1, hboot.2.2, ?_⟩
  rw [heq]
  rw [UInt32.toNat_zero, Nat.zero_add] at hbelow
  exact ⟨hbelow.table, hbelow.empty⟩

/-- **The identity map of `vmm_init`**, for an allocator with a page for every table: the pages
below the end of physical memory are mapped to themselves, the ones from it on are unmapped, and
nothing is open to user mode. -/
theorem vmm_init_identity {s : Pmm} {k : UInt32} (hs : s.Inv xs) (hk : s.InUse xs k)
    (hz : k ≠ 0) (hsup : Supplies xs (identityCount s)) :
    (vmmInit ⟨s, k, 0⟩).kernelPageDirectory = k ∧
    (∀ a : UInt32, (a.toNat / 4096 + 1) * 4096 ≤ s.totalMemory.toNat →
      (vmmInit ⟨s, k, 0⟩).translate k a = some a) ∧
    (∀ a : UInt32, s.totalMemory.toNat ≤ a.toNat / 4096 * 4096 →
      (vmmInit ⟨s, k, 0⟩).translate k a = none) ∧
    (∀ a p, (vmmInit ⟨s, k, 0⟩).translate k a = some p → p = a) ∧
    ∀ i : UInt32, i.toNat < 1024 → entryAt (vmmInit ⟨s, k, 0⟩).mem k i &&& pageUser = 0 ∧
      ∀ t, tableOf (vmmInit ⟨s, k, 0⟩).mem k i = some t →
        ∀ j : UInt32, j.toNat < 1024 → entryAt (vmmInit ⟨s, k, 0⟩).mem t j &&& pageUser = 0 := by
  obtain ⟨hdir, htotal, hbelow⟩ := vmmInit_identityBelow hs hk hz hsup
  have htr := hbelow.translate
  simp only [hdir, htotal] at htr
  refine ⟨hdir, fun a ha => ?_, fun a ha => ?_, fun a p hp => ?_, fun i hi => ?_⟩
  · rw [htr, if_pos]
    refine ⟨?_, UInt32.lt_iff_toNat_lt.2 (by rw [page_toNat]; omega)⟩
    rw [pdIndex_toNat, identityCount]
    omega
  · rw [htr, if_neg]
    rintro ⟨-, hlt⟩
    have := UInt32.lt_iff_toNat_lt.1 hlt
    rw [page_toNat] at this
    omega
  · rw [htr, Option.ite_none_right_eq_some] at hp
    exact (Option.some.inj hp.2).symm
  · have := hbelow.noUser hi
    rwa [hdir] at this

/-- On the small machine one table is enough: the last page below its end is mapped, the next
one is not. -/
theorem vmm_init_identity_small :
    (vmmInit ⟨smallPmm, 0x101000, 0⟩).translate 0x101000 0x10FFFF = some 0x10FFFF ∧
      (vmmInit ⟨smallPmm, 0x101000, 0⟩).translate 0x101000 0x110000 = none := by
  obtain ⟨hb, xs, hs, himg⟩ := Pmm.pmmInit_inv smallLayout.room smallPmm_init
  obtain ⟨hfree, htotal, hbit⟩ := smallPmm_facts
  have hcount : identityCount smallPmm = 1 := by rw [identityCount, htotal]; decide
  have hlen := hs.count
  rw [hfree] at hlen
  have hsup : Supplies xs (identityCount smallPmm) := by
    rw [hcount]
    refine ⟨by rw [← hlen]; decide, fun hm => ?_⟩
    have := ((hs.mem_iff 0).1 (List.mem_of_mem_take hm)).2
    rw [hbit] at this
    cases this
  obtain ⟨-, hbelow, habove, -⟩ :=
    vmm_init_identity hs (smallLayout.inUse hb himg) smallLayout.ne_zero hsup
  exact ⟨hbelow _ (by rw [htotal]; decide), habove _ (by rw [htotal]; decide)⟩

end HaoSys.Mm.Vmm
