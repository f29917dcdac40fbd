import HaoSys.Mm.PmmInv
import HaoSys.Mm.Vmm

/-!
# Paging entries

The algebra of an entry (frame, present bit, user bit) and the frame rules of
entry stores: a store to a slot of one page changes that slot and nothing
else.
-/

namespace HaoSys.Mm

open HaoSys.Lib

/-! ## Fields of an entry -/

@[simp] theorem frameOf_mkEntry (p f : UInt32) : frameOf (mkEntry p f) = frameOf p := by
  have h1 : (f &&& 0xFFF) &&& 0xFFFFF000 = 0 := by
    rw [UInt32.and_assoc, show (0xFFF : UInt32) &&& 0xFFFFF000 = 0 by decide, UInt32.and_zero]
  have h2 : pagePresent &&& 0xFFFFF000 = 0 := by decide
  rw [frameOf, mkEntry, or_and_mask, or_and_mask, h1, h2, UInt32.or_zero, UInt32.or_zero,
    UInt32.and_assoc, UInt32.and_self, frameOf]

@[simp] theorem isPresent_mkEntry (p f : UInt32) : isPresent (mkEntry p f) = true := by
  have h1 : (f &&& 0xFFF) &&& pagePresent = f &&& 1 := by rw [UInt32.and_assoc]; rfl
  have h2 : (p &&& 0xFFFFF000) &&& pagePresent = 0 := by
    rw [UInt32.and_assoc, show (0xFFFFF000 : UInt32) &&& pagePresent = 0 by decide,
      UInt32.and_zero]
  have h3 : mkEntry p f &&& pagePresent = 1 := by
    rw [mkEntry, or_and_mask, or_and_mask, h1, h2, UInt32.zero_or,
      show pagePresent &&& pagePresent = 1 by decide]
    apply UInt32.toNat_inj.1
    rw [UInt32.toNat_or, UInt32.toNat_and, UInt32.toNat_one, Nat.and_one_is_mod]
    rcases Nat.mod_two_eq_zero_or_one f.toNat with h | h <;> rw [h] <;> rfl
  rw [isPresent, h3]
  rfl

@[simp] theorem frameOf_or_user (e : UInt32) : frameOf (e ||| pageUser) = frameOf e := by
  rw [frameOf, or_and_mask, show pageUser &&& 0xFFFFF000 = 0 by decide, UInt32.or_zero, frameOf]

@[simp] theorem isPresent_or_user (e : UInt32) : isPresent (e ||| pageUser) = isPresent e := by
  rw [isPresent, or_and_mask, show pageUser &&& pagePresent = 0 by decide, UInt32.or_zero,
    isPresent]

@[simp] theorem isPresent_zero : isPresent 0 = false := by decide

theorem frameOf_aligned (e : UInt32) : (frameOf e).toNat % 4096 = 0 := by
  have h : frameOf e &&& 0xFFF = 0 := by
    rw [frameOf, UInt32.and_assoc, show (0xFFFFF000 : UInt32) &&& 0xFFF = 0 by decide,
      UInt32.and_zero]
  have := congrArg UInt32.toNat h
  rwa [UInt32.toNat_and, show (0xFFF : UInt32).toNat = 2 ^ 12 - 1 by decide,
    Nat.and_two_pow_sub_one_eq_mod] at this

theorem offset_eq_zero {p : UInt32} (h : p.toNat % 4096 = 0) : p &&& 0xFFF = 0 := by
  apply UInt32.toNat_inj.1
  rw [UInt32.toNat_and, show (0xFFF : UInt32).toNat = 2 ^ 12 - 1 by decide,
    Nat.and_two_pow_sub_one_eq_mod]
  exact h

theorem frameOf_eq_self {p : UInt32} (h : p.toNat % 4096 = 0) : frameOf p = p := by
  have hsplit : p = (p &&& 0xFFFFF000) ||| (p &&& 0xFFF) := by
    apply UInt32.toBitVec_inj.1
    simp only [UInt32.toBitVec_and, UInt32.toBitVec_or]
    rw [← BitVec.and_or_distrib_left]
    exact (BitVec.and_allOnes (x := p.toBitVec)).symm
  rw [offset_eq_zero h, UInt32.or_zero] at hsplit
  exact hsplit.symm

/-! ## Indices -/

theorem shiftRight_toNat {v k : UInt32} (hk : k.toNat < 32) :
    (v >>> k).toNat = v.toNat / 2 ^ k.toNat := by
  rw [UInt32.toNat_shiftRight, Nat.mod_eq_of_lt hk, Nat.shiftRight_eq_div_pow]

theorem pdIndex_toNat (v : UInt32) : (pdIndex v).toNat = v.toNat / 2 ^ 22 :=
  shiftRight_toNat (by decide)

theorem ptIndex_toNat (v : UInt32) : (ptIndex v).toNat = v.toNat / 2 ^ 12 % 1024 := by
  rw [ptIndex, UInt32.toNat_and, show (0x3FF : UInt32).toNat = 2 ^ 10 - 1 by decide,
    Nat.and_two_pow_sub_one_eq_mod, shiftRight_toNat (by decide)]
  rfl

theorem pdIndex_lt (v : UInt32) : (pdIndex v).toNat < 1024 := by
  have := v.toNat_lt
  rw [pdIndex_toNat]
  omega

theorem ptIndex_lt (v : UInt32) : (ptIndex v).toNat < 1024 := by
  rw [ptIndex_toNat]
  omega

/-- Rounding an address down to its page. -/
theorem page_toNat (v : UInt32) : (v &&& 0xFFFFF000).toNat = v.toNat / 4096 * 4096 := by
  have h1 := frameOf_aligned v
  have hsplit : v.toNat = (v &&& 0xFFFFF000).toNat + v.toNat % 4096 := by
    have h2 : (v &&& 0xFFFFF000) + (v &&& 0xFFF) = v := by
      have hd : (v &&& 0xFFFFF000).toBitVec &&& (v &&& 0xFFF).toBitVec = 0#32 := by
        have : (v &&& 0xFFFFF000) &&& (v &&& 0xFFF) = 0 := by
          rw [UInt32.and_comm v 0xFFF, ← UInt32.and_assoc, UInt32.and_assoc v,
            show (0xFFFFF000 : UInt32) &&& 0xFFF = 0 by decide, UInt32.and_zero, UInt32.zero_and]
        exact congrArg UInt32.toBitVec this
      apply UInt32.toBitVec_inj.1
      rw [UInt32.toBitVec_add, BitVec.add_eq_or_of_and_eq_zero _ _ hd]
      simp only [UInt32.toBitVec_and]
      rw [← BitVec.and_or_distrib_left]
      exact BitVec.and_allOnes (x := v.toBitVec)
    have h3 : (v &&& 0xFFF).toNat = v.toNat % 4096 := by
      rw [UInt32.toNat_and, show (0xFFF : UInt32).toNat = 2 ^ 12 - 1 by decide,
        Nat.and_two_pow_sub_one_eq_mod]
    have h4 := congrArg UInt32.toNat h2
    have h5 := v.toNat_lt
    have h6 : (v &&& 0xFFFFF000).toNat ≤ v.toNat := by
      rw [UInt32.toNat_and]; exact Nat.and_le_left
    rw [UInt32.toNat_add, h3] at h4
    simp only [frameOf] at h1
    omega
  simp only [frameOf] at h1
  omega

@[simp] theorem pdIndex_page (v : UInt32) : pdIndex (v &&& 0xFFFFF000) = pdIndex v := by
  apply UInt32.toNat_inj.1
  rw [pdIndex_toNat, pdIndex_toNat, page_toNat]
  omega

@[simp] theorem ptIndex_page (v : UInt32) : ptIndex (v &&& 0xFFFFF000) = ptIndex v := by
  apply UInt32.toNat_inj.1
  rw [ptIndex_toNat, ptIndex_toNat, page_toNat]
  omega

/-! ## Slots of a page -/

section

variable {m : Mem} {a b i j : UInt32}

theorem slot_toNat (ha : a.toNat % 4096 = 0) (hi : i.toNat < 1024) :
    (a + 4 * i).toNat = a.toNat + 4 * i.toNat := by
  have := a.toNat_lt
  simp only [UInt32.toNat_add, UInt32.toNat_mul, UInt32.reduceToNat]
  omega

theorem slot_page (ha : a.toNat % 4096 = 0) (hi : i.toNat < 1024) :
    addrToIndex (a + 4 * i) = addrToIndex a := by
  apply UInt32.toNat_inj.1
  rw [addrToIndex_toNat, addrToIndex_toNat, slot_toNat ha hi]
  omega

/-- Distinct aligned addresses lie in distinct pages. -/
theorem page_ne (ha : a.toNat % 4096 = 0) (hb : b.toNat % 4096 = 0) (hne : b ≠ a) :
    addrToIndex b ≠ addrToIndex a := fun e => hne (UInt32.toNat_inj.1 (by
  have := congrArg UInt32.toNat e
  rw [addrToIndex_toNat, addrToIndex_toNat] at this
  omega))

/-- The slots of a page depend on that page's bytes only. -/
theorem entryAt_congr {m' : Mem} (hb : b.toNat % 4096 = 0) (hj : j.toNat < 1024)
    (h : ∀ c, addrToIndex c = addrToIndex b → m' c = m c) : entryAt m' b j = entryAt m b j := by
  have hpage : ∀ c, InWord (b + 4 * j) c → addrToIndex c = addrToIndex b := fun c hc => by
    have h1 := hc.page_eq (by rw [slot_toNat hb hj]; omega)
    have h2 := slot_page hb hj
    apply UInt32.toNat_inj.1
    rw [← h2, addrToIndex_toNat, addrToIndex_toNat]
    exact h1
  simp only [entryAt, load32]
  rw [h _ (hpage _ (.inl rfl)), h _ (hpage _ (.inr (.inl rfl))),
    h _ (hpage _ (.inr (.inr (.inl rfl)))), h _ (hpage _ (.inr (.inr (.inr rfl))))]

/-- An entry store leaves the bytes of the other pages. -/
theorem storeEntry_apply {e c : UInt32} (ha : a.toNat % 4096 = 0) (hi : i.toNat < 1024)
    (hc : addrToIndex c ≠ addrToIndex a) : storeEntry m a i e c = m c := by
  refine store32_apply_of_not_inWord fun hin => hc (UInt32.toNat_inj.1 ?_)
  have h1 := hin.page_eq (by rw [slot_toNat ha hi]; omega)
  rw [addrToIndex_toNat, addrToIndex_toNat, h1, slot_toNat ha hi]
  omega

theorem entryAt_storeEntry {e : UInt32} (ha : a.toNat % 4096 = 0) (hb : b.toNat % 4096 = 0)
    (hi : i.toNat < 1024) (hj : j.toNat < 1024) :
    entryAt (storeEntry m a i e) b j = if b = a ∧ j = i then e else entryAt m b j := by
  by_cases hsame : b + 4 * j = a + 4 * i
  · have h1 := congrArg UInt32.toNat hsame
    rw [slot_toNat hb hj, slot_toNat ha hi] at h1
    have hba : b = a := UInt32.toNat_inj.1 (by omega)
    have hji : j = i := UInt32.toNat_inj.1 (by subst hba; omega)
    rw [if_pos ⟨hba, hji⟩, entryAt, storeEntry, hsame, load32_store32_self]
  · rw [if_neg (fun ⟨h1, h2⟩ => hsame (by rw [h1, h2])), entryAt, storeEntry]
    exact load32_store32_of_aligned_ne (by rw [slot_toNat hb hj]; omega)
      (by rw [slot_toNat ha hi]; omega) hsame

theorem entryAt_storeEntry_self (m : Mem) (a i e : UInt32) : entryAt (storeEntry m a i e) a i = e :=
  load32_store32_self ..

theorem entryAt_storeEntry_of_ne {e : UInt32} (ha : a.toNat % 4096 = 0) (hb : b.toNat % 4096 = 0)
    (hi : i.toNat < 1024) (hj : j.toNat < 1024) (hne : b ≠ a) :
    entryAt (storeEntry m a i e) b j = entryAt m b j := by
  rw [entryAt_storeEntry ha hb hi hj, if_neg (fun h => hne h.1)]

theorem zeroMemory_apply_other {c : UInt32} (ha : a.toNat % 4096 = 0)
    (hc : addrToIndex c ≠ addrToIndex a) : zeroMemory m a 4096 c = m c := by
  rw [zeroMemory, if_neg]
  intro hlt
  apply hc
  apply UInt32.toNat_inj.1
  have := a.toNat_lt; have := c.toNat_lt
  rw [UInt32.toNat_sub] at hlt
  rw [addrToIndex_toNat, addrToIndex_toNat]
  omega

theorem entryAt_zeroMemory (ha : a.toNat % 4096 = 0) (hj : j.toNat < 1024) :
    entryAt (zeroMemory m a 4096) a j = 0 := by
  have hz : ∀ k : UInt32, k.toNat < 4 → zeroMemory m a 4096 (a + 4 * j + k) = 0 := fun k hk => by
    rw [zeroMemory, if_pos]
    have := a.toNat_lt
    rw [UInt32.toNat_sub, UInt32.toNat_add, slot_toNat ha hj]
    omega
  have h0 := hz 0 (by decide)
  rw [UInt32.add_zero] at h0
  rw [entryAt, load32, h0, hz 1 (by decide), hz 2 (by decide), hz 3 (by decide)]
  rfl

end

end HaoSys.Mm
