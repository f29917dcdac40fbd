import HaoSys.Fs.Fat

/-!
# Accesses that return

Every access to the sector buffer that the FAT routines make lies inside it,
for every cluster number and on every device with 512-byte sectors: reading
and writing an entry, and freeing a chain, return whatever the device answers.
-/

namespace HaoSys.Fs

open HaoSys.Lib Prog

/-- `x` returns a value with `Q`. -/
def Total {α : Type} (x : FatM α) (Q : α → Prop) : Prop :=
  Triple (fun _ => False) (fun _ => True) x fun a _ => Q a

namespace Total

variable {α β : Type} {x : FatM α} {Q : α → Prop}

theorem pure {a : α} (h : Q a) : Total (Pure.pure a) Q := Triple.pure fun _ _ => h

theorem bind {f : α → FatM β} {R : β → Prop} (hx : Total x Q) (hf : ∀ a, Q a → Total (f a) R) :
    Total (x >>= f) R :=
  Triple.bind hx fun a s hQ => hf a hQ s trivial

theorem ite {c : Prop} [Decidable c] {y : FatM α} (h1 : c → Total x Q) (h2 : ¬ c → Total y Q) :
    Total (if c then x else y) Q := Triple.ite h1 h2

theorem run (h : Total x Q) (s : FatState) : ∃ a t, x s = .ok (a, t) ∧ Q a := by
  have hs := h s trivial
  cases hx : x s with
  | error e =>
    rw [hx] at hs
    cases hs
  | ok r =>
    rw [hx] at hs
    exact ⟨r.1, r.2, rfl, hs⟩

end Total

variable {fs : FatFs}

theorem toNat_of_bytesPerSector (h : fs.bytesPerSector = 512) : fs.bytesPerSector.toNat = 512 := by
  rw [h]
  rfl

/-! ## Accesses -/

theorem total_fatDevRead (fs : FatFs) (lba : UInt32) :
    Total (fatDevRead fs lba) fun _ => True := by
  intro s _
  by_cases hr : s.disk.readable (fs.baseLba + lba) = true <;> simp [fatDevRead, hr]

theorem total_fatDevWrite (fs : FatFs) (lba : UInt32) :
    Total (fatDevWrite fs lba) fun _ => True := by
  intro s _
  by_cases hw : s.disk.writable s.disk.writes (fs.baseLba + lba) = true <;> simp [fatDevWrite, hw]

theorem total_bufRead {α : Type} {o w : Nat} (h : o + w ≤ 512) (f : Sector → α) :
    Total (bufRead o w f) fun _ => True := by
  intro s _
  simp only [bufRead, if_pos h]

theorem total_bufWrite {o w : Nat} (h : o + w ≤ 512) (f : Sector → Sector) :
    Total (bufWrite o w f) fun _ => True := by
  intro s _
  simp only [bufWrite, if_pos h]

theorem total_udiv {a b : UInt32} (h : b ≠ 0) : Total (udiv a b) fun q => q = a / b := by
  rw [udiv, if_neg h]
  exact .pure rfl

/-- A place in the FAT has its offset inside the sector, as aligned as the FAT offset is. -/
theorem total_fatPlace (h : fs.bytesPerSector = 512) (off : UInt32) :
    Total (fatPlace fs off) fun p => p.1.toNat = off.toNat % 512 :=
  .bind (total_udiv (by rw [h]; decide)) fun _ _ => .pure (by
    rw [UInt32.toNat_mod, toNat_of_bytesPerSector h])

/-! ## FAT entries -/

theorem total_readFatEntry (h : fs.bytesPerSector = 512) (c : UInt32) :
    Total (readFatEntry fs c) fun _ => True := by
  unfold readFatEntry
  cases hty : fs.fsType with
  | unknown => exact .pure trivial
  | fat12 =>
    refine .bind (total_fatPlace h _) ?_
    rintro ⟨off, sec⟩ hoff
    have hlt : off.toNat < 512 := by
      simp only at hoff
      omega
    refine .ite (fun hin => ?_) fun _ => ?_
    · rw [UInt32.lt_iff_toNat_lt, UInt32.toNat_add, toNat_of_bytesPerSector h,
        UInt32.toNat_one] at hin
      refine .bind (total_fatDevRead fs sec) fun ok _ => .ite (fun _ => ?_) fun _ => .pure trivial
      exact .bind (total_bufRead (by omega) _) fun _ _ => .pure trivial
    · refine .bind (total_fatDevRead fs sec) fun ok _ => .ite (fun _ => ?_) fun _ => .pure trivial
      refine .bind (total_bufRead (by omega) _) fun b0 _ => ?_
      refine .bind (total_fatDevRead fs (sec + 1)) fun ok _ => .ite (fun _ => ?_)
        fun _ => .pure trivial
      exact .bind (total_bufRead (by omega) _) fun _ _ => .pure trivial
  | fat16 =>
    refine .bind (total_fatPlace h _) ?_
    rintro ⟨off, sec⟩ hoff
    refine .bind (total_fatDevRead fs sec) fun ok _ => .ite (fun _ => ?_) fun _ => .pure trivial
    refine total_bufRead ?_ _
    simp only [fatOffset, hty, UInt32.toNat_mul, UInt32.reduceToNat] at hoff
    omega
  | fat32 =>
    refine .bind (total_fatPlace h _) ?_
    rintro ⟨off, sec⟩ hoff
    refine .bind (total_fatDevRead fs sec) fun ok _ => .ite (fun _ => ?_) fun _ => .pure trivial
    refine total_bufRead ?_ _
    simp only [fatOffset, hty, UInt32.toNat_mul, UInt32.reduceToNat] at hoff
    omega

theorem total_writeMirrored (fs : FatFs) (sec : UInt32) :
    Total (writeMirrored fs sec) fun _ => True :=
  .bind (total_fatDevWrite fs sec) fun _ _ =>
    .bind (total_fatDevWrite fs _) fun _ _ => .pure trivial

/-- Writing an entry returns if the entries of a FAT12 that cross sectors make no difference. -/
theorem total_writeFatEntry_of [BehindBuffer] (h : fs.bytesPerSector = 512)
    (hbehind : fs.fsType = .fat12 → Total BehindBuffer.read fun _ => True) (c v : UInt32) :
    Total (writeFatEntry fs c v) fun _ => True := by
  unfold writeFatEntry
  cases hty : fs.fsType with
  | unknown => exact .pure trivial
  | fat12 =>
    refine .bind (total_fatPlace h _) ?_
    rintro ⟨off, sec⟩ hoff
    have hlt : off.toNat < 512 := by
      simp only at hoff
      omega
    refine .ite (fun hin => ?_) fun _ => ?_
    · rw [UInt32.lt_iff_toNat_lt, UInt32.toNat_add, toNat_of_bytesPerSector h,
        UInt32.toNat_one] at hin
      refine .bind (total_fatDevRead fs sec) fun ok _ => .ite (fun _ => ?_) fun _ => .pure trivial
      exact .bind (total_bufWrite (by omega) _) fun _ _ => total_writeMirrored fs sec
    · refine .bind (total_fatDevRead fs sec) fun ok _ => .ite (fun _ => ?_) fun _ => .pure trivial
      refine .bind (total_bufRead (by omega) _) fun b0 _ => ?_
      refine .bind (hbehind hty) fun _ _ => ?_
      refine .bind (total_fatDevRead fs (sec + 1)) fun ok _ => .ite (fun _ => ?_)
        fun _ => .pure trivial
      refine .bind (total_bufRead (by omega) _) fun b1 _ => ?_
      refine .bind (total_bufWrite (by omega) _) fun _ _ => ?_
      refine .bind (total_writeMirrored fs sec) fun _ _ => ?_
      refine .bind (total_fatDevRead fs (sec + 1)) fun ok _ => .ite (fun _ => ?_)
        fun _ => .pure trivial
      exact .bind (total_bufWrite (by omega) _) fun _ _ => total_writeMirrored fs _
  | fat16 =>
    refine .bind (total_fatPlace h _) ?_
    rintro ⟨off, sec⟩ hoff
    refine .bind (total_fatDevRead fs sec) fun ok _ => .ite (fun _ => ?_) fun _ => .pure trivial
    refine .bind (total_bufWrite ?_ _) fun _ _ => total_writeMirrored fs sec
    simp only [fatOffset, hty, UInt32.toNat_mul, UInt32.reduceToNat] at hoff
    omega
  | fat32 =>
    refine .bind (total_fatPlace h _) ?_
    rintro ⟨off, sec⟩ hoff
    refine .bind (total_fatDevRead fs sec) fun ok _ => .ite (fun _ => ?_) fun _ => .pure trivial
    refine .bind (total_bufWrite ?_ _) fun _ _ => total_writeMirrored fs sec
    simp only [fatOffset, hty, UInt32.toNat_mul, UInt32.reduceToNat] at hoff
    omega

theorem total_writeFatEntry (h : fs.bytesPerSector = 512) (c v : UInt32) :
    Total (writeFatEntry fs c v) fun _ => True :=
  total_writeFatEntry_of h (fun _ => .pure trivial) c v

/-! ## Chains -/

section Chains

variable [BehindBuffer] (h : fs.bytesPerSector = 512)
  (hw : ∀ c v, Total (writeFatEntry fs c v) fun _ => True)

include h hw

theorem total_freeChainLoop : ∀ {n : Nat} {c : UInt32}, Total (freeChainLoop fs n c) fun _ => True
  | 0, _ => .pure trivial
  | n + 1, c => by
    rw [freeChainLoop]
    refine .ite (fun _ => ?_) fun _ => .pure trivial
    refine .bind (total_readFatEntry h c) fun next _ => ?_
    refine .bind (hw c 0) fun _ _ => ?_
    exact .ite (fun _ => .pure trivial) fun _ => total_freeChainLoop

theorem total_freeChainFrom (c : UInt32) : Total (freeChainFrom fs c) fun _ => True :=
  .ite (fun _ => total_freeChainLoop h hw) fun _ => .pure trivial

end Chains

end HaoSys.Fs
