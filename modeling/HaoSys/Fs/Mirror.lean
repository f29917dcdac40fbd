import HaoSys.Fs.FatArea
import HaoSys.Fs.Mount

/-!
# The mirror copy

`write_fat_entry` writes every sector of the FAT twice, the second time
`fat_size` sectors further on, and never looks at `num_fats`. `Within` says
which sectors a computation may change, whatever the device answers. With two
FATs or more both writes stay inside them; with one the second write lands
behind the FAT area.
-/

namespace HaoSys.Fs

open HaoSys.Lib Prog

/-- `x` returns a result with `Q` and changes no sector outside `A`. -/
def Within {α : Type} (A : UInt32 → Prop) (x : FatM α) (Q : α → Prop) : Prop :=
  ∀ S : UInt32 → Sector, Triple (fun _ => False) (fun s => ∀ a, ¬ A a → s.disk.sector a = S a) x
    fun r s => Q r ∧ ∀ a, ¬ A a → s.disk.sector a = S a

namespace Within

variable {α β : Type} {A : UInt32 → Prop} {x y : FatM α} {Q : α → Prop}

theorem pure {a : α} (h : Q a) : Within A (Pure.pure a) Q := fun _ => Triple.pure fun _ hs => ⟨h, hs⟩

theorem bind {f : α → FatM β} {R : β → Prop} (hx : Within A x Q)
    (hf : ∀ a, Q a → Within A (f a) R) : Within A (x >>= f) R := fun S =>
  Triple.bind (hx S) fun a s h => hf a h.1 S s h.2

theorem ite {c : Prop} [Decidable c] (h1 : c → Within A x Q) (h2 : ¬ c → Within A y Q) :
    Within A (if c then x else y) Q := fun S => Triple.ite (fun h => h1 h S) fun h => h2 h S

/-- What such a computation leaves. -/
theorem run (h : Within A x Q) (s : FatState) :
    ∃ r t, x s = .ok (r, t) ∧ Q r ∧ ∀ a, ¬ A a → t.disk.sector a = s.disk.sector a := by
  have hrun := h s.disk.sector s fun _ _ => rfl
  cases hx : x s with
  | error e =>
    rw [hx] at hrun
    exact hrun.elim
  | ok p =>
    rw [hx] at hrun
    exact ⟨p.1, p.2, rfl, hrun⟩

theorem fatDevRead (fs : FatFs) (lba : UInt32) : Within A (fatDevRead fs lba) fun _ => True := by
  intro S s hs
  by_cases hr : s.disk.readable (fs.baseLba + lba) = true
  · rw [fatDevRead_of_readable hr]
    exact ⟨trivial, hs⟩
  · rw [fatDevRead_of_not hr]
    exact ⟨trivial, hs⟩

theorem fatDevWrite {fs : FatFs} {lba : UInt32} (h : A (fs.baseLba + lba)) :
    Within A (fatDevWrite fs lba) fun _ => True := by
  intro S s hs
  rw [fatDevWrite_run]
  refine ⟨trivial, fun a ha => ?_⟩
  have hne : ¬ (a = fs.baseLba + lba ∧ s.disk.wrote (fs.baseLba + lba) = true) := by
    rintro ⟨rfl, -⟩
    exact ha h
  rw [Disk.write_sector, if_neg hne]
  exact hs a ha

theorem bufRead {o w : Nat} (h : o + w ≤ 512) (f : Sector → α) :
    Within A (bufRead o w f) fun _ => True := by
  intro S s hs
  rw [bufRead_run h]
  exact ⟨trivial, hs⟩

theorem bufWrite {o w : Nat} (h : o + w ≤ 512) (f : Sector → Sector) :
    Within A (bufWrite o w f) fun _ => True := by
  intro S s hs
  rw [bufWrite_run h]
  exact ⟨trivial, hs⟩

end Within

namespace FatFs

variable {fs : FatFs} {c : UInt32}

/-! ## The sectors of an entry -/

/-- The sector of the FAT that `write_fat_entry` addresses, and the offset in it. -/
def writeIndex (fs : FatFs) (c : UInt32) : Nat := (fatOffset fs c).toNat / 512

def writeOffset (fs : FatFs) (c : UInt32) : Nat := (fatOffset fs c).toNat % 512

theorem within_fatPlace {A : UInt32 → Prop} (h : fs.Sized) (c : UInt32) :
    Within A (fatPlace fs (fatOffset fs c)) fun p => p.1.toNat = fs.writeOffset c ∧
      fs.baseLba + p.2 = fs.fatSector (fs.writeIndex c) := by
  intro S s hs
  obtain ⟨off, sec, hplace, hoff, hsec⟩ := fatPlace_at h (fatOffset fs c) s
  rw [hplace]
  exact ⟨⟨hoff, hsec⟩, hs⟩

/-- A sector of the FAT and the one `fat_size` behind it may be written. -/
def Covers (fs : FatFs) (A : UInt32 → Prop) (i : Nat) : Prop :=
  A (fs.fatSector i) ∧ A (fs.fatSector (i + fs.fatSize.toNat))

theorem within_writeMirrored {A : UInt32 → Prop} {sec : UInt32} {i : Nat}
    (hsec : fs.baseLba + sec = fs.fatSector i) (hA : fs.Covers A i) :
    Within A (writeMirrored fs sec) fun _ => True := by
  refine .bind (.fatDevWrite ?_) fun _ _ => .bind (.fatDevWrite ?_) fun _ _ => .pure trivial
  · rw [hsec]
    exact hA.1
  · rw [fatSector_mirror hsec]
    exact hA.2

/-- An entry of two or four bytes does not leave its sector. -/
theorem writeOffset_aligned (ht : fs.fsType ≠ .fat12) :
    fs.writeOffset c + entryWidth fs.fsType ≤ 512 := by
  unfold writeOffset fatOffset
  cases hty : fs.fsType with
  | fat12 => exact absurd hty ht
  | unknown => simp only [entryWidth, UInt32.toNat_mul, UInt32.reduceToNat]; omega
  | fat16 => simp only [entryWidth, UInt32.toNat_mul, UInt32.reduceToNat]; omega
  | fat32 => simp only [entryWidth, UInt32.toNat_mul, UInt32.reduceToNat]; omega

/-- The sectors `write_fat_entry` may change: that of the entry, the next one for a FAT12 entry that
crosses, and the mirrors of the two. -/
theorem within_writeFatEntry {A : UInt32 → Prop} (h : fs.Sized) (hA : fs.Covers A (fs.writeIndex c))
    (hnext : fs.fsType = .fat12 → fs.writeOffset c = 511 → fs.Covers A (fs.writeIndex c + 1))
    (v : UInt32) : Within A (writeFatEntry fs c v) fun _ => True := by
  unfold writeFatEntry
  cases hty : fs.fsType with
  | unknown => exact .pure trivial
  | fat16 =>
    have hal := writeOffset_aligned (c := c) (by rw [hty]; decide : fs.fsType ≠ .fat12)
    rw [hty] at hal
    refine .bind (within_fatPlace h c) fun p hp => ?_
    refine .bind (.fatDevRead fs p.2) fun ok _ => .ite (fun _ => ?_) fun _ => .pure trivial
    exact .bind (.bufWrite (by rw [hp.1]; exact hal) _) fun _ _ => within_writeMirrored hp.2 hA
  | fat32 =>
    have hal := writeOffset_aligned (c := c) (by rw [hty]; decide : fs.fsType ≠ .fat12)
    rw [hty] at hal
    refine .bind (within_fatPlace h c) fun p hp => ?_
    refine .bind (.fatDevRead fs p.2) fun ok _ => .ite (fun _ => ?_) fun _ => .pure trivial
    exact .bind (.bufWrite (by rw [hp.1]; exact hal) _) fun _ _ => within_writeMirrored hp.2 hA
  | fat12 =>
    have hlt : fs.writeOffset c < 512 := Nat.mod_lt _ (by decide)
    refine .bind (within_fatPlace h c) fun p hp => ?_
    have hin : p.1 + 1 < fs.bytesPerSector ↔ fs.writeOffset c + 1 < 512 := by
      rw [UInt32.lt_iff_toNat_lt, UInt32.toNat_add, h.toNat, UInt32.toNat_one, hp.1]
      omega
    refine .ite (fun hlt' => ?_) fun hge => ?_
    · rw [hin] at hlt'
      refine .bind (.fatDevRead fs p.2) fun ok _ => .ite (fun _ => ?_) fun _ => .pure trivial
      exact .bind (.bufWrite (by omega) _) fun _ _ => within_writeMirrored hp.2 hA
    · rw [hin] at hge
      have hA' := hnext hty (by omega)
      have hp' : fs.baseLba + (p.2 + 1) = fs.fatSector (fs.writeIndex c + 1) := by
        rw [← UInt32.add_assoc, hp.2, fatSector_succ]
      refine .bind (.fatDevRead fs p.2) fun ok _ => .ite (fun _ => ?_) fun _ => .pure trivial
      refine .bind (.bufRead (by omega) _) fun b0 _ => ?_
      refine .bind (.pure (Q := fun _ => True) trivial) fun _ _ => ?_
      refine .bind (.fatDevRead fs (p.2 + 1)) fun ok _ => .ite (fun _ => ?_) fun _ => .pure trivial
      refine .bind (.bufRead (by omega) _) fun b1 _ => ?_
      refine .bind (.bufWrite (by omega) _) fun _ _ => ?_
      refine .bind (within_writeMirrored hp.2 hA) fun _ _ => ?_
      refine .bind (.fatDevRead fs (p.2 + 1)) fun ok _ => .ite (fun _ => ?_) fun _ => .pure trivial
      exact .bind (.bufWrite (by omega) _) fun _ _ => within_writeMirrored hp' hA'

/-! ## Volumes with one FAT or more -/

/-- Sector `a` of the device lies in `[reserved_sectors, reserved_sectors + num_fats * fat_size)`
of the volume. -/
def InFats (fs : FatFs) (a : UInt32) : Prop :=
  ∃ i, i < fs.numFats.toNat * fs.fatSize.toNat ∧ a = fs.fatSector i

/-- A geometry that is consistent, whatever the number of FATs: each has room for every cluster and
the areas lie inside the volume. -/
structure Consistent (fs : FatFs) : Prop where
  sector : fs.bytesPerSector = 512
  cluster : fs.sectorsPerCluster ≠ 0
  fats : 1 ≤ fs.numFats.toNat
  table : ∀ c, 2 ≤ c → c < fs.clusterLimit.toNat →
    entryStart fs.fsType c + entryWidth fs.fsType ≤ fs.fatSize.toNat * 512
  fits : fs.reservedSectors.toNat + fs.numFats.toNat * fs.fatSize.toNat + fs.rootDirSectors.toNat ≤
    fs.totalSectors.toNat
  base : fs.baseLba.toNat + fs.totalSectors.toNat ≤ 2 ^ 32

theorem fatOffset_le (fs : FatFs) (c : UInt32) :
    (fatOffset fs c).toNat ≤ entryStart fs.fsType c.toNat := by
  unfold fatOffset entryStart
  cases fs.fsType <;>
    simp only [UInt32.toNat_div, UInt32.toNat_mul, UInt32.reduceToNat] <;> omega

section Cluster

variable (h : fs.Consistent) (h2 : 2 ≤ c.toNat) (hlim : c < fs.clusterLimit)

include h h2 hlim

theorem Consistent.writeIndex_lt : fs.writeIndex c < fs.fatSize.toNat := by
  have hle := fatOffset_le fs c
  have htable := h.table c.toNat h2 (UInt32.lt_iff_toNat_lt.1 hlim)
  have hpos := entryWidth_pos fs.fsType
  unfold writeIndex
  omega

theorem Consistent.writeIndex_next_lt (ht : fs.fsType = .fat12) (ho : fs.writeOffset c = 511) :
    fs.writeIndex c + 1 < fs.fatSize.toNat := by
  have hle := fatOffset_le fs c
  have htable := h.table c.toNat h2 (UInt32.lt_iff_toNat_lt.1 hlim)
  rw [ht] at hle htable
  simp only [entryWidth] at htable
  unfold writeOffset at ho
  unfold writeIndex
  omega

/-- With two FATs or more both copies are in the FAT area. -/
theorem Consistent.within (hs : fs.Sized) (hn : 2 ≤ fs.numFats.toNat) (v : UInt32) :
    Within fs.InFats (writeFatEntry fs c v) fun _ => True := by
  have hmul : 2 * fs.fatSize.toNat ≤ fs.numFats.toNat * fs.fatSize.toNat := Nat.mul_le_mul_right _ hn
  have hcovers : ∀ i, i < fs.fatSize.toNat → fs.Covers fs.InFats i := fun i hi =>
    ⟨⟨i, by omega, rfl⟩, ⟨i + fs.fatSize.toNat, by omega, rfl⟩⟩
  exact within_writeFatEntry hs (hcovers _ (h.writeIndex_lt h2 hlim))
    (fun ht ho => hcovers _ (h.writeIndex_next_lt h2 hlim ht ho)) v

/-- The mirrors' numbers do not wrap: a cluster has its sectors behind the FAT. -/
theorem Consistent.mirror_lt : fs.writeIndex c + 1 + fs.fatSize.toNat < 2 ^ 32 := by
  have hlt := fs.totalSectors.toNat_lt
  have hfits := h.fits
  have hmul : 1 * fs.fatSize.toNat ≤ fs.numFats.toNat * fs.fatSize.toNat :=
    Nat.mul_le_mul_right _ h.fats
  have hsum : (fs.reservedSectors + fs.numFats * fs.fatSize + fs.rootDirSectors).toNat =
      fs.reservedSectors.toNat + fs.numFats.toNat * fs.fatSize.toNat + fs.rootDirSectors.toNat := by
    rw [UInt32.toNat_add, UInt32.toNat_add, UInt32.toNat_mul]
    generalize fs.numFats.toNat * fs.fatSize.toNat = x at hfits ⊢
    omega
  have hdata : (fs.totalSectors - (fs.reservedSectors + fs.numFats * fs.fatSize +
      fs.rootDirSectors)).toNat = fs.totalSectors.toNat - (fs.reservedSectors.toNat +
        fs.numFats.toNat * fs.fatSize.toNat + fs.rootDirSectors.toNat) := by
    rw [UInt32.toNat_sub_of_le _ _ (UInt32.le_iff_toNat_le.2 (by rw [hsum]; exact hfits)), hsum]
  rw [UInt32.lt_iff_toNat_lt, clusterLimit, UInt32.toNat_add, UInt32.toNat_div, hdata,
    show (2 : UInt32).toNat = 2 from rfl] at hlim
  have hle := Nat.div_le_self (fs.totalSectors.toNat - (fs.reservedSectors.toNat +
    fs.numFats.toNat * fs.fatSize.toNat + fs.rootDirSectors.toNat)) fs.sectorsPerCluster.toNat
  have hoff : (fatOffset fs c).toNat ≤ c.toNat * 4 := by
    refine Nat.le_trans (fatOffset_le fs c) ?_
    unfold entryStart
    cases fs.fsType <;> simp only <;> omega
  unfold writeIndex
  generalize fs.numFats.toNat * fs.fatSize.toNat = x at *
  generalize (fs.totalSectors.toNat - (fs.reservedSectors.toNat + x +
    fs.rootDirSectors.toNat)) / fs.sectorsPerCluster.toNat = n at *
  omega

end Cluster

theorem fatSector_inj {i j : Nat} (hi : i < 2 ^ 32) (hj : j < 2 ^ 32)
    (h : fs.fatSector i = fs.fatSector j) : i = j := by
  unfold fatSector at h
  have := congrArg UInt32.toNat ((UInt32.add_right_inj _).1 ((UInt32.add_right_inj _).1 h))
  rwa [UInt32.toNat_ofNat_of_lt' hi, UInt32.toNat_ofNat_of_lt' hj] at this

/-! ## A FAT of zeros -/

/-- The low byte of a FAT12 entry set to 0xFFF. -/
theorem byte_fat12Put (c : UInt32) : byte (fat12Put c 0xFFF 0).toNat 0 ≠ 0 := by
  have hput := fat12Put_toNat c 0xFFF 0
  rw [Ne, ← UInt8.toNat_inj, byte_toNat, hput]
  split
  · decide
  · decide

/-- Reading a device of zeros. -/
theorem fatDevRead_zero {q : UInt32} {t : FatState} (ht : t.disk.Reliable)
    (hq : t.disk.sector (fs.baseLba + q) = Sector.zero) :
    fatDevRead fs q t = .ok (true, ⟨Sector.zero, t.disk⟩) := by
  rw [fatDevRead_of_readable (ht.readable _), hq]

theorem sector_zero_get (j : Nat) : Sector.zero.get j = 0 := by
  simp [Sector.get, Sector.zero]

section Zeros

variable {s : FatState} (hd : s.disk.Reliable) (hz : ∀ a, s.disk.sector a = Sector.zero)

include hd hz

/-- The mirror of an entry's first sector after the write of an entry that crosses. -/
theorem writeFatEntry_mirror_crossing (h : fs.Sized) (ht : fs.fsType = .fat12)
    (hlast : fs.writeOffset c = 511) (hlt : fs.writeIndex c + 1 + fs.fatSize.toNat < 2 ^ 32)
    (hnext : fs.writeIndex c + 1 < fs.fatSize.toNat) :
    ∃ t, writeFatEntry fs c 0xFFF s = .ok ((), t) ∧
      (t.disk.sector (fs.fatSector (fs.writeIndex c + fs.fatSize.toNat))).get 511 ≠ 0 := by
  obtain ⟨off, sec, hplace, hoff, hsec⟩ := fatPlace_at h (fatOffset fs c) s
  change fs.baseLba + sec = fs.fatSector (fs.writeIndex c) at hsec
  replace hoff : off.toNat = 511 := hoff.trans hlast
  have hout : ¬ off + 1 < fs.bytesPerSector := by
    rw [UInt32.lt_iff_toNat_lt, UInt32.toNat_add, h.toNat, UInt32.toNat_one, hoff]
    decide
  have hsec' : fs.baseLba + (sec + 1) = fs.fatSector (fs.writeIndex c + 1) := by
    rw [← UInt32.add_assoc, hsec, fatSector_succ]
  have hne : ∀ i j, i ≤ fs.writeIndex c + 1 + fs.fatSize.toNat →
      j ≤ fs.writeIndex c + 1 + fs.fatSize.toNat → i ≠ j → fs.fatSector i ≠ fs.fatSector j :=
    fun i j hi hj hij he => hij (fatSector_inj (by omega) (by omega) he)
  unfold writeFatEntry
  simp only [ht]
  rw [bind_of_ok hplace]
  simp only
  rw [if_neg hout, bind_of_ok (fatDevRead_zero hd (hz _))]
  simp only [if_true]
  rw [bind_of_ok (bufRead_run (by omega) _ _), bind_of_ok (read_behind _),
    bind_of_ok (fatDevRead_zero (t := ⟨Sector.zero, s.disk⟩) hd (hz _))]
  simp only [if_true]
  rw [bind_of_ok (bufRead_run (by omega) _ _), bind_of_ok (bufWrite_run (by omega) _ _),
    bind_of_ok (writeMirrored_run hsec _),
    bind_of_ok (fatDevRead_zero (reliable_mirrored hd _ _) ?_)]
  · simp only [if_true]
    rw [bind_of_ok (bufWrite_run (by omega) _ _), writeMirrored_run hsec']
    refine ⟨_, rfl, ?_⟩
    simp only
    rw [mirrored_sector_eq (reliable_mirrored hd _ _), if_neg, mirrored_sector_eq hd,
      if_pos (.inr rfl), hoff, Sector.get_set (by omega), if_pos rfl, sector_zero_get,
      sector_zero_get]
    · exact byte_fat12Put c
    · exact not_or.2 ⟨hne _ _ (by omega) (by omega) (by omega),
        hne _ _ (by omega) (by omega) (by omega)⟩
  · simp only
    rw [hsec', mirrored_sector_eq hd, if_neg, hz]
    exact not_or.2 ⟨hne _ _ (by omega) (by omega) (by omega),
      hne _ _ (by omega) (by omega) (by omega)⟩

/-- On a device of zeros the entry's first byte appears in the mirror, whether the volume has one or
not. -/
theorem writeFatEntry_mirror (h : fs.Sized) (hty : fs.fsType ≠ .unknown)
    (hlt : fs.writeIndex c + 1 + fs.fatSize.toNat < 2 ^ 32)
    (hnext : fs.fsType = .fat12 → fs.writeOffset c = 511 → fs.writeIndex c + 1 < fs.fatSize.toNat) :
    ∃ t, writeFatEntry fs c 0xFFF s = .ok ((), t) ∧
      (t.disk.sector (fs.fatSector (fs.writeIndex c + fs.fatSize.toNat))).get (fs.writeOffset c) ≠
        0 := by
  by_cases hx : fs.fsType = .fat12 ∧ fs.writeOffset c = 511
  · rw [hx.2]
    exact writeFatEntry_mirror_crossing hd hz h hx.1 hx.2 hlt (hnext hx.1 hx.2)
  obtain ⟨off, sec, hplace, hoff, hsec⟩ := fatPlace_at h (fatOffset fs c) s
  change off.toNat = fs.writeOffset c at hoff
  change fs.baseLba + sec = fs.fatSector (fs.writeIndex c) at hsec
  unfold writeFatEntry
  cases ht : fs.fsType with
  | unknown => exact absurd ht hty
  | fat16 =>
    have hal := writeOffset_aligned (c := c) (by rw [ht]; decide : fs.fsType ≠ .fat12)
    rw [ht] at hal
    simp only [entryWidth] at hal
    simp only
    rw [bind_of_ok hplace]
    simp only
    rw [bind_of_ok (fatDevRead_zero hd (hz _))]
    simp only [if_true]
    rw [bind_of_ok (bufWrite_run (by omega) _ _), writeMirrored_run hsec]
    refine ⟨_, rfl, ?_⟩
    simp only
    rw [mirrored_sector_eq hd, if_pos (.inr rfl), hoff, patched_set16 hal _ (by omega),
      if_pos (by omega), Nat.sub_self]
    decide
  | fat32 =>
    have hal := writeOffset_aligned (c := c) (by rw [ht]; decide : fs.fsType ≠ .fat12)
    rw [ht] at hal
    simp only [entryWidth] at hal
    simp only
    rw [bind_of_ok hplace]
    simp only
    rw [bind_of_ok (fatDevRead_zero hd (hz _))]
    simp only [if_true]
    rw [bind_of_ok (bufWrite_run (by omega) _ _), writeMirrored_run hsec]
    refine ⟨_, rfl, ?_⟩
    simp only
    rw [mirrored_sector_eq hd, if_pos (.inr rfl), hoff, patched_set32 hal _ (by omega),
      if_pos (by omega), Nat.sub_self]
    simp only [Sector.get32, sector_zero_get]
    decide
  | fat12 =>
    have hlt' : fs.writeOffset c < 512 := Nat.mod_lt _ (by decide)
    have hne : fs.writeOffset c ≠ 511 := fun he => hx ⟨ht, he⟩
    have hin : off + 1 < fs.bytesPerSector := by
      rw [UInt32.lt_iff_toNat_lt, UInt32.toNat_add, h.toNat, UInt32.toNat_one, hoff]
      omega
    simp only
    rw [bind_of_ok hplace]
    simp only
    rw [if_pos hin, bind_of_ok (fatDevRead_zero hd (hz _))]
    simp only [if_true]
    rw [bind_of_ok (bufWrite_run (by omega) _ _), writeMirrored_run hsec]
    refine ⟨_, rfl, ?_⟩
    simp only
    rw [mirrored_sector_eq hd, if_pos (.inr rfl), hoff, patched_set16 (by omega) _ (by omega),
      if_pos (by omega), Nat.sub_self, Sector.get16, sector_zero_get, sector_zero_get]
    exact byte_fat12Put c

end Zeros

/-- A device of zeros. -/
def zeroState : FatState := ⟨Sector.zero, ⟨fun _ => Sector.zero, fun _ => true, fun _ _ => true, 0⟩⟩

/-- With one FAT some write changes the sector behind it. -/
theorem Consistent.mirror_outside (h : fs.Consistent) (hs : fs.Sized) (hty : fs.fsType ≠ .unknown)
    (h2 : 2 ≤ c.toNat) (hlim : c < fs.clusterLimit) (hn : fs.numFats.toNat < 2) :
    ∃ t a, writeFatEntry fs c 0xFFF zeroState = .ok ((), t) ∧ ¬ fs.InFats a ∧
      t.disk.sector a ≠ zeroState.disk.sector a := by
  obtain ⟨t, hrun, hmirror⟩ := writeFatEntry_mirror (s := zeroState) ⟨fun _ => rfl, fun _ _ => rfl⟩
    (fun _ => rfl) hs hty (h.mirror_lt h2 hlim) (h.writeIndex_next_lt h2 hlim)
  refine ⟨t, fs.fatSector (fs.writeIndex c + fs.fatSize.toNat), hrun, ?_, fun he => hmirror ?_⟩
  · rintro ⟨i, hi, he⟩
    have hone : fs.numFats.toNat = 1 := by
      have := h.fats
      omega
    rw [hone, Nat.one_mul] at hi
    have hlt := h.mirror_lt h2 hlim
    have := fatSector_inj (by omega) (by omega) he
    omega
  · rw [he]
    exact sector_zero_get _

/-- The sizes of a mounted instance. -/
theorem Consistent.sized (h : fs.Consistent) {fs₀ : FatFs} {st t : FatState}
    (hm : fatMount fs₀ st = .ok (some fs, t)) : fs.Sized ∧ fs.fsType ≠ .unknown := by
  obtain ⟨hacc, hb⟩ := fatMount_some hm
  refine ⟨⟨h.sector, h.cluster, ?_⟩, ?_⟩
  · rw [hb.cluster_toNat]
    exact UInt8.toNat_lt _
  · rw [hb.type]
    exact hacc.type

/-- Whatever is written to a cluster's entry, and however the device behaves, only the FAT area
changes: exactly if the volume has two FATs or more. -/
theorem write_fat_entry_in_fats_iff {fs₀ : FatFs} {st t : FatState}
    (hm : fatMount fs₀ st = .ok (some fs, t)) (h : fs.Consistent) (h2 : 2 ≤ c.toNat)
    (hlim : c < fs.clusterLimit) :
    (∀ v s, ∃ u, writeFatEntry fs c v s = .ok ((), u) ∧
      ∀ a, ¬ fs.InFats a → u.disk.sector a = s.disk.sector a) ↔ 2 ≤ fs.numFats.toNat := by
  obtain ⟨hs, hty⟩ := h.sized hm
  constructor
  · intro hall
    by_contra hlt
    obtain ⟨u, hrun, hframe⟩ := hall 0xFFF zeroState
    obtain ⟨u', a, hrun', hout, hne⟩ := h.mirror_outside hs hty h2 hlim (by omega)
    rw [hrun] at hrun'
    rw [(Prod.mk.inj (Except.ok.inj hrun')).2] at hframe
    exact hne (hframe a hout)
  · intro hn v s
    obtain ⟨⟨⟩, u, hrun, -, hframe⟩ := (h.within h2 hlim hs hn v).run s
    exact ⟨u, hrun, hframe⟩

/-! ## A small FAT16 volume -/

/-- A boot sector with `n` FATs of one sector, behind one reserved sector and before one sector of
root directory and six clusters. -/
def smallBoot (n : UInt8) : Sector := fun k =>
  match k.val with
  | 12 => 2
  | 13 => 1
  | 14 => 1
  | 16 => n
  | 17 => 16
  | 19 => 8 + n
  | 22 => 1
  | 82 => 0x46
  | 83 => 0x41
  | 84 => 0x54
  | 85 => 0x31
  | 86 => 0x36
  | 510 => 0x55
  | 511 => 0xAA
  | _ => 0

/-- A device with that boot sector in every sector. -/
def smallState (n : UInt8) : FatState :=
  ⟨smallBoot n, ⟨fun _ => smallBoot n, fun _ => true, fun _ _ => true, 0⟩⟩

/-- What it is mounted as. -/
def smallFs (n : UInt8) : FatFs :=
  ⟨0, 1, n.toUInt32, 1, 1, 1 + n.toUInt32 * 1 + 1, (8 + n).toUInt32, 1, 512, .fat16, 0, true⟩

theorem smallFs_mounted_one :
    fatMount blankFs (smallState 1) = .ok (some (smallFs 1), smallState 1) := rfl

theorem smallFs_mounted_two :
    fatMount blankFs (smallState 2) = .ok (some (smallFs 2), smallState 2) := rfl

theorem smallFs_consistent {n : UInt8} (hn : n = 1 ∨ n = 2) : (smallFs n).Consistent := by
  have htable : ∀ c, c < (smallFs n).clusterLimit.toNat →
      entryStart .fat16 c + entryWidth .fat16 ≤ (smallFs n).fatSize.toNat * 512 := by
    have hlim : (smallFs n).clusterLimit.toNat = 8 := by
      obtain rfl | rfl := hn <;> decide
    have hsize : (smallFs n).fatSize.toNat = 1 := rfl
    intro c hc
    simp only [entryStart, entryWidth]
    omega
  refine ⟨rfl, (by decide : (1 : UInt32) ≠ 0), ?_, fun c _ hc => htable c hc, ?_, ?_⟩
  · obtain rfl | rfl := hn <;> decide
  · obtain rfl | rfl := hn <;> decide
  · obtain rfl | rfl := hn <;> decide

/-- With two FATs cluster 2's entry is written inside them. -/
theorem write_fat_entry_in_two_fats :
    (smallFs 2).numFats = 2 ∧ ∃ u, writeFatEntry (smallFs 2) 2 0xFFF zeroState = .ok ((), u) ∧
      ∀ a, ¬ (smallFs 2).InFats a → u.disk.sector a = zeroState.disk.sector a :=
  ⟨rfl, (write_fat_entry_in_fats_iff smallFs_mounted_two (smallFs_consistent (.inr rfl))
    (by decide) (by decide)).2 (by decide) 0xFFF zeroState⟩

/-- With one the write of cluster 2's entry reaches the root directory. -/
theorem write_fat_entry_behind_one_fat :
    ¬ ∀ (fs₀ fs : FatFs) (st t : FatState), fatMount fs₀ st = .ok (some fs, t) → fs.Consistent →
      ∀ c : UInt32, 2 ≤ c.toNat → c < fs.clusterLimit → ∀ v s, ∃ u,
        writeFatEntry fs c v s = .ok ((), u) ∧
          ∀ a, ¬ fs.InFats a → u.disk.sector a = s.disk.sector a := by
  intro hall
  have hcons := smallFs_consistent (.inl rfl)
  obtain ⟨u, hrun, hframe⟩ := hall blankFs (smallFs 1) (smallState 1) _ smallFs_mounted_one hcons 2
    (by decide) (by decide) 0xFFF zeroState
  obtain ⟨hs, hty⟩ := hcons.sized smallFs_mounted_one
  obtain ⟨u', a, hrun', hout, hne⟩ := hcons.mirror_outside (c := 2) hs hty (by decide) (by decide)
    (by decide)
  rw [hrun] at hrun'
  rw [(Prod.mk.inj (Except.ok.inj hrun')).2] at hframe
  exact hne (hframe a hout)

end FatFs

end HaoSys.Fs
