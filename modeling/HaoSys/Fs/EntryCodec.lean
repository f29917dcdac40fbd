import HaoSys.Fs.FatArea

/-!
# FAT16 and FAT32 entries

The two or four bytes of an entry lie in one sector, and no two entries share
a byte. `writeFatEntry` replaces these bytes in both copies of the FAT
(`TwoFats.fatByte_store`), so the entry reads back what it keeps of the value
and every other entry reads as before. The byte offset of an entry is a
product in 32 bits: it is the entry's own as long as it stays below 2^32,
which every cluster number of 28 bits does.
-/

namespace HaoSys.Fs

open HaoSys.Lib Prog

namespace FatFs

variable {fs : FatFs} {d : Disk} {c c' : UInt32}

/-! ## The bytes of an entry -/

/-- The word of the four bytes of a FAT32 entry. -/
def fat32Word (fs : FatFs) (d : Disk) (c : UInt32) : UInt32 :=
  le32 (fs.fatByte d (entryStart .fat32 c.toNat)) (fs.fatByte d (entryStart .fat32 c.toNat + 1))
    (fs.fatByte d (entryStart .fat32 c.toNat + 2)) (fs.fatByte d (entryStart .fat32 c.toNat + 3))

/-- Byte `o` of the FAT belongs to the entry of `c`. -/
def InEntry (fs : FatFs) (c : UInt32) (o : Nat) : Prop :=
  entryStart fs.fsType c.toNat ≤ o ∧ o < entryStart fs.fsType c.toNat + entryWidth fs.fsType

instance (fs : FatFs) (c : UInt32) (o : Nat) : Decidable (fs.InEntry c o) :=
  inferInstanceAs (Decidable (_ ∧ _))

/-- The entry of `c` ends inside the first FAT. -/
def Inside (fs : FatFs) (c : UInt32) : Prop :=
  entryStart fs.fsType c.toNat + entryWidth fs.fsType ≤ fs.fatSize.toNat * 512

theorem Inside.start_lt (h : fs.Inside c) : entryStart fs.fsType c.toNat < fs.fatSize.toNat * 512 := by
  have h1 := entryWidth_pos fs.fsType
  unfold Inside at h
  omega

theorem not_fat12 (ht : fs.fsType = .fat16 ∨ fs.fsType = .fat32) : fs.fsType ≠ .fat12 := by
  intro h12
  rw [h12] at ht
  simp at ht

theorem not_crosses (ht : fs.fsType = .fat16 ∨ fs.fsType = .fat32) : ¬ fs.Crosses c :=
  fun hx => not_fat12 ht hx.1

/-- The bytes that `write_fat_entry` puts into sector `b` for an entry. -/
def putBytes (fs : FatFs) (c v : UInt32) (b : Sector) : Nat → UInt8 :=
  match fs.fsType with
  | .fat16 => byte (v &&& 0xFFFF).toUInt16.toNat
  | _ => byte ((b.get32 (fs.entryOffset c) &&& 0xF0000000) ||| (v &&& 0x0FFFFFFF)).toNat

theorem putEntry_patched (ht : fs.fsType = .fat16 ∨ fs.fsType = .fat32) (v : UInt32) (b : Sector) :
    Patched b (fs.putEntry c v b) (fs.entryOffset c) (entryWidth fs.fsType) (fs.putBytes c v b) := by
  have hal := entryStart_aligned (not_fat12 ht) c.toNat
  unfold putEntry putBytes
  rcases ht with ht | ht
  · rw [ht] at hal ⊢
    simp only [entryWidth] at hal ⊢
    exact patched_set16 (by rw [entryOffset, ht]; exact hal)
  · rw [ht] at hal ⊢
    simp only [entryWidth] at hal ⊢
    exact patched_set32 (by rw [entryOffset, ht]; exact hal)

theorem get32_entry (ht : fs.fsType = .fat32) :
    (d.sector (fs.entrySector c)).get32 (fs.entryOffset c) = fs.fat32Word d c := by
  have hal := entryStart_aligned (t := .fat32) (by decide) c.toNat
  simp only [entryWidth] at hal
  have hbyte : ∀ k, k < 4 → fs.fatByte d (entryStart .fat32 c.toNat + k) =
      (d.sector (fs.entrySector c)).get (fs.entryOffset c + k) := by
    intro k hk
    have hb : fs.fatByte d (entryStart fs.fsType c.toNat + k) = _ :=
      fatByte_entry (by rw [entryOffset, ht]; omega)
    rwa [ht] at hb
  unfold fat32Word Sector.get32
  rw [← hbyte 1 (by omega), ← hbyte 2 (by omega), ← hbyte 3 (by omega)]
  have h0 := hbyte 0 (by omega)
  rw [Nat.add_zero, Nat.add_zero] at h0
  rw [h0]

/-! ## The FAT after a write -/

/-- Writing an entry replaces its bytes. -/
theorem TwoFats.fatByte_store (h : fs.TwoFats) (ht : fs.fsType = .fat16 ∨ fs.fsType = .fat32)
    (hd : d.Reliable) (hc : fs.Inside c) (v : UInt32) {o : Nat} (ho : o < fs.fatSize.toNat * 512) :
    fs.fatByte (fs.storeEntry d c (fs.putEntry c v)) o =
      if fs.InEntry c o then
        fs.putBytes c v (d.sector (fs.entrySector c)) (o - entryStart fs.fsType c.toNat)
      else fs.fatByte d o := by
  have hok : d.wrote (fs.fatSector (entryStart fs.fsType c.toNat / 512)) = true := hd.writable _ _
  have hb := h.fatByte_mirrored (d := d) (putEntry_patched ht v (d.sector (fs.entrySector c)))
    (entryStart_aligned (not_fat12 ht) c.toNat) hc.start_lt ho
  simp only [hok, true_and] at hb
  exact hb

theorem TwoFats.fatByte_store_self (h : fs.TwoFats) (ht : fs.fsType = .fat16 ∨ fs.fsType = .fat32)
    (hd : d.Reliable) (hc : fs.Inside c) (v : UInt32) {k : Nat} (hk : k < entryWidth fs.fsType) :
    fs.fatByte (fs.storeEntry d c (fs.putEntry c v)) (entryStart fs.fsType c.toNat + k) =
      fs.putBytes c v (d.sector (fs.entrySector c)) k := by
  have hin : fs.InEntry c (entryStart fs.fsType c.toNat + k) := ⟨by omega, by omega⟩
  rw [h.fatByte_store ht hd hc v (by unfold Inside at hc; omega), if_pos hin, Nat.add_sub_cancel_left]

theorem TwoFats.fatByte_store_other (h : fs.TwoFats) (ht : fs.fsType = .fat16 ∨ fs.fsType = .fat32)
    (hd : d.Reliable) (hc : fs.Inside c) (v : UInt32) (hc' : fs.Inside c') (hne : c' ≠ c) {k : Nat}
    (hk : k < entryWidth fs.fsType) :
    fs.fatByte (fs.storeEntry d c (fs.putEntry c v)) (entryStart fs.fsType c'.toNat + k) =
      fs.fatByte d (entryStart fs.fsType c'.toNat + k) := by
  rw [h.fatByte_store ht hd hc v (by unfold Inside at hc'; omega), if_neg]
  exact entryStart_disjoint (not_fat12 ht) (fun he => hne (UInt32.toNat_inj.1 he)) hk

/-- The entry reads back what it keeps of the value. -/
theorem TwoFats.entry_store_self (h : fs.TwoFats) (ht : fs.fsType = .fat16 ∨ fs.fsType = .fat32)
    (hd : d.Reliable) (hc : fs.Inside c) (v : UInt32) :
    fs.entry (fs.storeEntry d c (fs.putEntry c v)) c = fs.kept v := by
  have hself := fun k => h.fatByte_store_self ht hd hc v (k := k)
  rcases ht with ht | ht
  · refine entry_fat16_self ht fun k hk => ?_
    rw [hself k (by rw [ht]; exact hk), putBytes, ht]
  · refine entry_fat32_self ht (w := (d.sector (fs.entrySector c)).get32 (fs.entryOffset c))
      fun k hk => ?_
    rw [hself k (by rw [ht]; exact hk), putBytes, ht]

theorem TwoFats.entry_store_other (h : fs.TwoFats) (ht : fs.fsType = .fat16 ∨ fs.fsType = .fat32)
    (hd : d.Reliable) (hc : fs.Inside c) (v : UInt32) (hc' : fs.Inside c') (hne : c' ≠ c) :
    fs.entry (fs.storeEntry d c (fs.putEntry c v)) c' = fs.entry d c' :=
  entry_congr fun _ hk => h.fatByte_store_other ht hd hc v hc' hne hk

/-- The four bits that a FAT32 entry does not show are taken over from the old word. -/
theorem TwoFats.fat32Word_store_self (h : fs.TwoFats) (ht : fs.fsType = .fat32) (hd : d.Reliable)
    (hc : fs.Inside c) (v : UInt32) :
    fs.fat32Word (fs.storeEntry d c (fs.putEntry c v)) c &&& 0xF0000000 =
      fs.fat32Word d c &&& 0xF0000000 := by
  have hself : ∀ k, k < 4 → fs.fatByte (fs.storeEntry d c (fs.putEntry c v))
      (entryStart .fat32 c.toNat + k) =
        byte ((fs.fat32Word d c &&& 0xF0000000) ||| (v &&& 0x0FFFFFFF)).toNat k := by
    intro k hk
    have hb := h.fatByte_store_self (.inr ht) hd hc v (k := k) (by rw [ht]; exact hk)
    rw [putBytes, get32_entry ht] at hb
    simp only [ht] at hb
    exact hb
  have h0 := hself 0 (by omega)
  rw [Nat.add_zero] at h0
  rw [fat32Word, h0, hself 1 (by omega), hself 2 (by omega), hself 3 (by omega), le32_byte,
    or_and_mask, UInt32.and_assoc, UInt32.and_assoc, UInt32.and_self,
    show (0x0FFFFFFF : UInt32) &&& 0xF0000000 = 0 by decide, UInt32.and_zero, UInt32.or_zero]

theorem TwoFats.fat32Word_store_other (h : fs.TwoFats) (ht : fs.fsType = .fat32) (hd : d.Reliable)
    (hc : fs.Inside c) (v : UInt32) (hc' : fs.Inside c') (hne : c' ≠ c) :
    fs.fat32Word (fs.storeEntry d c (fs.putEntry c v)) c' = fs.fat32Word d c' := by
  have hother : ∀ k, k < 4 → fs.fatByte (fs.storeEntry d c (fs.putEntry c v))
      (entryStart .fat32 c'.toNat + k) = fs.fatByte d (entryStart .fat32 c'.toNat + k) := by
    intro k hk
    have hb := h.fatByte_store_other (.inr ht) hd hc v hc' hne (k := k) (by rw [ht]; exact hk)
    rwa [ht] at hb
  have h0 := hother 0 (by omega)
  rw [Nat.add_zero] at h0
  rw [fat32Word, h0, hother 1 (by omega), hother 2 (by omega), hother 3 (by omega), fat32Word]

/-! ## Reading and writing -/

/-- The entry lies inside the first FAT, and 32 bits hold its byte offset. -/
structure Addressed (fs : FatFs) (c : UInt32) : Prop where
  inside : fs.Inside c
  offset : entryStart fs.fsType c.toNat < 2 ^ 32

theorem Addressed.fatOffset_toNat (hc : fs.Addressed c)
    (ht : fs.fsType = .fat16 ∨ fs.fsType = .fat32) :
    (fatOffset fs c).toNat = entryStart fs.fsType c.toNat := by
  have hlt := hc.offset
  unfold fatOffset
  rcases ht with ht | ht
  · simp only [ht, entryStart] at hlt ⊢
    rw [UInt32.toNat_mul]
    exact Nat.mod_eq_of_lt hlt
  · simp only [ht, entryStart] at hlt ⊢
    rw [UInt32.toNat_mul]
    exact Nat.mod_eq_of_lt hlt

theorem Addressed.readFatEntry_run (hc : fs.Addressed c)
    (ht : fs.fsType = .fat16 ∨ fs.fsType = .fat32) (h : fs.Sized) {s : FatState}
    (hd : s.disk.Reliable) : ∃ u, readFatEntry fs c s = .ok (fs.entry s.disk c, u) := by
  obtain ⟨u, hu, -⟩ := readFatEntry_of_offset h hd.readable (hc.fatOffset_toNat ht) s rfl
  exact ⟨u, hu⟩

theorem kept_fat16_toNat (ht : fs.fsType = .fat16) (v : UInt32) :
    (fs.kept v).toNat = v.toNat % 2 ^ 16 := by
  simp only [kept, ht]
  rw [UInt32.toNat_and]
  exact Nat.and_two_pow_sub_one_eq_mod _ 16

theorem kept_fat32_toNat (ht : fs.fsType = .fat32) (v : UInt32) :
    (fs.kept v).toNat = v.toNat % 2 ^ 28 := by
  simp only [kept, ht]
  rw [UInt32.toNat_and]
  exact Nat.and_two_pow_sub_one_eq_mod _ 28

/-- What writing `v` into the entry of `c` should do, for the other clusters in `others`. -/
structure Written (fs : FatFs) (others : UInt32 → Prop) (s t : FatState) (c v : UInt32) : Prop where
  read16 : fs.fsType = .fat16 → ∃ x u, readFatEntry fs c t = .ok (x, u) ∧ x.toNat = v.toNat % 2 ^ 16
  read32 : fs.fsType = .fat32 → ∃ x u, readFatEntry fs c t = .ok (x, u) ∧ x.toNat = v.toNat % 2 ^ 28
  top : fs.fsType = .fat32 →
    fs.fat32Word t.disk c &&& 0xF0000000 = fs.fat32Word s.disk c &&& 0xF0000000
  others : ∀ c', c' ≠ c → others c' →
    ∃ x u u', readFatEntry fs c' s = .ok (x, u) ∧ readFatEntry fs c' t = .ok (x, u')
  copies : fs.SameCopies s.disk → fs.SameCopies t.disk
  elsewhere : ∀ a, a ≠ fs.entrySector c →
    a ≠ fs.fatSector (entryStart fs.fsType c.toNat / 512 + fs.fatSize.toNat) →
    t.disk.sector a = s.disk.sector a

/-- **The entries are a table of values**: `write_fat_entry` sets one of them, in both copies, and
nothing else on the device. -/
theorem write_fat_entry_written (h : fs.TwoFats) (ht : fs.fsType = .fat16 ∨ fs.fsType = .fat32)
    {s : FatState} (hd : s.disk.Reliable) (hc : fs.Addressed c) (v : UInt32) :
    ∃ t, writeFatEntry fs c v s = .ok ((), t) ∧ fs.Written fs.Addressed s t c v := by
  obtain ⟨t, hrun, hdisk⟩ := writeFatEntry_of_offset h.sized h.known (hc.fatOffset_toNat ht)
    (not_crosses ht) v s hd.readable
  have htr : t.disk.Reliable := by
    rw [hdisk]
    exact reliable_mirrored hd _ _
  have hself : ∃ u, readFatEntry fs c t = .ok (fs.kept v, u) := by
    rw [← h.entry_store_self ht hd hc.inside v, ← hdisk]
    exact hc.readFatEntry_run ht h.sized htr
  obtain ⟨u, hu⟩ := hself
  refine ⟨t, hrun, ⟨fun h16 => ⟨_, u, hu, kept_fat16_toNat h16 v⟩,
    fun h32 => ⟨_, u, hu, kept_fat32_toNat h32 v⟩, fun h32 => ?_, fun c' hne hc' => ?_,
    fun hs => ?_, fun a h1 h2 => ?_⟩⟩
  · rw [hdisk, h.fat32Word_store_self h32 hd hc.inside v]
  · obtain ⟨u₀, h₀⟩ := hc'.readFatEntry_run ht h.sized hd
    obtain ⟨u₁, h₁⟩ := hc'.readFatEntry_run ht h.sized htr
    rw [hdisk, h.entry_store_other ht hd hc.inside v hc'.inside hne] at h₁
    exact ⟨_, u₀, u₁, h₀, h₁⟩
  · rw [hdisk]
    have hlt := hc.inside.start_lt
    exact h.sameCopies_mirrored hd hs (by omega) _
  · rw [hdisk, storeEntry, mirrored_sector_eq hd, if_neg]
    rintro (e | e)
    · exact h1 e
    · exact h2 e

/-! ## A FAT of more than 4 GiB -/

/-- A FAT32 volume with two FATs of one sector. -/
def cardFs : FatFs := ⟨0, 1, 2, 1, 0, 3, 100, 1, 512, .fat32, 2, true⟩

/-- A FAT32 volume with 2^30 + 126 clusters of one sector. -/
def giantFs : FatFs := ⟨0, 1, 2, 8388609, 0, 16777219, 1090519169, 1, 512, .fat32, 2, true⟩

/-- A device that holds zeros. -/
def zeroDisk : Disk := ⟨fun _ => Sector.zero, fun _ => true, fun _ _ => true, 0⟩

theorem zeroDisk_reliable : zeroDisk.Reliable := ⟨fun _ => rfl, fun _ _ => rfl⟩

theorem giantFs_twoFats : giantFs.TwoFats :=
  ⟨⟨rfl, by decide, by decide⟩, by decide, by decide⟩

/-- The last cluster of a small volume: the top bits of the value are dropped. -/
theorem write_fat_entry_written_card :
    ∃ t, writeFatEntry cardFs 98 0xF0000063 ⟨Sector.zero, zeroDisk⟩ = .ok ((), t) ∧
      cardFs.Written cardFs.Addressed ⟨Sector.zero, zeroDisk⟩ t 98 0xF0000063 :=
  write_fat_entry_written ⟨⟨rfl, by decide, by decide⟩, by decide, by decide⟩ (.inr rfl)
    zeroDisk_reliable ⟨by unfold Inside; decide, by decide⟩ 0xF0000063

/-- The offset of cluster 2^30 + 2 is that of cluster 2. -/
theorem fatOffset_giantFs : fatOffset giantFs 0x40000002 = fatOffset giantFs 2 := by decide

theorem writeFatEntry_giantFs (v : UInt32) :
    writeFatEntry giantFs 0x40000002 v = writeFatEntry giantFs 2 v := by
  have ht : giantFs.fsType = .fat32 := rfl
  unfold writeFatEntry
  rw [fatOffset_giantFs]
  simp only [ht]

/-- In a FAT of more than 4 GiB two entries share one place. -/
theorem giant_fat_entries_shared : ¬ ∀ (fs : FatFs) (s : FatState) (c v : UInt32), fs.TwoFats →
    (fs.fsType = .fat16 ∨ fs.fsType = .fat32) → s.disk.Reliable → fs.Inside c →
    ∃ t, writeFatEntry fs c v s = .ok ((), t) ∧ fs.Written fs.Inside s t c v := by
  intro hall
  have hin2 : giantFs.InFat 2 := by decide
  obtain ⟨t, hrun, hw⟩ := hall giantFs ⟨Sector.zero, zeroDisk⟩ 0x40000002 1 giantFs_twoFats
    (.inr rfl) zeroDisk_reliable (by unfold Inside; decide)
  obtain ⟨t', hrun', hdisk, -⟩ := giantFs_twoFats.writeFatEntry_stores hin2 (not_crosses (.inr rfl)) 1
    ⟨Sector.zero, zeroDisk⟩ zeroDisk_reliable.readable
  rw [writeFatEntry_giantFs, hrun'] at hrun
  obtain rfl := (Prod.mk.inj (Except.ok.inj hrun)).2
  have htr : t'.disk.Reliable := by
    rw [hdisk]
    exact reliable_mirrored zeroDisk_reliable _ _
  obtain ⟨x, u, u', hbefore, hafter⟩ := hw.others 2 (by decide) hin2.2
  obtain ⟨w, hread⟩ := readFatEntry_run giantFs_twoFats.sized hin2 htr
  rw [hdisk, giantFs_twoFats.entry_store_self (.inr rfl) zeroDisk_reliable hin2.2 1, hafter] at hread
  obtain ⟨w', hzero⟩ := readFatEntry_run (s := ⟨Sector.zero, zeroDisk⟩) giantFs_twoFats.sized hin2
    zeroDisk_reliable
  rw [hbefore] at hzero
  have h1 : x = giantFs.kept 1 := (Prod.mk.inj (Except.ok.inj hread)).1
  have h0 : x = giantFs.entry zeroDisk 2 := (Prod.mk.inj (Except.ok.inj hzero)).1
  exact absurd (h1.symm.trans h0) (by decide)

end FatFs

end HaoSys.Fs
