import HaoSys.Fs.Volume

/-!
# Writing the FAT

What `write_fat_entry` does to the two copies of the FAT and to the sectors
around them. A FAT12 entry whose two bytes lie in two sectors goes wrong: the
one buffer holds the second sector when the first is written back, so the
first sector becomes a copy of the second. And every write goes to a second
copy, whether the volume has one or not.
-/

namespace HaoSys.Fs

open HaoSys.Lib Prog

namespace FatFs

variable {fs : FatFs} {d : Disk} {c : UInt32}

/-! ## The two copies -/

/-- The second copy of the FAT is the first one's. -/
def SameCopies (fs : FatFs) (d : Disk) : Prop :=
  ∀ i, i < fs.fatSize.toNat → d.sector (fs.fatSector (i + fs.fatSize.toNat)) =
    d.sector (fs.fatSector i)

theorem reliable_mirrored (hd : d.Reliable) (i : Nat) (s : Sector) :
    (fs.mirrored d i s).Reliable := ⟨hd.readable, hd.writable⟩

theorem mirrored_sector_eq (hd : d.Reliable) (i : Nat) (s : Sector) (a : UInt32) :
    (fs.mirrored d i s).sector a =
      if a = fs.fatSector i ∨ a = fs.fatSector (i + fs.fatSize.toNat) then s else d.sector a := by
  unfold mirrored
  rw [Disk.write_sector, Disk.write_sector]
  simp only [Disk.wrote, Disk.write_writable, hd.writable, and_true]
  by_cases h1 : a = fs.fatSector (i + fs.fatSize.toNat)
  · rw [if_pos h1, if_pos (.inr h1)]
  · rw [if_neg h1]
    simp only [h1, or_false]

theorem TwoFats.sameCopies_mirrored (h : fs.TwoFats) (hd : d.Reliable) (hs : fs.SameCopies d)
    {i : Nat} (hi : i < fs.fatSize.toNat) (s : Sector) : fs.SameCopies (fs.mirrored d i s) := by
  intro j hj
  rw [mirrored_sector_eq hd, mirrored_sector_eq hd]
  by_cases he : j = i
  · rw [he, if_pos (.inr rfl), if_pos (.inl rfl)]
  · have hne : ∀ k l, k < 2 * fs.fatSize.toNat → l < 2 * fs.fatSize.toNat → k ≠ l →
        fs.fatSector k ≠ fs.fatSector l := fun k l hk hl hkl e => hkl (h.fatSector_inj hk hl e)
    rw [if_neg (not_or.2 ⟨hne _ _ (by omega) (by omega) (by omega),
      hne _ _ (by omega) (by omega) (by omega)⟩), if_neg (not_or.2
      ⟨hne _ _ (by omega) (by omega) he, hne _ _ (by omega) (by omega) (by omega)⟩), hs j hj]

/-! ## An entry in two sectors -/

theorem Crosses.next_lt (hx : fs.Crosses c) (hc : fs.InFat c) :
    entryStart .fat12 c.toNat / 512 + 1 < fs.fatSize.toNat := by
  have h1 := hc.2
  rw [hx.1] at h1
  have h2 := hx.2
  simp only [entryWidth] at h1
  omega

/-- The sector behind the one a FAT12 entry starts in. -/
def nextSector (fs : FatFs) (c : UInt32) : UInt32 :=
  fs.fatSector (entryStart fs.fsType c.toNat / 512 + 1)

/-- What `write_fat_entry` makes of the device for an entry that crosses a sector: the first sector
is written with the contents of the second. -/
def storeCrossing (fs : FatFs) (d : Disk) (c v : UInt32) : Disk :=
  let i := entryStart fs.fsType c.toNat / 512
  let second := d.sector (fs.nextSector c)
  let w := fat12Put c v (fs.fat12Word d c)
  fs.mirrored (fs.mirrored d i (second.set 511 (byte w.toNat 0))) (i + 1)
    (second.set 0 (byte w.toNat 1))

theorem fat12Word_crossing (hx : fs.Crosses c) :
    fs.fat12Word d c =
      le16 ((d.sector (fs.entrySector c)).get 511) ((d.sector (fs.nextSector c)).get 0) := by
  have hoff := hx.2
  unfold fat12Word fatByte entrySector nextSector
  rw [hx.1, show (entryStart .fat12 c.toNat + 1) / 512 = entryStart .fat12 c.toNat / 512 + 1 by omega,
    show (entryStart .fat12 c.toNat + 1) % 512 = 0 by omega, hoff]

theorem TwoFats.writeFatEntry_crossing (h : fs.TwoFats) (hc : fs.InFat c) (hx : fs.Crosses c)
    (v : UInt32) (s : FatState) (hd : s.disk.Reliable) :
    ∃ b, writeFatEntry fs c v s = .ok ((), ⟨b, fs.storeCrossing s.disk c v⟩) := by
  obtain ⟨off, sec, hplace, hoff, hsec⟩ := fatPlace_run h.sized hc s
  have hnext : fs.baseLba + (sec + 1) = fs.nextSector c := by
    rw [← UInt32.add_assoc, hsec, fatSector_succ, nextSector]
  have hlt := hx.next_lt hc
  have ht := hx.1
  have h511 : off.toNat = 511 := by
    rw [hoff, ht]
    exact hx.2
  have hin : ¬ off + 1 < fs.bytesPerSector := by
    rw [UInt32.lt_iff_toNat_lt, UInt32.toNat_add, h.sized.toNat, UInt32.toNat_one, h511]
    decide
  have hread : fatDevRead fs sec s = .ok (true, ⟨s.disk.sector (fs.entrySector c), s.disk⟩) := by
    rw [fatDevRead_of_readable (hd.readable _), hsec]
    rfl
  have hread2 : ∀ t : FatState, t.disk.Reliable →
      t.disk.sector (fs.nextSector c) = s.disk.sector (fs.nextSector c) →
      fatDevRead fs (sec + 1) t = .ok (true, ⟨s.disk.sector (fs.nextSector c), t.disk⟩) := by
    intro t ht hsame
    rw [fatDevRead_of_readable (ht.readable _), hnext, hsame]
  unfold writeFatEntry
  simp only [ht]
  rw [bind_of_ok hplace]
  simp only
  rw [if_neg hin, bind_of_ok hread]
  simp only [if_true]
  rw [bind_of_ok (bufRead_run (by omega) _ _), bind_of_ok (read_behind _),
    bind_of_ok (hread2 ⟨s.disk.sector (fs.entrySector c), s.disk⟩ hd rfl)]
  simp only [if_true]
  rw [bind_of_ok (bufRead_run (by decide) _ _), bind_of_ok (bufWrite_run (by omega) _ _),
    bind_of_ok (writeMirrored_run hsec _), bind_of_ok (hread2 _ (reliable_mirrored hd _ _) ?_)]
  · simp only [if_true]
    rw [bind_of_ok (bufWrite_run (by decide) _ _),
      writeMirrored_run (i := entryStart fs.fsType c.toNat / 512 + 1) hnext]
    simp only [h511, storeCrossing, fat12Word_crossing hx]
    exact ⟨_, rfl⟩
  · -- the first sector and its mirror are not the second one
    rw [mirrored_sector_eq hd, if_neg]
    rw [nextSector, ht] at *
    rintro (e | e)
    · have := h.fatSector_inj (by omega) (by omega) e
      omega
    · have := h.fatSector_inj (by omega) (by omega) e
      omega

/-! ## The entries after a write -/

/-- What writing the entry of `c` should do: it reads back, the other entries read as before, the
copies stay the same, and no sector outside the two FATs changes. -/
structure Stored (fs : FatFs) (s t : FatState) (c v : UInt32) : Prop where
  read : ∃ u, readFatEntry fs c t = .ok (v, u)
  others : ∀ c', c' ≠ c → fs.InFat c' → ∀ x u, readFatEntry fs c' s = .ok (x, u) →
    ∃ u', readFatEntry fs c' t = .ok (x, u')
  copies : fs.SameCopies t.disk
  outside : ∀ a, fs.OffFat a → t.disk.sector a = s.disk.sector a

theorem readFatEntry_run (h : fs.Sized) (hc : fs.InFat c) {s : FatState} (hd : s.disk.Reliable) :
    ∃ u, readFatEntry fs c s = .ok (fs.entry s.disk c, u) := by
  obtain ⟨u, hu, -⟩ := readFatEntry_reads h hd.readable hc s rfl
  exact ⟨u, hu⟩

/-- In terms of the entries. -/
theorem TwoFats.stored_iff (h : fs.TwoFats) (hc : fs.InFat c) {s t : FatState} {v : UInt32}
    (hs : s.disk.Reliable) (ht : t.disk.Reliable) :
    fs.Stored s t c v ↔ fs.entry t.disk c = v ∧
      (∀ c', c' ≠ c → fs.InFat c' → fs.entry t.disk c' = fs.entry s.disk c') ∧
      fs.SameCopies t.disk ∧ ∀ a, fs.OffFat a → t.disk.sector a = s.disk.sector a := by
  constructor
  · rintro ⟨⟨u, hread⟩, hothers, hcopies, hout⟩
    refine ⟨?_, fun c' hne hc' => ?_, hcopies, hout⟩
    · obtain ⟨u', hu'⟩ := readFatEntry_run h.sized hc ht
      rw [hu'] at hread
      exact (Prod.mk.inj (Except.ok.inj hread)).1
    · obtain ⟨u₀, h₀⟩ := readFatEntry_run h.sized hc' hs
      obtain ⟨u₁, h₁⟩ := hothers c' hne hc' _ _ h₀
      obtain ⟨u₂, h₂⟩ := readFatEntry_run h.sized hc' ht
      rw [h₂] at h₁
      exact (Prod.mk.inj (Except.ok.inj h₁)).1
  · rintro ⟨hread, hothers, hcopies, hout⟩
    refine ⟨?_, fun c' hne hc' x u hu => ?_, hcopies, hout⟩
    · obtain ⟨u, hu⟩ := readFatEntry_run h.sized hc ht
      exact ⟨u, hread ▸ hu⟩
    · obtain ⟨u₀, h₀⟩ := readFatEntry_run h.sized hc' hs
      obtain ⟨u₁, h₁⟩ := readFatEntry_run h.sized hc' ht
      rw [h₀] at hu
      rw [← (Prod.mk.inj (Except.ok.inj hu)).1, ← hothers c' hne hc']
      exact ⟨u₁, h₁⟩

/-- The first 511 bytes of the two sectors of an entry are the same. -/
def SameStart (fs : FatFs) (d : Disk) (c : UInt32) : Prop :=
  ∀ j, j < 511 → (d.sector (fs.entrySector c)).get j = (d.sector (fs.nextSector c)).get j

theorem TwoFats.fatByte_crossing (h : fs.TwoFats) (hd : d.Reliable) (hc : fs.InFat c)
    (hx : fs.Crosses c) (v : UInt32) {o : Nat} (ho : o < fs.fatSize.toNat * 512) :
    fs.fatByte (fs.storeCrossing d c v) o =
      if o = entryStart .fat12 c.toNat then byte (fat12Put c v (fs.fat12Word d c)).toNat 0
      else if o = entryStart .fat12 c.toNat + 1 then byte (fat12Put c v (fs.fat12Word d c)).toNat 1
      else if o / 512 = entryStart .fat12 c.toNat / 512 then
        (d.sector (fs.nextSector c)).get (o % 512)
      else fs.fatByte d o := by
  have hlt := hx.next_lt hc
  have hoff := hx.2
  have hinj : ∀ k l, k < 2 * fs.fatSize.toNat → l < 2 * fs.fatSize.toNat →
      (fs.fatSector k = fs.fatSector l ↔ k = l) := fun k l hk hl =>
    ⟨h.fatSector_inj hk hl, fun e => by rw [e]⟩
  unfold fatByte storeCrossing
  simp only [hx.1]
  rw [mirrored_sector_eq (reliable_mirrored hd _ _), mirrored_sector_eq hd]
  simp only [hinj (o / 512) (entryStart .fat12 c.toNat / 512 + 1) (by omega) (by omega),
    hinj (o / 512) (entryStart .fat12 c.toNat / 512 + 1 + fs.fatSize.toNat) (by omega) (by omega),
    hinj (o / 512) (entryStart .fat12 c.toNat / 512) (by omega) (by omega),
    hinj (o / 512) (entryStart .fat12 c.toNat / 512 + fs.fatSize.toNat) (by omega) (by omega)]
  by_cases h0 : o = entryStart .fat12 c.toNat
  · rw [if_pos h0, if_neg (by omega), if_pos (by omega), Sector.get_set (by decide),
      if_pos (by omega)]
  rw [if_neg h0]
  by_cases h1 : o = entryStart .fat12 c.toNat + 1
  · rw [if_pos h1, if_pos (by omega), Sector.get_set (by decide), if_pos (by omega)]
  rw [if_neg h1]
  by_cases hsame : o / 512 = entryStart .fat12 c.toNat / 512
  · rw [if_neg (by omega), if_pos (by omega), if_pos hsame, Sector.get_set (by decide),
      if_neg (by omega)]
  · rw [if_neg hsame]
    by_cases hnext : o / 512 = entryStart .fat12 c.toNat / 512 + 1
    · rw [if_pos (by omega), Sector.get_set (by decide), if_neg (by omega), nextSector, hx.1, hnext]
    · rw [if_neg (by omega), if_neg (by omega)]

theorem TwoFats.sameCopies_crossing (h : fs.TwoFats) (hd : d.Reliable) (hs : fs.SameCopies d)
    (hc : fs.InFat c) (hx : fs.Crosses c) (v : UInt32) :
    fs.SameCopies (fs.storeCrossing d c v) := by
  have hlt := hx.next_lt hc
  unfold storeCrossing
  simp only [hx.1]
  exact h.sameCopies_mirrored (reliable_mirrored hd _ _)
    (h.sameCopies_mirrored hd hs (by omega) _) hlt _

theorem offFat_crossing (hc : fs.InFat c) (hx : fs.Crosses c) (v : UInt32) {a : UInt32}
    (ha : fs.OffFat a) : (fs.storeCrossing d c v).sector a = d.sector a := by
  have hlt := hx.next_lt hc
  unfold storeCrossing
  simp only [hx.1]
  rw [mirrored_offFat hlt _ ha, mirrored_offFat (by omega) _ ha]

theorem kept_fat12 (ht : fs.fsType = .fat12) {v : UInt32} (hv : v < 4096) : fs.kept v = v := by
  have hlt : v.toNat < 2 ^ 12 := UInt32.lt_iff_toNat_lt.1 hv
  unfold kept
  simp only [ht]
  apply UInt32.toNat_inj.1
  rw [UInt32.toNat_and, show (0xFFF : UInt32).toNat = 2 ^ 12 - 1 from rfl,
    Nat.and_two_pow_sub_one_eq_mod, Nat.mod_eq_of_lt hlt]

/-- With equal sectors the copy does no harm. -/
theorem TwoFats.stored_crossing (h : fs.TwoFats) (hc : fs.InFat c) (hx : fs.Crosses c)
    {s t : FatState} {v : UInt32} (hd : s.disk.Reliable) (hs : fs.SameCopies s.disk) (hv : v < 4096)
    (ht : t.disk = fs.storeCrossing s.disk c v) (hsame : fs.SameStart s.disk c) :
    fs.Stored s t c v := by
  have htr : t.disk.Reliable := by
    rw [ht]
    exact reliable_mirrored (reliable_mirrored hd _ _) _ _
  have hfat := hx.1
  have hbyte : ∀ o, o < fs.fatSize.toNat * 512 → fs.fatByte t.disk o =
      if entryStart .fat12 c.toNat ≤ o ∧ o < entryStart .fat12 c.toNat + 2 then
        byte (fat12Put c v (fs.fat12Word s.disk c)).toNat (o - entryStart .fat12 c.toNat)
      else fs.fatByte s.disk o := by
    intro o ho
    have hoff := hx.2
    rw [ht, h.fatByte_crossing hd hc hx v ho]
    by_cases h0 : o = entryStart .fat12 c.toNat
    · rw [if_pos h0, if_pos (by omega), h0, Nat.sub_self]
    rw [if_neg h0]
    by_cases h1 : o = entryStart .fat12 c.toNat + 1
    · rw [if_pos h1, if_pos (by omega), h1, Nat.add_sub_cancel_left]
    have hno : ¬ (entryStart .fat12 c.toNat ≤ o ∧ o < entryStart .fat12 c.toNat + 2) := by omega
    rw [if_neg h1, if_neg hno]
    split
    · next he =>
      rw [← hsame _ (by omega)]
      unfold fatByte entrySector
      rw [hfat, he]
    · rfl
  have hin := hc.2
  rw [hfat] at hin
  simp only [entryWidth] at hin
  refine (h.stored_iff hc hd htr).2 ⟨?_, fun c' hne hc' => ?_, ?_, fun a ha => ?_⟩
  · rw [← kept_fat12 hfat hv]
    refine entry_fat12_self (w := fs.fat12Word s.disk c) hfat fun k hk => ?_
    rw [hbyte _ (by omega), if_pos (by omega), Nat.add_sub_cancel_left]
  · have hin' := hc'.2
    rw [hfat] at hin'
    simp only [entryWidth] at hin'
    exact entry_fat12_other hfat hne fun k hk => hbyte _ (by omega)
  · rw [ht]
    exact h.sameCopies_crossing hd hs hc hx v
  · rw [ht]
    exact offFat_crossing hc hx v ha

/-! ## When an entry is stored -/

/-- A byte of a FAT12 is determined by the entries that share it. -/
theorem fatByte_of_entries {d' : Disk} (ht : fs.fsType = .fat12) {o : Nat} (ho : o < 2 ^ 30)
    (h : ∀ e : UInt32, entryStart .fat12 e.toNat ≤ o → o < entryStart .fat12 e.toNat + 2 →
      fs.entry d' e = fs.entry d e) : fs.fatByte d' o = fs.fatByte d o := by
  have hentry : ∀ n, n < 2 ^ 32 → n * 3 / 2 ≤ o → o < n * 3 / 2 + 2 →
      (fat12Get (UInt32.ofNat n) (fs.fatByte d' (n * 3 / 2)) (fs.fatByte d' (n * 3 / 2 + 1))).toNat =
      (fat12Get (UInt32.ofNat n) (fs.fatByte d (n * 3 / 2)) (fs.fatByte d (n * 3 / 2 + 1))).toNat := by
    intro n hn h1 h2
    have hnat : (UInt32.ofNat n).toNat = n := UInt32.toNat_ofNat_of_lt' hn
    have he := h (UInt32.ofNat n) (by rw [hnat]; exact h1) (by rw [hnat]; exact h2)
    unfold entry at he
    simp only [ht, hnat, Nat.add_zero] at he
    exact congrArg UInt32.toNat he
  -- two entries take three bytes
  have hq : 2 * (o / 3) < 2 ^ 32 ∧ 2 * (o / 3) + 1 < 2 ^ 32 := by omega
  have heven := hentry (2 * (o / 3)) hq.1
  have hodd := hentry (2 * (o / 3) + 1) hq.2
  simp only [fat12Get_toNat, UInt32.toNat_ofNat_of_lt' hq.1, UInt32.toNat_ofNat_of_lt' hq.2,
    show 2 * (o / 3) * 3 / 2 = 3 * (o / 3) by omega,
    show (2 * (o / 3) + 1) * 3 / 2 = 3 * (o / 3) + 1 by omega,
    show 2 * (o / 3) % 2 = 0 by omega, show (2 * (o / 3) + 1) % 2 = 1 by omega] at heven hodd
  have hlt : ∀ (x : Disk) k, (fs.fatByte x k).toNat < 256 := fun x k => UInt8.toNat_lt _
  apply UInt8.toNat_inj.1
  obtain hr | hr | hr : o = 3 * (o / 3) ∨ o = 3 * (o / 3) + 1 ∨ o = 3 * (o / 3) + 1 + 1 := by omega
  · have h0 := heven (by omega) (by omega)
    rw [← hr, if_neg (by decide), if_neg (by decide)] at h0
    have := hlt d o
    have := hlt d' o
    omega
  · have h0 := heven (by omega) (by omega)
    have h1 := hodd (by omega) (by omega)
    rw [← hr, if_neg (by decide), if_neg (by decide)] at h0
    rw [← hr, if_pos trivial, if_pos trivial] at h1
    have := hlt d (3 * (o / 3))
    have := hlt d' (3 * (o / 3))
    have := hlt d o
    have := hlt d' o
    omega
  · have h1 := hodd (by omega) (by omega)
    rw [← hr, if_pos trivial, if_pos trivial] at h1
    have := hlt d (3 * (o / 3) + 1)
    have := hlt d' (3 * (o / 3) + 1)
    omega

/-- Where the entries survive a crossing write, the sectors were the same already. -/
theorem TwoFats.sameStart_of_stored (h : fs.TwoFats) (hc : fs.InFat c) (hx : fs.Crosses c)
    {s t : FatState} {v : UInt32} (hd : s.disk.Reliable) (ht : t.disk = fs.storeCrossing s.disk c v)
    (hst : fs.Stored s t c v) : fs.SameStart s.disk c := by
  have htr : t.disk.Reliable := by
    rw [ht]
    exact reliable_mirrored (reliable_mirrored hd _ _) _ _
  obtain ⟨-, hothers, -⟩ := (h.stored_iff hc hd htr).1 hst
  have hlt := hx.next_lt hc
  have hoff := hx.2
  have hc1 : c.toNat < 0x0FFFFFF8 := UInt32.lt_iff_toNat_lt.1 hc.1
  have hbound : entryStart .fat12 c.toNat < 2 ^ 30 := by
    simp only [entryStart]
    omega
  intro j hj
  -- byte `j` of the first sector belongs to entries before that of `c`
  have hbyte : fs.fatByte t.disk (entryStart .fat12 c.toNat / 512 * 512 + j) =
      fs.fatByte s.disk (entryStart .fat12 c.toNat / 512 * 512 + j) := by
    refine fatByte_of_entries hx.1 (by omega) fun e he1 he2 => ?_
    have hec : entryStart .fat12 e.toNat < entryStart .fat12 c.toNat := by omega
    have hlt' : e.toNat < c.toNat := by
      by_contra hge
      exact absurd (entryStart_mono .fat12 (Nat.le_of_not_lt hge)) (by omega)
    refine hothers e (fun h => by rw [h] at hlt'; omega) ⟨?_, ?_⟩
    · rw [UInt32.lt_iff_toNat_lt]
      exact Nat.lt_trans hlt' hc1
    · rw [hx.1]
      simp only [entryWidth]
      omega
  rw [ht, h.fatByte_crossing hd hc hx v (by omega), if_neg (by omega), if_neg (by omega),
    if_pos (by omega)] at hbyte
  unfold fatByte at hbyte
  rw [show (entryStart .fat12 c.toNat / 512 * 512 + j) / 512 = entryStart .fat12 c.toNat / 512 by omega,
    show (entryStart .fat12 c.toNat / 512 * 512 + j) % 512 = j by omega] at hbyte
  rw [entrySector, hx.1]
  exact hbyte.symm

/-- An entry in one sector is stored. -/
theorem TwoFats.stored_inside (h : fs.TwoFats) (ht : fs.fsType = .fat12) (hc : fs.InFat c)
    (hx : ¬ fs.Crosses c) {s : FatState} {v : UInt32} (hd : s.disk.Reliable)
    (hs : fs.SameCopies s.disk) (hv : v < 4096) :
    ∃ t, writeFatEntry fs c v s = .ok ((), t) ∧ fs.Stored s t c v := by
  obtain ⟨t, hrun, hdisk, hu⟩ := h.writeFatEntry_stores hc hx v s hd.readable
  have htr : t.disk.Reliable := ⟨fun a => hu.readable ▸ hd.readable a,
    fun n a => hu.writable ▸ hd.writable n a⟩
  have hw : s.disk.wrote (fs.entrySector c) = true := hd.writable _ _
  have htable := hu.table
  rw [if_pos hw, kept_fat12 ht hv] at htable
  refine ⟨t, hrun, (h.stored_iff hc hd htr).2 ⟨?_, fun c' hne hc' => ?_, ?_, hu.offFat⟩⟩
  · rw [← table_of_inFat hc, htable, Function.update_self]
  · rw [← table_of_inFat hc', htable, Function.update_of_ne hne, table_of_inFat hc']
  · rw [hdisk]
    exact h.sameCopies_mirrored hd hs (by have := hc.start_lt; omega) _

/-- Writing a 12-bit entry stores it and nothing else exactly if its two bytes lie in one sector, or
the two sectors start with the same 511 bytes. -/
theorem write_fat12_entry_stored_iff (h : fs.TwoFats) (ht : fs.fsType = .fat12) {s : FatState}
    (hd : s.disk.Reliable) (hs : fs.SameCopies s.disk) (hc : fs.InFat c) {v : UInt32} (hv : v < 4096) :
    (∃ t, writeFatEntry fs c v s = .ok ((), t) ∧ fs.Stored s t c v) ↔
      (fs.Crosses c → fs.SameStart s.disk c) := by
  by_cases hx : fs.Crosses c
  · obtain ⟨b, hrun⟩ := h.writeFatEntry_crossing hc hx v s hd
    constructor
    · rintro ⟨t, ht, hst⟩ -
      rw [hrun] at ht
      have hdisk : t = ⟨b, fs.storeCrossing s.disk c v⟩ := (Prod.mk.inj (Except.ok.inj ht)).2.symm
      exact h.sameStart_of_stored hc hx hd (by rw [hdisk]) hst
    · intro hsame
      exact ⟨_, hrun, h.stored_crossing hc hx hd hs hv rfl (hsame hx)⟩
  · exact ⟨fun _ hx' => absurd hx' hx, fun _ => h.stored_inside ht hc hx hd hs hv⟩

/-! ## A FAT12 of two sectors -/

/-- A FAT12 volume with two FATs of two sectors at sector 1. -/
def floppyFs : FatFs := ⟨0, 1, 2, 2, 1, 6, 2000, 1, 512, .fat12, 0, true⟩

/-- FATs that only hold the media byte. -/
def mediaDisk : Disk :=
  ⟨fun a => if a = 1 ∨ a = 3 then Sector.zero.set 0 0xF0 else Sector.zero, fun _ => true,
    fun _ _ => true, 0⟩

theorem floppyFs_twoFats : floppyFs.TwoFats :=
  ⟨⟨rfl, by decide, by decide⟩, by decide, by decide⟩

theorem floppyFs_inFat : floppyFs.InFat 341 := by decide

theorem floppyFs_crosses : floppyFs.Crosses 341 := by decide

theorem mediaDisk_reliable : mediaDisk.Reliable := ⟨fun _ => rfl, fun _ _ => rfl⟩

theorem mediaDisk_sameCopies : floppyFs.SameCopies mediaDisk := by
  intro i hi
  obtain rfl | rfl : i = 0 ∨ i = 1 := by
    have : floppyFs.fatSize.toNat = 2 := rfl
    omega
  · rfl
  · rfl

/-- Cluster 340's entry is stored: its bytes are 510 and 511. -/
theorem write_fat12_entry_stored_340 :
    ∃ t, writeFatEntry floppyFs 340 0xFFF ⟨Sector.zero, mediaDisk⟩ = .ok ((), t) ∧
      floppyFs.Stored ⟨Sector.zero, mediaDisk⟩ t 340 0xFFF :=
  (write_fat12_entry_stored_iff floppyFs_twoFats rfl mediaDisk_reliable mediaDisk_sameCopies
    (by decide) (by decide)).2 fun hx => absurd hx (by decide)

/-- Cluster 341's is not: the write replaces the media byte by the next sector's first byte. -/
theorem write_fat12_entry_not_stored_341 :
    ¬ ∀ (fs : FatFs) (s : FatState) (c v : UInt32), fs.TwoFats → fs.fsType = .fat12 →
      s.disk.Reliable → fs.SameCopies s.disk → fs.InFat c → v < 4096 →
      ∃ t, writeFatEntry fs c v s = .ok ((), t) ∧ fs.Stored s t c v := by
  intro hall
  obtain ⟨t, hrun, hst⟩ := hall floppyFs ⟨Sector.zero, mediaDisk⟩ 341 0xFFF floppyFs_twoFats rfl
    mediaDisk_reliable mediaDisk_sameCopies floppyFs_inFat (by decide)
  obtain ⟨b, hrun'⟩ := floppyFs_twoFats.writeFatEntry_crossing floppyFs_inFat floppyFs_crosses 0xFFF
    ⟨Sector.zero, mediaDisk⟩ mediaDisk_reliable
  rw [hrun'] at hrun
  have hdisk := (Prod.mk.inj (Except.ok.inj hrun)).2.symm
  have hsame := floppyFs_twoFats.sameStart_of_stored (s := ⟨Sector.zero, mediaDisk⟩) floppyFs_inFat
    floppyFs_crosses mediaDisk_reliable (by rw [hdisk]) hst
  exact absurd (hsame 0 (by decide)) (by decide)

end FatFs

end HaoSys.Fs
