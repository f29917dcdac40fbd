import HaoSys.Fs.Dir

/-!
# Where a sound volume keeps things

On a sound volume the sectors of the FATs, of the fixed root region and of every
cluster are disjoint. `ChangesIn` is what follows for a call that only takes free
clusters: the entries of all other clusters and every sector outside the FATs and
outside these clusters are as before.
-/

namespace HaoSys.Fs

open HaoSys.Lib Prog DirSlot

namespace FatFs

variable {fs : FatFs} {d d' : Disk} {c c' l : UInt32}

/-- A cluster of the data area. -/
def Cluster (fs : FatFs) (c : UInt32) : Prop := 2 ≤ c.toNat ∧ c < fs.clusterLimit

/-- A region a directory can lie in: a cluster, or the fixed root region. -/
def Place (fs : FatFs) (c : UInt32) : Prop := c = 0 ∨ fs.Cluster c

/-! ## Regions -/

theorem mem_sectorsFrom {lba : UInt32} {n : Nat} (hn : lba.toNat + n ≤ 2 ^ 32) :
    l ∈ sectorsFrom lba n ↔ lba.toNat ≤ l.toNat ∧ l.toNat < lba.toNat + n := by
  induction n generalizing lba with
  | zero =>
    simp only [sectorsFrom, List.not_mem_nil, false_iff]
    omega
  | succ n ih =>
    unfold sectorsFrom
    rw [List.mem_cons]
    by_cases hn0 : n = 0
    · subst hn0
      simp only [sectorsFrom, List.not_mem_nil, or_false]
      rw [← UInt32.toNat_inj]
      omega
    · have hadd : (lba + 1).toNat = lba.toNat + 1 := by
        rw [UInt32.toNat_add, UInt32.toNat_one]
        omega
      rw [ih (by omega), hadd, ← UInt32.toNat_inj]
      omega

theorem Sound.inFat (h : fs.Sound) (hc : fs.Cluster c) : fs.InFat c := by
  have hlt := UInt32.lt_iff_toNat_lt.1 hc.2
  refine ⟨?_, h.table _ hlt⟩
  have hlim := h.limit
  have hres : reservedClusters fs.fsType ≤ 0x0FFFFFF7 := by
    cases fs.fsType <;> decide
  rw [UInt32.lt_iff_toNat_lt]
  change c.toNat < 0x0FFFFFF8
  omega

/-- The clusters fit behind the first data sector. -/
theorem Sound.cluster_fits (h : fs.Sound) (hc : fs.Cluster c) :
    fs.firstDataSector.toNat + ((c.toNat - 2) * fs.sectorsPerCluster.toNat +
      fs.sectorsPerCluster.toNat) ≤ fs.totalSectors.toNat := by
  obtain ⟨h2, hlt⟩ := hc
  have hfirst := h.firstData
  have hfits := h.fits
  have htot := fs.totalSectors.toNat_lt
  have hsum : (fs.reservedSectors + fs.numFats * fs.fatSize + fs.rootDirSectors).toNat =
      fs.firstDataSector.toNat := by
    rw [h.numFats, UInt32.toNat_add, UInt32.toNat_add, UInt32.toNat_mul,
      show (2 : UInt32).toNat = 2 from rfl]
    omega
  have hsub : (fs.totalSectors - (fs.reservedSectors + fs.numFats * fs.fatSize +
      fs.rootDirSectors)).toNat = fs.totalSectors.toNat - fs.firstDataSector.toNat := by
    rw [UInt32.toNat_sub_of_le _ _ (UInt32.le_iff_toNat_le.2 (by rw [hsum]; exact hfits)), hsum]
  have hlim : c.toNat < 2 +
      (fs.totalSectors.toNat - fs.firstDataSector.toNat) / fs.sectorsPerCluster.toNat := by
    have hl := UInt32.lt_iff_toNat_lt.1 hlt
    rw [clusterLimit, UInt32.toNat_add, UInt32.toNat_div, hsub,
      show (2 : UInt32).toNat = 2 from rfl] at hl
    exact Nat.lt_of_lt_of_le hl (Nat.mod_le _ _)
  have hmul : (c.toNat - 2 + 1) * fs.sectorsPerCluster.toNat ≤
      fs.totalSectors.toNat - fs.firstDataSector.toNat := by
    refine Nat.le_trans (Nat.mul_le_mul_right _ ?_) (Nat.div_mul_le_self _ _)
    omega
  rw [Nat.add_mul, Nat.one_mul] at hmul
  omega

theorem Sound.clusterLba_toNat (h : fs.Sound) (hc : fs.Cluster c) :
    (clusterLba fs c).toNat =
      fs.firstDataSector.toNat + (c.toNat - 2) * fs.sectorsPerCluster.toNat := by
  have hfits := h.cluster_fits hc
  have htot := fs.totalSectors.toNat_lt
  have hsub : (c - 2).toNat = c.toNat - 2 :=
    UInt32.toNat_sub_of_le _ _ (UInt32.le_iff_toNat_le.2 hc.1)
  unfold clusterLba
  rw [UInt32.toNat_add, UInt32.toNat_mul, hsub]
  generalize (c.toNat - 2) * fs.sectorsPerCluster.toNat = x at hfits ⊢
  omega

/-- The sectors of a cluster. -/
theorem Sound.mem_cluster (h : fs.Sound) (hc : fs.Cluster c) :
    l ∈ fs.regionSectors c ↔
      fs.firstDataSector.toNat + (c.toNat - 2) * fs.sectorsPerCluster.toNat ≤ l.toNat ∧
      l.toNat < fs.firstDataSector.toNat + (c.toNat - 2) * fs.sectorsPerCluster.toNat +
        fs.sectorsPerCluster.toNat := by
  have hne : c ≠ 0 := (ne_one_of_two_le hc.1).2
  have hfits := h.cluster_fits hc
  have htot := fs.totalSectors.toNat_lt
  have hlba := h.clusterLba_toNat hc
  have hregion : dirRegion fs c = (clusterLba fs c, fs.sectorsPerCluster) := if_neg hne
  unfold regionSectors
  rw [hregion]
  rw [mem_sectorsFrom (by simp only; omega)]
  simp only
  rw [hlba]

theorem Sound.mem_root (h : fs.Sound) :
    l ∈ fs.regionSectors 0 ↔ fs.reservedSectors.toNat + 2 * fs.fatSize.toNat ≤ l.toNat ∧
      l.toNat < fs.firstDataSector.toNat := by
  have hfirst := h.firstData
  have hfits := h.fits
  have htot := fs.totalSectors.toNat_lt
  have hstart : (fs.reservedSectors + fs.numFats * fs.fatSize).toNat =
      fs.reservedSectors.toNat + 2 * fs.fatSize.toNat := by
    rw [h.numFats, UInt32.toNat_add, UInt32.toNat_mul, show (2 : UInt32).toNat = 2 from rfl]
    omega
  have hregion : dirRegion fs 0 =
      (fs.reservedSectors + fs.numFats * fs.fatSize, fs.rootDirSectors) := if_pos rfl
  unfold regionSectors
  rw [hregion]
  rw [mem_sectorsFrom (by simp only; omega)]
  simp only
  omega

/-- The region of a place lies behind the FATs and inside the volume. -/
theorem Sound.region_bounds (h : fs.Sound) (hc : fs.Place c) (hl : l ∈ fs.regionSectors c) :
    fs.reservedSectors.toNat + 2 * fs.fatSize.toNat ≤ l.toNat ∧
      l.toNat < fs.totalSectors.toNat := by
  have hfirst := h.firstData
  have hfits := h.fits
  rcases hc with rfl | hc
  · have := h.mem_root.1 hl
    omega
  · have hm := (h.mem_cluster hc).1 hl
    have := h.cluster_fits hc
    omega

theorem Sound.offFat (h : fs.Sound) (hc : fs.Place c) (hl : l ∈ fs.regionSectors c) :
    fs.OffFat (fs.baseLba + l) := by
  intro i hi he
  have hb := h.region_bounds hc hl
  have hbase := h.base
  have hsec := h.twoFats.fatSector_toNat hi
  rw [← he, UInt32.toNat_add] at hsec
  omega

/-- Different places share no sector. -/
theorem Sound.region_inj (h : fs.Sound) (hc : fs.Place c) (hc' : fs.Place c')
    (hl : l ∈ fs.regionSectors c) (hl' : l ∈ fs.regionSectors c') : c = c' := by
  rcases hc with rfl | hc <;> rcases hc' with rfl | hc'
  · rfl
  · have h1 := h.mem_root.1 hl
    have h2 := (h.mem_cluster hc').1 hl'
    omega
  · have h1 := h.mem_root.1 hl'
    have h2 := (h.mem_cluster hc).1 hl
    omega
  · have h1 := (h.mem_cluster hc).1 hl
    have h2 := (h.mem_cluster hc').1 hl'
    have hpos : 0 < fs.sectorsPerCluster.toNat := by
      by_contra hz
      exact h.sized.cluster (UInt32.toNat_inj.1 (by rw [UInt32.toNat_zero]; omega))
    have hdiv : ∀ {k : Nat}, k * fs.sectorsPerCluster.toNat ≤ l.toNat - fs.firstDataSector.toNat →
        l.toNat - fs.firstDataSector.toNat <
          k * fs.sectorsPerCluster.toNat + fs.sectorsPerCluster.toNat →
        (l.toNat - fs.firstDataSector.toNat) / fs.sectorsPerCluster.toNat = k := by
      intro k hk hk'
      refine Nat.div_eq_of_lt_le hk ?_
      rw [Nat.add_mul, Nat.one_mul]
      exact hk'
    have e1 := hdiv (k := c.toNat - 2) (by omega) (by omega)
    have e2 := hdiv (k := c'.toNat - 2) (by omega) (by omega)
    have g1 := hc.1
    have g2 := hc'.1
    rw [← UInt32.toNat_inj]
    omega

theorem nodup_sectorsFrom {lba : UInt32} {n : Nat} (hn : lba.toNat + n ≤ 2 ^ 32) :
    (sectorsFrom lba n).Nodup := by
  induction n generalizing lba with
  | zero => exact List.nodup_nil
  | succ n ih =>
    unfold sectorsFrom
    by_cases h0 : n = 0
    · subst h0
      simp [sectorsFrom]
    · have hadd : (lba + 1).toNat = lba.toNat + 1 := by
        rw [UInt32.toNat_add, UInt32.toNat_one]
        omega
      refine List.nodup_cons.2 ⟨fun hm => ?_, ih (by omega)⟩
      have := (mem_sectorsFrom (by omega)).1 hm
      omega

theorem Sound.nodup_region (h : fs.Sound) {c : UInt32} (hc : fs.Place c) :
    (fs.regionSectors c).Nodup := by
  refine nodup_sectorsFrom ?_
  have hfirst := h.firstData
  have hfits := h.fits
  have htot := fs.totalSectors.toNat_lt
  rcases hc with rfl | hc
  · have hregion : dirRegion fs 0 =
        (fs.reservedSectors + fs.numFats * fs.fatSize, fs.rootDirSectors) := if_pos rfl
    rw [hregion]
    simp only
    rw [h.numFats, UInt32.toNat_add, UInt32.toNat_mul, show (2 : UInt32).toNat = 2 from rfl]
    omega
  · have hne : c ≠ 0 := (ne_one_of_two_le hc.1).2
    have hregion : dirRegion fs c = (clusterLba fs c, fs.sectorsPerCluster) := if_neg hne
    have hlba := h.clusterLba_toNat hc
    have hin := h.cluster_fits hc
    rw [hregion]
    simp only
    omega

/-! ## What a call leaves alone -/

/-- From `d` to `d'` only entries of the clusters `T` and sectors of the clusters `S` changed. -/
structure ChangesIn (fs : FatFs) (T S : UInt32 → Prop) (d d' : Disk) : Prop where
  table : ∀ c, ¬ T c → fs.table d' c = fs.table d c
  sector : ∀ a, fs.OffFat a → (∀ c, S c → ∀ l ∈ fs.regionSectors c, a ≠ fs.baseLba + l) →
    d'.sector a = d.sector a
  readable : d'.readable = d.readable
  writable : d'.writable = d.writable

variable {T S T' S' : UInt32 → Prop} {d'' : Disk}

theorem ChangesIn.refl (fs : FatFs) (T S : UInt32 → Prop) (d : Disk) : fs.ChangesIn T S d d :=
  ⟨fun _ _ => rfl, fun _ _ _ => rfl, rfl, rfl⟩

theorem ChangesIn.trans (h : fs.ChangesIn T S d d') (h' : fs.ChangesIn T S d' d'') :
    fs.ChangesIn T S d d'' :=
  ⟨fun c hc => (h'.table c hc).trans (h.table c hc),
    fun a ha hs => (h'.sector a ha hs).trans (h.sector a ha hs),
    h'.readable.trans h.readable, h'.writable.trans h.writable⟩

theorem ChangesIn.mono (h : fs.ChangesIn T S d d') (hT : ∀ c, T c → T' c) (hS : ∀ c, S c → S' c) :
    fs.ChangesIn T' S' d d' :=
  ⟨fun c hc => h.table c fun ht => hc (hT c ht),
    fun a ha hs => h.sector a ha fun c hc => hs c (hS c hc), h.readable, h.writable⟩

theorem ChangesIn.reliable (h : fs.ChangesIn T S d d') (hr : d.Reliable) : d'.Reliable :=
  ⟨fun a => by rw [h.readable]; exact hr.readable a,
    fun n a => by rw [h.writable]; exact hr.writable n a⟩

/-- The sectors of a place outside `S` are as before. -/
theorem ChangesIn.region (h : fs.ChangesIn T S d d') (hs : fs.Sound) (hS : ∀ c, S c → fs.Cluster c)
    (hc : fs.Place c) (hn : ¬ S c) (hl : l ∈ fs.regionSectors c) :
    d'.sector (fs.baseLba + l) = d.sector (fs.baseLba + l) := by
  refine h.sector _ (hs.offFat hc hl) fun c' hc' l' hl' he => hn ?_
  obtain rfl : l = l' := UInt32.add_right_inj _ |>.1 he
  rw [hs.region_inj hc (.inr (hS c' hc')) hl hl']
  exact hc'

theorem ChangesIn.dirSlots (h : fs.ChangesIn T S d d') (hs : fs.Sound)
    (hS : ∀ c, S c → fs.Cluster c) {cs : List UInt32} (hcs : ∀ c ∈ cs, fs.Place c ∧ ¬ S c) :
    fs.dirSlots d' cs = fs.dirSlots d cs := by
  unfold FatFs.dirSlots slots sectorSlots
  refine List.flatMap_congr fun c hc => List.flatMap_congr fun l hl => ?_
  rw [h.region hs hS (hcs c hc).1 (hcs c hc).2 hl]

/-! ## Single writes -/

/-- `write_fat_entry` on a cluster of the volume. -/
theorem Sound.writeFatEntry_run (h : fs.Sound) (hc : fs.Cluster c) (hx : ¬ fs.Crosses c)
    (v : UInt32) {s : FatState} (hr : s.disk.Reliable) :
    ∃ t, writeFatEntry fs c v s = .ok ((), t) ∧
      fs.ChangesIn (· = c) (fun _ => False) s.disk t.disk ∧
      fs.table t.disk c = fs.kept v := by
  obtain ⟨t, ht, hu⟩ := h.twoFats.writeFatEntry_run (h.inFat hc) hx v s hr.readable
  have hok : s.disk.wrote (fs.entrySector c) = true := hr.writable _ _
  have htable := hu.table
  rw [if_pos hok] at htable
  refine ⟨t, ht, ⟨fun x hxc => ?_, fun a ha _ => hu.offFat a ha, hu.readable, hu.writable⟩, ?_⟩
  · rw [htable, Function.update_of_ne hxc]
  · rw [htable, Function.update_self]

/-- A table entry is made of bytes of the FATs. -/
theorem table_congr_offFat {a : UInt32} (ha : fs.OffFat a)
    (hd : ∀ x, x ≠ a → d'.sector x = d.sector x) (c : UInt32) : fs.table d' c = fs.table d c := by
  unfold table
  split
  · next hc =>
    refine entry_congr fun k hk => ?_
    have hlt := hc.2
    unfold fatByte
    rw [hd]
    intro he
    exact ha ((entryStart fs.fsType c.toNat + k) / 512) (by omega) he.symm
  · rfl

/-- A sector of a place is written. -/
theorem Sound.within_write (h : fs.Sound) (hc : fs.Place c) (hl : l ∈ fs.regionSectors c)
    (b : Sector) : fs.ChangesIn (fun _ => False) (· = c) d (d.write (fs.baseLba + l) b) := by
  have hsame : ∀ x, x ≠ fs.baseLba + l → (d.write (fs.baseLba + l) b).sector x = d.sector x := by
    intro x hx
    rw [Disk.write_sector, if_neg (fun hw => hx hw.1)]
  exact ⟨fun x _ => table_congr_offFat (h.offFat hc hl) hsame x,
    fun a _ hs => hsame a (hs c rfl l hl), rfl, rfl⟩

/-- And it leaves the sectors of the other places. -/
theorem Sound.write_region (h : fs.Sound) (hc : fs.Place c) (hl : l ∈ fs.regionSectors c)
    (hc' : fs.Place c') (hne : c' ≠ c) {l' : UInt32} (hl' : l' ∈ fs.regionSectors c') (b : Sector) :
    (d.write (fs.baseLba + l) b).sector (fs.baseLba + l') = d.sector (fs.baseLba + l') := by
  rw [Disk.write_sector, if_neg]
  rintro ⟨he, -⟩
  obtain rfl : l' = l := UInt32.add_right_inj _ |>.1 he
  exact hne (h.region_inj hc' hc hl' hl)

/-- A cluster number survives in an entry. -/
theorem Sound.kept_cluster (h : fs.Sound) (hc : fs.Cluster c) : fs.kept c = c := by
  have hlt := UInt32.lt_iff_toNat_lt.1 hc.2
  have hlim := h.limit
  have hmask : ∀ k m : Nat, m = 2 ^ k - 1 → c.toNat < 2 ^ k → c.toNat &&& m = c.toNat := by
    rintro k m rfl hk
    rw [Nat.and_two_pow_sub_one_eq_mod, Nat.mod_eq_of_lt hk]
  rw [← UInt32.toNat_inj]
  unfold kept
  cases ht : fs.fsType <;> rw [ht] at hlim <;> simp only [reservedClusters] at hlim <;>
    simp only <;> rw [UInt32.toNat_and]
  · exact hmask 28 _ (by decide) (by omega)
  · exact hmask 12 _ (by decide) (by omega)
  · exact hmask 16 _ (by decide) (by omega)
  · exact hmask 28 _ (by decide) (by omega)

end FatFs

end HaoSys.Fs
