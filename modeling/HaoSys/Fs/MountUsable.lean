import HaoSys.Fs.Mount
import HaoSys.Fs.Stray
import HaoSys.Fs.Volume

/-!
# What mounting establishes

`FatFs.Usable` is what the rest of the driver takes for granted of a mounted
instance. `fat_mount` establishes it exactly for the boot sectors whose BPB is
`BpbSound`: the two ways to a type check different parts of it, and neither
checks that the areas fit the volume or that the FAT has room for the clusters.
A FAT12 volume with a root directory or a cluster is never usable (`HaoSys.Fs.Stray`).
-/

namespace HaoSys.Fs

open HaoSys.Lib Prog

/-! ## Usable geometry -/

/-- No operation divides by zero or indexes outside the buffer, not even for a read whose value
nothing uses. -/
structure FatFs.OpsSafe (fs : FatFs) : Prop where
  readDir : ∀ fuel c n, Safe (fatReadDir fuel fs c n) fun _ => True
  openDir : ∀ fuel path, Safe (fatOpenDir fuel fs path) fun _ => True
  findFile : ∀ fuel path, Safe (fatFindFile fuel fs path) fun _ => True
  setMeta : ∀ fuel path m, Safe (fatSetFileMeta fuel fs path m) fun _ => True
  load : ∀ fuel e n, Safe (fatLoadFile fuel fs e n) fun _ => True
  loadOff : ∀ fuel e o n, Safe (fatLoadFileOff fuel fs e o n) fun _ => True
  write : ∀ fuel path data, Safe (@fatWriteFile .checked fuel fs path data) fun _ => True
  delete : ∀ fuel path, Safe (@fatDeleteFile .checked fuel fs path) fun _ => True
  mkdir : ∀ fuel path, Safe (@fatMkdir .checked fuel fs path) fun _ => True

/-- What the driver takes for granted: 512-byte sectors, clusters of at least one sector, areas
that fit the volume, every cluster inside it with its FAT entry in the first copy, and, for the
accesses to a cluster's entry and for every operation, no index outside the buffer. -/
structure FatFs.Usable (fs : FatFs) : Prop where
  sector : fs.bytesPerSector = 512
  cluster : 1 ≤ fs.sectorsPerCluster.toNat
  fits : fs.reservedSectors.toNat + fs.numFats.toNat * fs.fatSize.toNat + fs.rootDirSectors.toNat ≤
    fs.totalSectors.toNat
  inside : ∀ c, 2 ≤ c → c < fs.clusterLimit.toNat → ∀ k, k < fs.sectorsPerCluster.toNat →
    fs.firstDataSector.toNat + (c - 2) * fs.sectorsPerCluster.toNat + k < fs.totalSectors.toNat
  entry : ∀ c, 2 ≤ c → c < fs.clusterLimit.toNat →
    entryStart fs.fsType c + entryWidth fs.fsType ≤ fs.fatSize.toNat * 512
  index : ∀ c, 2 ≤ c → c < fs.clusterLimit.toNat →
    entryStart fs.fsType c % 512 + entryWidth fs.fsType ≤ 512
  ops : fs.OpsSafe

/-- A FAT12 volume has neither a root directory nor a cluster. -/
def FatFs.Bare (fs : FatFs) : Prop := fs.rootDirSectors = 0 ∧ fs.clusterLimit.toNat ≤ 2

/-- Every operation is safe if a FAT12 volume is bare. -/
theorem FatFs.Sized.opsSafe {fs : FatFs} (h : fs.Sized)
    (h12 : fs.fsType = .fat12 → fs.Bare) : fs.OpsSafe := by
  let _ : BehindBuffer := .checked
  have hchange : (∀ fuel path data, Safe (fatWriteFile fuel fs path data) fun _ => True) ∧
      (∀ fuel path, Safe (fatDeleteFile fuel fs path) fun _ => True) ∧
      ∀ fuel path, Safe (fatMkdir fuel fs path) fun _ => True := by
    by_cases hty : fs.fsType = .fat12
    · obtain ⟨hroot, hlimit⟩ := h12 hty
      exact ⟨fun fuel path data => bare_fatWriteFile hty hroot h fuel path data,
        fun fuel path => bare_fatDeleteFile hty hroot fuel path,
        fun fuel path => bare_fatMkdir hty hroot h hlimit fuel path⟩
    · -- no entry crosses a sector
      have hw := total_writeFatEntry_of h.sector fun he => absurd he hty
      exact ⟨fun fuel path data => safe_fatWriteFile hw h fuel path data,
        fun fuel path => safe_fatDeleteFile hw h fuel path,
        fun fuel path => safe_fatMkdir hw h fuel path⟩
  exact
    { readDir := fun fuel c n => safe_fatReadDir h fuel c n
      openDir := fun fuel path => safe_fatOpenDir h fuel path
      findFile := fun fuel path => safe_fatFindFile h fuel path
      setMeta := fun fuel path m => safe_fatSetFileMeta h fuel path m
      load := fun fuel e n => safe_fatLoadFile h fuel e n
      loadOff := fun fuel e o n => safe_fatLoadFileOff h fuel e o n
      write := hchange.1
      delete := hchange.2.1
      mkdir := hchange.2.2 }

/-- Only then. -/
theorem FatFs.OpsSafe.bare {fs : FatFs} (h : fs.OpsSafe) (hs : fs.Sized)
    (hi : fs.initialized = true) (h12 : fs.fsType = .fat12) : fs.Bare := by
  have hroot : fs.rootDirSectors = 0 := by
    by_contra hroot
    obtain ⟨s, hrun⟩ := hs.fatDeleteFile_strays hi h12 hroot
    have hsafe := h.delete 1 (some [0x41]) s trivial
    rw [hrun] at hsafe
    cases hsafe
  refine ⟨hroot, ?_⟩
  by_contra hlimit
  obtain ⟨s, hrun⟩ := hs.fatMkdir_strays hi h12 hroot (by omega)
  have hsafe := h.mkdir 1 (some [0x41]) s trivial
  rw [hrun] at hsafe
  cases hsafe

/-! ## Sound BPBs -/

namespace Bpb

/-- The sectors before the data area. -/
def metaSectors (b : Bpb) (t : FatType) : Nat :=
  b.reservedSectors.toNat + b.numFats.toNat * b.fatSize.toNat +
    if t = .fat32 then 0 else (b.rootEntryCount.toNat * 32 + 511) / 512

/-- The clusters the driver uses: those of the data area, none when `max_cluster` wraps. -/
def clusters (b : Bpb) (t : FatType) : Nat :=
  let n := (b.totalSectors.toNat - b.metaSectors t) / b.sectorsPerCluster.toNat
  if n + 2 < 2 ^ 32 then n else 0

end Bpb

/-- A boot sector whose BPB describes a volume: with a type string the sizes are given, the areas
fit, the FAT has an entry for every cluster, and a FAT12 has neither a root directory nor a
cluster. -/
structure BpbSound (s : Sector) : Prop where
  typed : typeString s ≠ .unknown → s.bpb.bytesPerSector = 512 ∧ s.bpb.sectorsPerCluster ≠ 0
  fits : s.bpb.metaSectors (bootType s) ≤ s.bpb.totalSectors.toNat
  table : 0 < s.bpb.clusters (bootType s) →
    entryStart (bootType s) (s.bpb.clusters (bootType s) + 1) + entryWidth (bootType s) ≤
      s.bpb.fatSize.toNat * 512
  fat12 : bootType s = .fat12 → s.bpb.rootEntryCount = 0 ∧ s.bpb.clusters (bootType s) = 0

namespace FromBoot

variable {s : Sector} {fs : FatFs}

theorem sector_iff (h : FromBoot s fs) :
    fs.bytesPerSector = 512 ↔ s.bpb.bytesPerSector = 512 := by
  rw [h.sector, ← UInt32.toNat_inj, ← UInt16.toNat_inj, UInt16.toNat_toUInt32]
  rfl

theorem root_toNat (h : FromBoot s fs) (hsec : s.bpb.bytesPerSector = 512) :
    fs.rootDirSectors.toNat =
      if bootType s = .fat32 then 0 else (s.bpb.rootEntryCount.toNat * 32 + 511) / 512 := by
  have hlt := s.bpb.rootEntryCount.toNat_lt
  rw [h.root]
  split
  · rfl
  · rw [Bpb.rootDirSectors, hsec]
    simp only [UInt32.toNat_div, UInt32.toNat_sub, UInt32.toNat_add, UInt32.toNat_mul,
      UInt16.toNat_toUInt32, UInt32.reduceToNat, UInt16.reduceToNat]
    omega

theorem meta_eq (h : FromBoot s fs) (hsec : s.bpb.bytesPerSector = 512) :
    fs.reservedSectors.toNat + fs.numFats.toNat * fs.fatSize.toNat + fs.rootDirSectors.toNat =
      s.bpb.metaSectors (bootType s) := by
  rw [h.root_toNat hsec, h.reserved, h.numFats, h.fatSize, UInt16.toNat_toUInt32,
    UInt8.toNat_toUInt32, Bpb.metaSectors]

/-- Without wrapping, the driver's 32-bit sum is the sum. -/
theorem sum_toNat (h : FromBoot s fs) (hsec : s.bpb.bytesPerSector = 512)
    (hfits : s.bpb.metaSectors (bootType s) ≤ s.bpb.totalSectors.toNat) :
    (fs.reservedSectors + fs.numFats * fs.fatSize + fs.rootDirSectors).toNat =
      s.bpb.metaSectors (bootType s) := by
  have hlt := s.bpb.totalSectors.toNat_lt
  have hm := h.meta_eq hsec
  rw [UInt32.toNat_add, UInt32.toNat_add, UInt32.toNat_mul]
  generalize fs.numFats.toNat * fs.fatSize.toNat = x at hm ⊢
  omega

theorem clusterLimit_toNat (h : FromBoot s fs) (hsec : s.bpb.bytesPerSector = 512)
    (hfits : s.bpb.metaSectors (bootType s) ≤ s.bpb.totalSectors.toNat) :
    fs.clusterLimit.toNat = s.bpb.clusters (bootType s) + 2 ∨
      s.bpb.clusters (bootType s) = 0 ∧ fs.clusterLimit.toNat < 2 := by
  have hlt := s.bpb.totalSectors.toNat_lt
  have hsum := h.sum_toNat hsec hfits
  have hsub : (fs.totalSectors - (fs.reservedSectors + fs.numFats * fs.fatSize +
      fs.rootDirSectors)).toNat = s.bpb.totalSectors.toNat - s.bpb.metaSectors (bootType s) := by
    rw [UInt32.toNat_sub_of_le _ _ (UInt32.le_iff_toNat_le.2 (by rw [hsum, h.total]; exact hfits)),
      hsum, h.total]
  rw [FatFs.clusterLimit, UInt32.toNat_add, UInt32.toNat_div, hsub, h.cluster_toNat, Bpb.clusters,
    show (2 : UInt32).toNat = 2 from rfl]
  have hle := Nat.div_le_self (s.bpb.totalSectors.toNat - s.bpb.metaSectors (bootType s))
    s.bpb.sectorsPerCluster.toNat
  generalize (s.bpb.totalSectors.toNat - s.bpb.metaSectors (bootType s)) /
    s.bpb.sectorsPerCluster.toNat = n at hle ⊢
  split
  · left; omega
  · right; omega

end FromBoot

/-- The sizes of an accepted boot sector with a sound BPB. -/
theorem BpbSound.sized {s : Sector} (h : BpbSound s) (hty : bootType s ≠ .unknown) :
    s.bpb.bytesPerSector = 512 ∧ s.bpb.sectorsPerCluster ≠ 0 := by
  by_cases hstr : typeString s = .unknown
  · -- without a type string, `detect_fat_type` has checked them
    rw [bootType, if_pos hstr, detectFatType] at hty
    split at hty
    · exact absurd rfl hty
    · next h512 =>
      split at hty
      · exact absurd rfl hty
      · next hspc => exact ⟨by simpa using h512, fun h0 => hspc (.inl h0)⟩
  · exact h.typed hstr

theorem uint8_ne_zero {v : UInt8} : v ≠ 0 ↔ 1 ≤ v.toNat := by
  rw [ne_eq, ← UInt8.toNat_inj, UInt8.toNat_zero]
  omega

/-- A sound BPB gives a usable instance. -/
theorem BpbSound.usable {s : Sector} {fs : FatFs} (h : BpbSound s) (hty : bootType s ≠ .unknown)
    (hb : FromBoot s fs) : fs.Usable := by
  obtain ⟨hsec, hspc⟩ := h.sized hty
  have hspc1 := uint8_ne_zero.1 hspc
  have hlimit := hb.clusterLimit_toNat hsec h.fits
  have hsized : fs.Sized := by
    refine ⟨hb.sector_iff.2 hsec, fun hz => ?_, ?_⟩
    · have := congrArg UInt32.toNat hz
      rw [hb.cluster_toNat, UInt32.toNat_zero] at this
      omega
    · rw [hb.cluster_toNat]
      exact s.bpb.sectorsPerCluster.toNat_lt
  have hbare : fs.fsType = .fat12 → fs.Bare := fun h12 => by
    rw [hb.type] at h12
    obtain ⟨hroot, hcl⟩ := h.fat12 h12
    refine ⟨UInt32.toNat_inj.1 ?_, by omega⟩
    rw [hb.root_toNat hsec, h12, hroot]
    rfl
  have hlt : ∀ c, 2 ≤ c → c < fs.clusterLimit.toNat → c ≤ s.bpb.clusters (bootType s) + 1 :=
    fun c h2 hc => by omega
  refine ⟨hsized.sector, by rw [hb.cluster_toNat]; exact hspc1, ?_, fun c h2 hc k hk => ?_,
    fun c h2 hc => ?_, fun c h2 hc => ?_, hsized.opsSafe hbare⟩
  · rw [hb.meta_eq hsec, hb.total]
    exact h.fits
  · -- cluster `c` ends where cluster `c + 1` would start
    have hcl := hlt c h2 hc
    rw [hb.cluster_toNat] at hk ⊢
    rw [hb.data, hb.sum_toNat hsec h.fits, hb.total]
    have hfits := h.fits
    have hn : s.bpb.clusters (bootType s) ≤
        (s.bpb.totalSectors.toNat - s.bpb.metaSectors (bootType s)) /
          s.bpb.sectorsPerCluster.toNat := by
      rw [Bpb.clusters]
      split <;> omega
    have hmul : (c - 2 + 1) * s.bpb.sectorsPerCluster.toNat ≤
        s.bpb.totalSectors.toNat - s.bpb.metaSectors (bootType s) :=
      (Nat.mul_le_mul_right _ (by omega)).trans (Nat.div_mul_le_self _ _)
    rw [Nat.add_mul, Nat.one_mul] at hmul
    omega
  · rw [hb.type, hb.fatSize]
    have hcl := hlt c h2 hc
    have := entryStart_mono (bootType s) hcl
    have := h.table (by omega)
    omega
  · rw [hb.type]
    have hcl := hlt c h2 hc
    cases hbt : bootType s with
    | fat12 =>
      -- there is no cluster
      have hno := (h.fat12 hbt).2
      omega
    | fat16 => simp only [entryStart, entryWidth]; omega
    | fat32 => simp only [entryStart, entryWidth]; omega
    | unknown => exact absurd hbt hty

/-- A usable instance comes from a sound BPB. -/
theorem FatFs.Usable.bpbSound {s : Sector} {fs : FatFs} (h : fs.Usable) (hb : FromBoot s fs) :
    BpbSound s := by
  have hsec := hb.sector_iff.1 h.sector
  have hfits := h.fits
  rw [hb.meta_eq hsec, hb.total] at hfits
  have hlimit := hb.clusterLimit_toNat hsec hfits
  refine ⟨fun _ => ⟨hsec, ?_⟩, hfits, fun hpos => ?_, fun h12 => ?_⟩
  · have := h.cluster
    rw [hb.cluster_toNat] at this
    exact uint8_ne_zero.2 this
  · have := h.entry (s.bpb.clusters (bootType s) + 1) (by omega) (by omega)
    rwa [hb.type, hb.fatSize] at this
  · have hsized : fs.Sized := by
      refine ⟨h.sector, fun hz => ?_, ?_⟩
      · have := h.cluster
        rw [hz, UInt32.toNat_zero] at this
        omega
      · rw [hb.cluster_toNat]
        exact s.bpb.sectorsPerCluster.toNat_lt
    obtain ⟨hroot, hle⟩ := h.ops.bare hsized hb.initialized (hb.type.trans h12)
    refine ⟨?_, by omega⟩
    -- a root directory without sectors has no entries
    have hzero := hb.root_toNat hsec
    rw [hroot, h12, if_neg (by decide), UInt32.toNat_zero] at hzero
    rw [← UInt16.toNat_inj, UInt16.toNat_zero]
    omega

/-- **What `fat_mount` establishes.** On every device, a successful mount leaves a usable
instance exactly when an accepted boot sector has a sound BPB. -/
theorem fat_mount_usable_iff (fs : FatFs) (st : FatState) :
    (∀ r t, fatMount fs st = .ok (some r, t) → r.Usable) ↔
      (Accepts st.disk → BpbSound (bootSector st.disk)) := by
  constructor
  · intro h hacc
    obtain ⟨r, t, hmount⟩ := hacc.fatMount fs
    exact (h r t hmount).bpbSound (fatMount_some hmount).2
  · intro h r t hmount
    obtain ⟨hacc, hb⟩ := fatMount_some hmount
    exact (h hacc).usable hacc.type hb

/-! ## A boot sector with 1024-byte sectors -/

/-- "FAT16" at offset 82, the signature, and 1024 bytes a sector. -/
def typedBoot : Sector := fun k =>
  match k.val with
  | 12 => 4
  | 82 => 0x46
  | 83 => 0x41
  | 84 => 0x54
  | 85 => 0x31
  | 86 => 0x36
  | 510 => 0x55
  | 511 => 0xAA
  | _ => 0

/-- A device with that boot sector. -/
def typedState : FatState :=
  ⟨Sector.zero, ⟨fun _ => typedBoot, fun _ => true, fun _ _ => true, 0⟩⟩

theorem typedState_accepts : Accepts typedState.disk :=
  ⟨rfl, rfl, by decide +kernel, by decide +kernel, by decide +kernel⟩

/-- The type string alone makes `fat_mount` accept any sector size. -/
theorem fat_mount_accepts_1024 :
    (∃ r t, fatMount blankFs typedState = .ok (some r, t)) ∧
      ∀ r t, fatMount blankFs typedState = .ok (some r, t) → ¬ r.Usable := by
  refine ⟨typedState_accepts.fatMount blankFs, fun r t hmount h => ?_⟩
  have hsec := (fatMount_some hmount).2.sector_iff.1 h.sector
  exact absurd hsec (by decide +kernel)

end HaoSys.Fs
