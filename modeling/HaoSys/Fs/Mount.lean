import HaoSys.Fs.Safety

/-!
# Mounting (`fat_mount`)

`fat_mount` takes the boot sector of the device, or of the first FAT partition
its MBR names, and derives the instance's geometry from the BPB in it. The
file-system type comes from the string at offset 82 or, without one, from the
number of clusters; only the second way checks the BPB.
-/

namespace HaoSys.Fs

open HaoSys.Lib Prog

/-! ## The BPB -/

/-- The fields of `fat_bpb_t` that the driver reads, at their offsets. -/
structure Bpb where
  bytesPerSector : UInt16
  sectorsPerCluster : UInt8
  reservedSectors : UInt16
  numFats : UInt8
  rootEntryCount : UInt16
  totalSectors16 : UInt16
  fatSize16 : UInt16
  totalSectors32 : UInt32
  fatSize32 : UInt32
  rootCluster : UInt32

def Sector.bpb (b : Sector) : Bpb :=
  ⟨b.get16 11, b.get 13, b.get16 14, b.get 16, b.get16 17, b.get16 19, b.get16 22, b.get32 32,
    b.get32 36, b.get32 44⟩

namespace Bpb

def totalSectors (b : Bpb) : UInt32 :=
  if b.totalSectors16 ≠ 0 then b.totalSectors16.toUInt32 else b.totalSectors32

def fatSize (b : Bpb) : UInt32 := if b.fatSize16 ≠ 0 then b.fatSize16.toUInt32 else b.fatSize32

/-- `((root_entry_count * 32) + bytes_per_sector - 1) / bytes_per_sector`. -/
def rootDirSectors (b : Bpb) : UInt32 :=
  (b.rootEntryCount.toUInt32 * 32 + b.bytesPerSector.toUInt32 - 1) / b.bytesPerSector.toUInt32

end Bpb

/-- `detect_fat_type`. -/
def detectFatType (b : Bpb) : FatType :=
  if b.bytesPerSector ≠ 512 then .unknown
  else if b.sectorsPerCluster = 0 ∨ b.sectorsPerCluster > 64 then .unknown
  else if b.fatSize = 0 then .unknown
  else
    let dataSectors := b.totalSectors -
      (b.reservedSectors.toUInt32 + b.numFats.toUInt32 * b.fatSize + b.rootDirSectors)
    let totalClusters := dataSectors / b.sectorsPerCluster.toUInt32
    if totalClusters < 4085 then .fat12 else if totalClusters < 65525 then .fat16 else .fat32

/-- The type the string at offset 82 names. -/
def typeString (s : Sector) : FatType :=
  match (List.range 5).map fun k => s.get (82 + k) with
  | [0x46, 0x41, 0x54, 0x31, 0x32] => .fat12
  | [0x46, 0x41, 0x54, 0x31, 0x36] => .fat16
  | [0x46, 0x41, 0x54, 0x33, 0x32] => .fat32
  | _ => .unknown

/-- The type `fat_bpb_load` settles on. -/
def bootType (s : Sector) : FatType :=
  if typeString s = .unknown then detectFatType s.bpb else typeString s

/-- The 0x55AA signature. -/
def hasSignature (s : Sector) : Bool := s.get 510 = 0x55 ∧ s.get 511 = 0xAA

/-- `fat_bpb_load`: the instance on success. -/
def fatBpbLoad (fs : FatFs) : FatM (Option FatFs) := do
  let s ← bufRead 0 512 id
  if hasSignature s ∧ bootType s ≠ .unknown then
    let b := s.bpb
    let rootDirSectors ← udiv (b.rootEntryCount.toUInt32 * 32 + b.bytesPerSector.toUInt32 - 1)
      b.bytesPerSector.toUInt32
    let fats := b.reservedSectors.toUInt32 + b.numFats.toUInt32 * b.fatSize
    let fs := { fs with
      reservedSectors := b.reservedSectors.toUInt32
      numFats := b.numFats.toUInt32
      fatSize := b.fatSize
      totalSectors := b.totalSectors
      sectorsPerCluster := b.sectorsPerCluster.toUInt32
      bytesPerSector := b.bytesPerSector.toUInt32
      fsType := bootType s
      initialized := true }
    if bootType s = .fat32 then
      pure (some { fs with
        rootCluster := b.rootCluster, rootDirSectors := 0, firstDataSector := fats })
    else pure (some { fs with
      rootDirSectors := rootDirSectors, firstDataSector := fats + rootDirSectors })
  else pure none

/-! ## Partitions -/

/-- The partition types that hold a FAT. -/
def isFatPartition (type : UInt8) : Bool :=
  type ∈ [0x01, 0x04, 0x06, 0x0E, 0x0B, 0x0C, 0xEF]

/-- `mbr_find_fat_partition`: the first FAT partition's start, 0 for none. -/
def mbrFindFatPartition (s : Sector) : UInt32 :=
  if hasSignature s then
    match (List.range 4).find? fun i => isFatPartition (s.get (446 + 16 * i + 4)) with
    | some i => s.get32 (446 + 16 * i + 8)
    | none => 0
  else 0

/-- `fat_mount`: the mounted instance, or `none`. `fs` is what the instance held before. -/
def fatMount (fs : FatFs) : FatM (Option FatFs) := do
  if ← fatDevRead { fs with baseLba := 0 } 0 then
    let partLba ← bufRead 0 512 mbrFindFatPartition
    if partLba = 0 then fatBpbLoad { fs with baseLba := 0 }
    else if ← fatDevRead { fs with baseLba := partLba } 0 then
      fatBpbLoad { fs with baseLba := partLba }
    else pure none
  else pure none

/-- An instance before its first mount. -/
def blankFs : FatFs := ⟨0, 0, 0, 0, 0, 0, 0, 0, 0, .unknown, 0, false⟩

/-- The sector `fat_mount` loads the BPB from. -/
def bootSector (d : Disk) : Sector := d.sector (mbrFindFatPartition (d.sector 0))

/-- The device's boot sector is there and `fat_bpb_load` does not turn it down. -/
structure Accepts (d : Disk) : Prop where
  first : d.readable 0 = true
  boot : d.readable (mbrFindFatPartition (d.sector 0)) = true
  signature : hasSignature (bootSector d) = true
  type : bootType (bootSector d) ≠ .unknown
  sectorSize : (bootSector d).bpb.bytesPerSector ≠ 0

/-- The geometry `fat_bpb_load` derives from the boot sector. -/
structure FromBoot (s : Sector) (fs : FatFs) : Prop where
  reserved : fs.reservedSectors = s.bpb.reservedSectors.toUInt32
  numFats : fs.numFats = s.bpb.numFats.toUInt32
  fatSize : fs.fatSize = s.bpb.fatSize
  total : fs.totalSectors = s.bpb.totalSectors
  cluster : fs.sectorsPerCluster = s.bpb.sectorsPerCluster.toUInt32
  sector : fs.bytesPerSector = s.bpb.bytesPerSector.toUInt32
  type : fs.fsType = bootType s
  root : fs.rootDirSectors = if bootType s = .fat32 then 0 else s.bpb.rootDirSectors
  data : fs.firstDataSector = fs.reservedSectors + fs.numFats * fs.fatSize + fs.rootDirSectors
  initialized : fs.initialized = true

theorem FromBoot.cluster_toNat {s : Sector} {fs : FatFs} (h : FromBoot s fs) :
    fs.sectorsPerCluster.toNat = s.bpb.sectorsPerCluster.toNat := by
  rw [h.cluster, UInt8.toNat_toUInt32]

theorem toUInt32_eq_zero {v : UInt16} : v.toUInt32 = 0 ↔ v = 0 := by
  rw [← UInt32.toNat_inj, ← UInt16.toNat_inj, UInt16.toNat_toUInt32]
  rfl

/-- `fat_bpb_load` on a buffer that holds `s`. -/
theorem fatBpbLoad_eq (fs : FatFs) (st : FatState) (hsig : hasSignature st.buf = true)
    (hty : bootType st.buf ≠ .unknown) (hsec : st.buf.bpb.bytesPerSector ≠ 0) :
    ∃ r, fatBpbLoad fs st = .ok (some r, st) ∧ FromBoot st.buf r := by
  have hdiv : st.buf.bpb.bytesPerSector.toUInt32 ≠ 0 := fun h => hsec (toUInt32_eq_zero.1 h)
  have hread : bufRead 0 512 id st = .ok (st.buf, st) := rfl
  rw [fatBpbLoad, bind_of_ok hread, if_pos ⟨hsig, hty⟩]
  simp only [udiv, if_neg hdiv]
  rw [bind_of_ok (pure_apply _ _)]
  by_cases h32 : bootType st.buf = .fat32
  · rw [if_pos h32]
    exact ⟨_, rfl, rfl, rfl, rfl, rfl, rfl, rfl, rfl, by rw [if_pos h32], by simp, rfl⟩
  · rw [if_neg h32]
    exact ⟨_, rfl, rfl, rfl, rfl, rfl, rfl, rfl, rfl, by rw [if_neg h32]; rfl, rfl, rfl⟩

/-! ## Accepted boot sectors -/

theorem fatBpbLoad_some {fs r : FatFs} {st t : FatState} (h : fatBpbLoad fs st = .ok (some r, t)) :
    hasSignature st.buf = true ∧ bootType st.buf ≠ .unknown ∧ st.buf.bpb.bytesPerSector ≠ 0 := by
  have hread : bufRead 0 512 id st = .ok (st.buf, st) := rfl
  rw [fatBpbLoad, bind_of_ok hread] at h
  by_cases hc : hasSignature st.buf = true ∧ bootType st.buf ≠ .unknown
  · refine ⟨hc.1, hc.2, fun hz => ?_⟩
    rw [if_pos hc] at h
    simp only [udiv, if_pos (toUInt32_eq_zero.2 hz)] at h
    rw [bind_of_error (fault_apply _ _)] at h
    cases h
  · rw [if_neg hc] at h
    cases h

/-- `fat_mount` is `fat_bpb_load` on the boot sector, if that can be read. -/
theorem fatMount_eq (fs : FatFs) (st : FatState) :
    (st.disk.readable 0 = true ∧ st.disk.readable (mbrFindFatPartition (st.disk.sector 0)) = true ∧
      fatMount fs st = fatBpbLoad { fs with baseLba := mbrFindFatPartition (st.disk.sector 0) }
        ⟨bootSector st.disk, st.disk⟩) ∨
    (¬ (st.disk.readable 0 = true ∧
        st.disk.readable (mbrFindFatPartition (st.disk.sector 0)) = true) ∧
      ∃ t, fatMount fs st = .ok (none, t)) := by
  obtain ⟨buf, d⟩ := st
  simp only
  generalize hp : mbrFindFatPartition (d.sector 0) = p
  by_cases h0 : d.readable 0 = true
  · have hread : fatDevRead { fs with baseLba := 0 } 0 ⟨buf, d⟩ = .ok (true, ⟨d.sector 0, d⟩) := by
      simp [fatDevRead, h0]
    have hpart : bufRead 0 512 mbrFindFatPartition ⟨d.sector 0, d⟩ = .ok (p, ⟨d.sector 0, d⟩) := by
      rw [← hp]
      rfl
    have hmount : fatMount fs ⟨buf, d⟩ = (if p = 0 then fatBpbLoad { fs with baseLba := 0 }
        else do
          if ← fatDevRead { fs with baseLba := p } 0 then fatBpbLoad { fs with baseLba := p }
          else pure none) ⟨d.sector 0, d⟩ := by
      rw [fatMount, bind_of_ok hread, if_pos rfl, bind_of_ok hpart]
    by_cases hz : p = 0
    · refine .inl ⟨h0, by rw [hz]; exact h0, ?_⟩
      rw [hmount, if_pos hz, bootSector, hp, hz]
    · rw [if_neg hz] at hmount
      by_cases h1 : d.readable p = true
      · have hread1 : fatDevRead { fs with baseLba := p } 0 ⟨d.sector 0, d⟩ =
            .ok (true, ⟨d.sector p, d⟩) := by
          simp [fatDevRead, h1]
        refine .inl ⟨h0, h1, ?_⟩
        rw [hmount, bind_of_ok hread1, if_pos rfl, bootSector, hp]
      · have hread1 : fatDevRead { fs with baseLba := p } 0 ⟨d.sector 0, d⟩ =
            .ok (false, ⟨d.sector 0, d⟩) := by
          simp [fatDevRead, h1]
        refine .inr ⟨fun h => h1 h.2, ⟨d.sector 0, d⟩, ?_⟩
        rw [hmount, bind_of_ok hread1]
        rfl
  · have hread : fatDevRead { fs with baseLba := 0 } 0 ⟨buf, d⟩ = .ok (false, ⟨buf, d⟩) := by
      simp [fatDevRead, h0]
    refine .inr ⟨fun h => h0 h.1, ⟨buf, d⟩, ?_⟩
    rw [fatMount, bind_of_ok hread]
    rfl

/-- A mounted instance has the geometry of an accepted boot sector. -/
theorem fatMount_some {fs r : FatFs} {st t : FatState} (h : fatMount fs st = .ok (some r, t)) :
    Accepts st.disk ∧ FromBoot (bootSector st.disk) r := by
  rcases fatMount_eq fs st with ⟨h0, h1, e⟩ | ⟨-, t', e⟩
  · rw [e] at h
    obtain ⟨hsig, hty, hsec⟩ := fatBpbLoad_some h
    obtain ⟨r', e', hr⟩ := fatBpbLoad_eq
      { fs with baseLba := mbrFindFatPartition (st.disk.sector 0) } _ hsig hty hsec
    rw [e'] at h
    cases h
    exact ⟨⟨h0, h1, hsig, hty, hsec⟩, hr⟩
  · rw [e] at h
    cases h

/-- An accepted device is mounted. -/
theorem Accepts.fatMount {st : FatState} (h : Accepts st.disk) (fs : FatFs) :
    ∃ r t, fatMount fs st = .ok (some r, t) := by
  rcases fatMount_eq fs st with ⟨-, -, e⟩ | ⟨hno, -⟩
  · obtain ⟨r, e', -⟩ := fatBpbLoad_eq
      { fs with baseLba := mbrFindFatPartition (st.disk.sector 0) }
      ⟨bootSector st.disk, st.disk⟩ h.signature h.type h.sectorSize
    exact ⟨r, _, e.trans e'⟩
  · exact absurd ⟨h.first, h.boot⟩ hno

end HaoSys.Fs
