import HaoSys.Fs.MountUsable
import HaoSys.Fs.MountTable

/-!
# Probe and mount

`fs_probe` and `fat_mount` recognise a FAT each in its own way. They count the
clusters alike, but the probe reads the label at offset 54, takes sectors up to
4096 bytes and any power of two as cluster size, never asks for the signature of
a boot sector, and goes on to the next FAT partition when the first one tells it
nothing; `fat_mount` reads the label at offset 82, takes 512-byte sectors and up
to 64 of them in a cluster, and looks at one sector only. `Agreeing` is what a
device must hold for the two to come to the same result.
-/

namespace HaoSys.Fs

/-! ## What the sectors say -/

/-- The type by the number of clusters, which both routines compute. -/
def clusterType (b : Bpb) : FatType :=
  let dataSectors := b.totalSectors -
    (b.reservedSectors.toUInt32 + b.numFats.toUInt32 * b.fatSize + b.rootDirSectors)
  let totalClusters := dataSectors / b.sectorsPerCluster.toUInt32
  if totalClusters < 4085 then .fat12 else if totalClusters < 65525 then .fat16 else .fat32

/-- The BPB passes the checks of `probe_fat_numeric`. -/
def Bpb.ProbeValid (b : Bpb) : Prop :=
  b.bytesPerSector ∈ [512, 1024, 2048, 4096] ∧
    (b.sectorsPerCluster ≠ 0 ∧ b.sectorsPerCluster &&& (b.sectorsPerCluster - 1) = 0) ∧
    b.numFats ≠ 0 ∧ b.fatSize ≠ 0 ∧ b.totalSectors ≠ 0

instance (b : Bpb) : Decidable b.ProbeValid := instDecidableAnd

/-- The BPB passes the checks of `detect_fat_type`. -/
def Bpb.MountValid (b : Bpb) : Prop :=
  b.bytesPerSector = 512 ∧ (b.sectorsPerCluster ≠ 0 ∧ b.sectorsPerCluster ≤ 64) ∧ b.fatSize ≠ 0

instance (b : Bpb) : Decidable b.MountValid := instDecidableAnd

/-- A FAT type as the probe reports it. -/
def FatType.probe : FatType → ProbeFs
  | .unknown => .unknown
  | .fat12 => .fat12
  | .fat16 => .fat16
  | .fat32 => .fat32

/-- The type by the label at offset 54, or else by the clusters. -/
def labelled54 (s : Sector) : ProbeFs :=
  if probeFatString s = .unknown then (clusterType s.bpb).probe else probeFatString s

/-- The type by the label at offset 82, or else by the clusters. -/
def labelled82 (s : Sector) : FatType :=
  if typeString s = .unknown then clusterType s.bpb else typeString s

/-- A label at offset 54 or a BPB that the probe takes. -/
def Recognised (s : Sector) : Prop := probeFatString s ≠ .unknown ∨ s.bpb.ProbeValid

instance (s : Sector) : Decidable (Recognised s) := instDecidableOr

/-- The signature, and a label at offset 82 over a sector size or a BPB that the mount takes. -/
def Loadable (s : Sector) : Prop :=
  hasSignature s = true ∧
    if typeString s = .unknown then s.bpb.MountValid else s.bpb.bytesPerSector ≠ 0

instance (s : Sector) : Decidable (Loadable s) := instDecidableAnd

/-- The first sector names NTFS or exFAT, or XFS without a FAT label. -/
def ForeignSign (s : Sector) : Prop :=
  s.hasAt 3 [0x4E, 0x54, 0x46, 0x53, 0x20, 0x20, 0x20, 0x20] = true ∨
    s.hasAt 3 [0x45, 0x58, 0x46, 0x41, 0x54, 0x20, 0x20, 0x20] = true ∨
    probeFatString s = .unknown ∧ s.hasAt 0 [0x58, 0x46, 0x53, 0x42] = true

instance (s : Sector) : Decidable (ForeignSign s) := instDecidableOr

/-- The boot sectors of these FAT partitions of the table in `s`. -/
def partitionSectors (d : Disk) (s : Sector) (is : List Nat) : List Sector :=
  (is.filter fun i => isFatPartition (s.get (446 + 16 * i + 4))).map fun i =>
    d.sector (s.get32 (446 + 16 * i + 8))

/-- The sectors that may hold the boot sector of a FAT, in the order of the probe. -/
def fatCandidates (d : Disk) : List Sector :=
  d.sector 0 ::
    if hasSignature (d.sector 0) then partitionSectors d (d.sector 0) (List.range 4) else []

/-- **When the two agree.** -/
def Agreeing (d : Disk) : Prop :=
  if ForeignSign (d.sector 0) then ¬ Loadable (bootSector d)
  else match (fatCandidates d).find? (fun s => Recognised s) with
    | none => ¬ Loadable (bootSector d)
    | some s => Loadable (bootSector d) ∧ (labelled82 (bootSector d)).probe = labelled54 s

/-! ## The probe -/

theorem clusterType_ne (b : Bpb) : clusterType b ≠ .unknown := by
  unfold clusterType
  simp only
  split
  · nofun
  · split <;> nofun

theorem probeFatNumeric_eq (s : Sector) :
    probeFatNumeric s = if s.bpb.ProbeValid then (clusterType s.bpb).probe else .unknown := by
  have hsub : s.bpb.totalSectors - s.bpb.reservedSectors.toUInt32 -
      s.bpb.numFats.toUInt32 * s.bpb.fatSize - s.bpb.rootDirSectors = s.bpb.totalSectors -
      (s.bpb.reservedSectors.toUInt32 + s.bpb.numFats.toUInt32 * s.bpb.fatSize +
        s.bpb.rootDirSectors) := by
    grind
  by_cases hv : s.bpb.ProbeValid
  · rw [if_pos hv]
    obtain ⟨h1, ⟨h2, h2'⟩, h3, h4, h5⟩ := hv
    unfold probeFatNumeric clusterType
    simp only [hsub]
    rw [if_neg (fun h => h h1), if_neg (not_or.2 ⟨h2, fun h => h h2'⟩), if_neg h3, if_neg h4,
      if_neg h5]
    split
    · rfl
    · split <;> rfl
  · rw [if_neg hv]
    unfold probeFatNumeric
    simp only
    by_contra hne
    apply hv
    unfold Bpb.ProbeValid
    split at hne
    · exact absurd rfl hne
    split at hne
    · exact absurd rfl hne
    split at hne
    · exact absurd rfl hne
    split at hne
    · exact absurd rfl hne
    split at hne
    · exact absurd rfl hne
    next h1 h2 h3 h4 h5 =>
    exact ⟨not_not.1 h1, ⟨(not_or.1 h2).1, not_not.1 (not_or.1 h2).2⟩, h3, h4, h5⟩

theorem detectFatType_eq (b : Bpb) :
    detectFatType b = if b.MountValid then clusterType b else .unknown := by
  by_cases hv : b.MountValid
  · obtain ⟨h1, ⟨h2, h2'⟩, h3⟩ := hv
    rw [if_pos ⟨h1, ⟨h2, h2'⟩, h3⟩]
    unfold detectFatType
    rw [if_neg (fun h => h h1), if_neg (not_or.2 ⟨h2, UInt8.not_lt.2 h2'⟩), if_neg h3]
    rfl
  · rw [if_neg hv]
    unfold detectFatType
    split
    · rfl
    split
    · rfl
    split
    · rfl
    next h1 h2 h3 =>
    exact absurd ⟨not_not.1 h1, ⟨(not_or.1 h2).1, UInt8.not_lt.1 (not_or.1 h2).2⟩, h3⟩ hv

theorem probe_isFat {t : FatType} (h : t ≠ .unknown) : t.probe.isFat = true := by
  cases t with
  | unknown => exact absurd rfl h
  | fat12 => rfl
  | fat16 => rfl
  | fat32 => rfl

theorem probeFatString_isFat {s : Sector} (h : probeFatString s ≠ .unknown) :
    (probeFatString s).isFat = true := by
  unfold probeFatString at h ⊢
  split
  · rfl
  split
  · rfl
  split
  · rfl
  · next h1 h2 h3 =>
    rw [if_neg h1, if_neg h2, if_neg h3] at h
    exact absurd rfl h

theorem labelled54_isFat (s : Sector) : (labelled54 s).isFat = true := by
  unfold labelled54
  split
  · exact probe_isFat (clusterType_ne s.bpb)
  · next h => exact probeFatString_isFat h

theorem isFat_ne {t : ProbeFs} (h : t.isFat = true) : t ≠ .unknown := by
  rintro rfl
  cases h

/-- The boot sector of a partition. -/
theorem probeBoot_eq (s : Sector) :
    probeBoot s = if Recognised s then labelled54 s else .unknown := by
  unfold probeBoot labelled54
  rw [probeFatNumeric_eq]
  by_cases hp : probeFatString s = .unknown
  · rw [if_neg (not_not.2 hp), if_pos hp]
    by_cases hv : s.bpb.ProbeValid
    · rw [if_pos hv, if_pos (show Recognised s from .inr hv)]
    · rw [if_neg hv, if_neg (show ¬ Recognised s from not_or.2 ⟨not_not.2 hp, hv⟩)]
  · rw [if_pos hp, if_neg hp, if_pos (show Recognised s from .inl hp)]

/-- The first sector. -/
theorem probeFirst_eq (s : Sector) :
    if ForeignSign s then (probeFirst s).isFat = false ∧ probeFirst s ≠ .unknown
    else probeFirst s = probeBoot s := by
  unfold probeFirst
  by_cases h1 : s.hasAt 3 [0x4E, 0x54, 0x46, 0x53, 0x20, 0x20, 0x20, 0x20] = true
  · rw [if_pos (show ForeignSign s from .inl h1), if_pos h1]
    exact ⟨rfl, nofun⟩
  by_cases h2 : s.hasAt 3 [0x45, 0x58, 0x46, 0x41, 0x54, 0x20, 0x20, 0x20] = true
  · rw [if_pos (show ForeignSign s from .inr (.inl h2)), if_neg h1, if_pos h2]
    exact ⟨rfl, nofun⟩
  rw [if_neg h1, if_neg h2]
  unfold probeBoot
  by_cases hp : probeFatString s = .unknown
  · rw [if_neg (not_not.2 hp), if_neg (not_not.2 hp)]
    by_cases h3 : s.hasAt 0 [0x58, 0x46, 0x53, 0x42] = true
    · rw [if_pos (show ForeignSign s from .inr (.inr ⟨hp, h3⟩)), if_pos h3]
      exact ⟨rfl, nofun⟩
    · have hno : ¬ ForeignSign s := not_or.2 ⟨h1, not_or.2 ⟨h2, fun h => h3 h.2⟩⟩
      rw [if_neg hno, if_neg h3]
  · have hno : ¬ ForeignSign s := not_or.2 ⟨h1, not_or.2 ⟨h2, fun h => hp h.1⟩⟩
    rw [if_neg hno, if_pos hp, if_pos hp]

/-- The type of the first of these sectors that the probe takes. -/
def firstLabelled (ss : List Sector) : ProbeFs :=
  match ss.find? (fun s => Recognised s) with
  | none => .unknown
  | some s => labelled54 s

theorem firstLabelled_cons (s : Sector) (ss : List Sector) :
    firstLabelled (s :: ss) = if probeBoot s ≠ .unknown then probeBoot s else firstLabelled ss := by
  rw [probeBoot_eq]
  unfold firstLabelled
  by_cases hr : Recognised s
  · rw [List.find?_cons_of_pos (by simpa using hr), if_pos hr,
      if_pos (isFat_ne (labelled54_isFat s))]
  · rw [List.find?_cons_of_neg (by simpa using hr), if_neg hr, if_neg (not_not.2 rfl)]

theorem probePartitions_eq {d : Disk} (hread : ∀ lba, d.readable lba = true) (s : Sector)
    (is : List Nat) : probePartitions d s is = firstLabelled (partitionSectors d s is) := by
  induction is with
  | nil => rfl
  | cons i is ih =>
    unfold probePartitions partitionSectors
    by_cases hf : isFatPartition (s.get (446 + 16 * i + 4)) = true
    · rw [List.filter_cons_of_pos (by simpa using hf), List.map_cons, firstLabelled_cons]
      simp only [hf, hread, true_and, ih]
      rfl
    · rw [List.filter_cons_of_neg (by simpa using hf)]
      simp only [hf, false_and, if_false, Bool.false_eq_true, ih]
      rfl

theorem firstLabelled_candidates (d : Disk) :
    firstLabelled (fatCandidates d) =
      if probeBoot (d.sector 0) ≠ .unknown then probeBoot (d.sector 0)
      else if hasSignature (d.sector 0) then
        firstLabelled (partitionSectors d (d.sector 0) (List.range 4))
      else .unknown := by
  unfold fatCandidates
  rw [firstLabelled_cons]
  by_cases hs : hasSignature (d.sector 0) = true
  · rw [if_pos hs, if_pos hs]
  · rw [if_neg hs, if_neg hs]
    rfl

/-- **The probe**, with every read good: only the first recognised candidate counts, unless the
first sector names another file system. -/
theorem fsProbe_eq {d : Disk} (hread : ∀ lba, d.readable lba = true) :
    if ForeignSign (d.sector 0) ∨ firstLabelled (fatCandidates d) = .unknown
    then (fsProbe d).isFat = false else fsProbe d = firstLabelled (fatCandidates d) := by
  have hfirst := probeFirst_eq (d.sector 0)
  unfold fsProbe
  rw [firstLabelled_candidates]
  simp only [hread, true_and, probePartitions_eq hread]
  by_cases hf : ForeignSign (d.sector 0)
  · rw [if_pos hf] at hfirst
    rw [if_pos (.inl hf), if_pos hfirst.2]
    exact hfirst.1
  · rw [if_neg hf] at hfirst
    rw [hfirst]
    simp only [hf, false_or]
    by_cases hb : probeBoot (d.sector 0) = .unknown
    · simp only [hb, ne_eq, not_true_eq_false, if_false]
      by_cases hs : hasSignature (d.sector 0) = true
      · simp only [hs, true_and, if_true]
        by_cases hp : firstLabelled (partitionSectors d (d.sector 0) (List.range 4)) = .unknown
        · simp only [hp, if_true, not_true_eq_false, if_false]
          exact probeOther_not_fat d
        · simp only [hp, if_false, not_false_eq_true, if_true]
      · simp only [hs, false_and, if_false, if_true, Bool.false_eq_true]
        exact probeOther_not_fat d
    · simp only [hb, ne_eq, not_false_eq_true, if_true, if_false]

/-! ## The mount -/

theorem bootType_eq (s : Sector) :
    bootType s = if typeString s = .unknown ∧ ¬ s.bpb.MountValid then .unknown
      else labelled82 s := by
  unfold bootType labelled82
  rw [detectFatType_eq]
  by_cases ht : typeString s = .unknown
  · by_cases hv : s.bpb.MountValid
    · rw [if_pos ht, if_pos ht, if_pos hv, if_neg (fun h => h.2 hv)]
    · rw [if_pos ht, if_neg hv, if_pos ⟨ht, hv⟩]
  · rw [if_neg ht, if_neg ht, if_neg (fun h => ht h.1)]

theorem labelled82_ne (s : Sector) : labelled82 s ≠ .unknown := by
  unfold labelled82
  split
  · exact clusterType_ne s.bpb
  · next h => exact h

/-- With every read good a device is accepted when its boot sector is loadable. -/
theorem accepts_iff {d : Disk} (hread : ∀ lba, d.readable lba = true) :
    Accepts d ↔ Loadable (bootSector d) := by
  have hb := bootType_eq (bootSector d)
  constructor
  · intro h
    refine ⟨h.signature, ?_⟩
    split
    · next ht =>
      by_contra hv
      rw [if_pos ⟨ht, hv⟩] at hb
      exact h.type hb
    · exact h.sectorSize
  · rintro ⟨hsig, h⟩
    by_cases ht : typeString (bootSector d) = .unknown
    · rw [if_pos ht] at h
      rw [if_neg (fun hn => hn.2 h)] at hb
      refine ⟨hread 0, hread _, hsig, hb ▸ labelled82_ne _, ?_⟩
      rw [h.1]
      decide
    · rw [if_neg ht] at h
      rw [if_neg (fun hn => ht hn.1)] at hb
      exact ⟨hread 0, hread _, hsig, hb ▸ labelled82_ne _, h⟩

theorem Loadable.bootType {s : Sector} (h : Loadable s) : bootType s = labelled82 s := by
  rw [bootType_eq, if_neg]
  rintro ⟨ht, hv⟩
  have hl := h.2
  rw [if_pos ht] at hl
  exact hv hl

/-! ## Agreement -/

/-- Both routines in terms of the sectors: what `fat_mount` does and what `fs_probe` reports. -/
theorem agree_iff_of_probe {fs : FatFs} {st : FatState} (hread : ∀ lba, st.disk.readable lba = true) :
    (((∃ r t, fatMount fs st = .ok (some r, t)) ↔ (fsProbe st.disk).isFat = true) ∧
      ∀ r t, fatMount fs st = .ok (some r, t) → r.fsType.probe = fsProbe st.disk) ↔
    if (fsProbe st.disk).isFat = true then
      Loadable (bootSector st.disk) ∧ (labelled82 (bootSector st.disk)).probe = fsProbe st.disk
    else ¬ Loadable (bootSector st.disk) := by
  have hsome : (∃ r t, fatMount fs st = .ok (some r, t)) ↔ Loadable (bootSector st.disk) := by
    rw [← accepts_iff hread]
    constructor
    · rintro ⟨r, t, h⟩
      exact (fatMount_some h).1
    · intro h
      exact h.fatMount fs
  have htype : ∀ r t, fatMount fs st = .ok (some r, t) →
      r.fsType = labelled82 (bootSector st.disk) := by
    intro r t h
    rw [(fatMount_some h).2.type, (hsome.1 ⟨r, t, h⟩).bootType]
  split
  · next hfat =>
    constructor
    · rintro ⟨hiff, hall⟩
      obtain ⟨r, t, h⟩ := hiff.2 hfat
      exact ⟨hsome.1 ⟨r, t, h⟩, htype r t h ▸ hall r t h⟩
    · rintro ⟨hl, hty⟩
      exact ⟨⟨fun _ => hfat, fun _ => hsome.2 hl⟩, fun r t h => (htype r t h).symm ▸ hty⟩
  · next hfat =>
    constructor
    · rintro ⟨hiff, -⟩ hl
      exact hfat (hiff.1 (hsome.2 hl))
    · intro hl
      exact ⟨⟨fun h => absurd (hsome.1 h) hl, fun h => absurd h hfat⟩,
        fun r t h => absurd (hsome.1 ⟨r, t, h⟩) hl⟩

/-- **Probe and mount agree exactly on `Agreeing` devices.** -/
theorem probe_mount_agree_iff (fs : FatFs) (st : FatState)
    (hread : ∀ lba, st.disk.readable lba = true) :
    (((∃ r t, fatMount fs st = .ok (some r, t)) ↔ (fsProbe st.disk).isFat = true) ∧
      ∀ r t, fatMount fs st = .ok (some r, t) → r.fsType.probe = fsProbe st.disk) ↔
    Agreeing st.disk := by
  have hprobe := fsProbe_eq hread
  rw [agree_iff_of_probe hread]
  unfold Agreeing
  unfold firstLabelled at hprobe
  by_cases hf : ForeignSign (st.disk.sector 0)
  · rw [if_pos (.inl hf)] at hprobe
    rw [if_pos hf, hprobe, if_neg Bool.false_ne_true]
  · rw [if_neg hf]
    cases hc : (fatCandidates st.disk).find? (fun s => Recognised s) with
    | none =>
      simp only [hc, or_true, if_true] at hprobe
      rw [hprobe, if_neg Bool.false_ne_true]
    | some s =>
      have hne := isFat_ne (labelled54_isFat s)
      simp only [hc, hf, hne, or_self, if_false] at hprobe
      rw [hprobe, if_pos (labelled54_isFat s)]

theorem agreeing_floppy : Agreeing (floppy true) := by
  unfold Agreeing fatCandidates
  rw [if_neg (by decide +kernel), List.find?_cons_of_pos (by decide +kernel)]
  decide +kernel

/-- The FAT12 floppy of the mount table, which both recognise. -/
theorem probe_mount_agree_floppy :
    (((∃ r t, fatMount blankFs ⟨Sector.zero, floppy true⟩ = .ok (some r, t)) ↔
        (fsProbe (floppy true)).isFat = true) ∧
      ∀ r t, fatMount blankFs ⟨Sector.zero, floppy true⟩ = .ok (some r, t) →
        r.fsType.probe = fsProbe (floppy true)) :=
  (probe_mount_agree_iff blankFs ⟨Sector.zero, floppy true⟩ fun _ => rfl).2 agreeing_floppy

/-- A FAT32 volume of 20000 sectors, fewer clusters than the type should have. -/
def smallFat32 : Disk :=
  ⟨fun _ => (((((((((Sector.zero.set16 11 512).set 13 1).set16 14 32).set 16 2).set32 32 20000).set32
    36 160).set32 82 0x33544146).set 86 0x32).set16 510 0xAA55), fun _ => true, fun _ _ => true, 0⟩

/-- The probe goes by the clusters and reports FAT16, the mount by the label. -/
theorem probe_mount_differ_small_fat32 :
    ¬ ∀ (fs : FatFs) (st : FatState), (∀ lba, st.disk.readable lba = true) →
      ((∃ r t, fatMount fs st = .ok (some r, t)) ↔ (fsProbe st.disk).isFat = true) ∧
      ∀ r t, fatMount fs st = .ok (some r, t) → r.fsType.probe = fsProbe st.disk := by
  intro h
  have hboth := h blankFs ⟨Sector.zero, smallFat32⟩ fun _ => rfl
  have hagree := (agree_iff_of_probe fun _ => rfl).1 hboth
  exact absurd hagree (by decide +kernel)

end HaoSys.Fs
