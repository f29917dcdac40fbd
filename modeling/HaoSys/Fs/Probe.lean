import HaoSys.Fs.Mount

/-!
# Recognising a file system (`fs/probe.c`)

`fs_probe` looks at a few sectors of a device before it is mounted. FAT is
recognised by the string at offset 54 or, without one, by a BPB that makes
sense, in the first sector or in that of a FAT partition; the boot signature
and the string at offset 82, which `fat_mount` goes by, are not looked at.
-/

namespace HaoSys.Fs

/-- `probe_fs_t`. -/
inductive ProbeFs where
  | unknown
  | fat12
  | fat16
  | fat32
  | exfat
  | ntfs
  | ext2
  | ext3
  | ext4
  | iso9660
  | xfs
  | btrfs
  deriving DecidableEq, Repr

namespace ProbeFs

/-- The types `vfs_mount` goes on with. -/
def isFat (t : ProbeFs) : Bool := t = .fat12 ∨ t = .fat16 ∨ t = .fat32

end ProbeFs

/-- `memcmp(s + o, bytes, n) == 0`. -/
def Sector.hasAt (s : Sector) (o : Nat) (bytes : List UInt8) : Bool :=
  (List.range bytes.length).map (fun k => s.get (o + k)) = bytes

/-- The type named by the string at offset 54, eight bytes with its blanks. -/
def probeFatString (s : Sector) : ProbeFs :=
  if s.hasAt 54 [0x46, 0x41, 0x54, 0x31, 0x32, 0x20, 0x20, 0x20] then .fat12
  else if s.hasAt 54 [0x46, 0x41, 0x54, 0x31, 0x36, 0x20, 0x20, 0x20] then .fat16
  else if s.hasAt 54 [0x46, 0x41, 0x54, 0x33, 0x32, 0x20, 0x20, 0x20] then .fat32
  else .unknown

/-- `probe_fat_numeric`. -/
def probeFatNumeric (s : Sector) : ProbeFs :=
  let b := s.bpb
  if b.bytesPerSector ∉ [512, 1024, 2048, 4096] then .unknown
  else if b.sectorsPerCluster = 0 ∨ b.sectorsPerCluster &&& (b.sectorsPerCluster - 1) ≠ 0 then
    .unknown
  else if b.numFats = 0 then .unknown
  else if b.fatSize = 0 then .unknown
  else if b.totalSectors = 0 then .unknown
  else
    let dataSectors := b.totalSectors - b.reservedSectors.toUInt32 -
      b.numFats.toUInt32 * b.fatSize - b.rootDirSectors
    let clusters := dataSectors / b.sectorsPerCluster.toUInt32
    if clusters < 4085 then .fat12 else if clusters < 65525 then .fat16 else .fat32

/-- The type of a partition's boot sector: the string, else the BPB. -/
def probeBoot (s : Sector) : ProbeFs :=
  if probeFatString s ≠ .unknown then probeFatString s else probeFatNumeric s

/-- What the first sector says by itself. -/
def probeFirst (s : Sector) : ProbeFs :=
  if s.hasAt 3 [0x4E, 0x54, 0x46, 0x53, 0x20, 0x20, 0x20, 0x20] then .ntfs
  else if s.hasAt 3 [0x45, 0x58, 0x46, 0x41, 0x54, 0x20, 0x20, 0x20] then .exfat
  else if probeFatString s ≠ .unknown then probeFatString s
  else if s.hasAt 0 [0x58, 0x46, 0x53, 0x42] then .xfs
  else probeFatNumeric s

/-- The first FAT partition whose boot sector is recognised. -/
def probePartitions (d : Disk) (s : Sector) : List Nat → ProbeFs
  | [] => .unknown
  | i :: is =>
    let lba := s.get32 (446 + 16 * i + 8)
    if isFatPartition (s.get (446 + 16 * i + 4)) ∧ d.readable lba ∧
        probeBoot (d.sector lba) ≠ .unknown then probeBoot (d.sector lba)
    else probePartitions d s is

/-- The file systems with a superblock further in: ext, ISO 9660 and btrfs. -/
def probeOther (d : Disk) : ProbeFs :=
  if d.readable 2 ∧ (d.sector 2).get16 56 = 0xEF53 then
    if (d.sector 2).get32 96 &&& 0x40 ≠ 0 then .ext4
    else if (d.sector 2).get32 92 &&& 0x04 ≠ 0 then .ext3
    else .ext2
  else if d.readable 16 ∧ (d.sector 16).hasAt 1 [0x43, 0x44, 0x30, 0x30, 0x31] then .iso9660
  else if d.readable 128 ∧
      (d.sector 128).hasAt 0x40 [0x5F, 0x42, 0x48, 0x52, 0x66, 0x53, 0x5F, 0x4D] then .btrfs
  else .unknown

/-- `fs_probe`. -/
def fsProbe (d : Disk) : ProbeFs :=
  let s := d.sector 0
  if d.readable 0 ∧ probeFirst s ≠ .unknown then probeFirst s
  else if d.readable 0 ∧ hasSignature s ∧ probePartitions d s (List.range 4) ≠ .unknown then
    probePartitions d s (List.range 4)
  else probeOther d

theorem probeOther_not_fat (d : Disk) : (probeOther d).isFat = false := by
  unfold probeOther
  split
  · split
    · rfl
    · split <;> rfl
  · split
    · rfl
    · split <;> rfl

/-- A device recognised as FAT has a first sector that can be read. -/
theorem readable_of_fsProbe {d : Disk} (h : (fsProbe d).isFat = true) : d.readable 0 = true := by
  unfold fsProbe at h
  by_contra hno
  simp only [hno, false_and, if_false] at h
  rw [probeOther_not_fat] at h
  cases h

end HaoSys.Fs
