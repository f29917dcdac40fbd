import HaoSys.Fs.Disk

/-!
# The FAT driver (`fs/fat.c`)

An instance `FatFs` holds what `fat_mount` leaves fixed; the sector buffer and
the device are the state of `FatM`. `dir_scan_entries` is filled by one call of
`fat_read_dir` and read right after it, so it is that call's result here.

A path is its bytes before the NUL, `none` the `NULL` pointer. Cluster numbers,
sector numbers and sizes are `uint32_t`. The `while (1)` loops over a
directory's clusters take fuel.
-/

namespace HaoSys.Fs

open HaoSys.Lib

/-- `fat_type_t`. -/
inductive FatType where
  | unknown
  | fat12
  | fat16
  | fat32
  deriving DecidableEq, Repr

/-- The fields of `fat_fs_t` that stay after `fat_mount`. -/
structure FatFs where
  baseLba : UInt32
  reservedSectors : UInt32
  numFats : UInt32
  fatSize : UInt32
  rootDirSectors : UInt32
  firstDataSector : UInt32
  totalSectors : UInt32
  sectorsPerCluster : UInt32
  bytesPerSector : UInt32
  fsType : FatType
  rootCluster : UInt32
  initialized : Bool

/-! ## Sectors -/

/-- `fat_dev_read(fs, lba, sector_buffer)`. -/
def fatDevRead (fs : FatFs) (lba : UInt32) : FatM Bool := fun s =>
  if s.disk.readable (fs.baseLba + lba) then
    .ok (true, { s with buf := s.disk.sector (fs.baseLba + lba) })
  else .ok (false, s)

/-- `fat_dev_write(fs, lba, sector_buffer)`. -/
def fatDevWrite (fs : FatFs) (lba : UInt32) : FatM Bool := fun s =>
  let a := fs.baseLba + lba
  if s.disk.writable s.disk.writes a then
    .ok (true, { s with disk := { s.disk with
      sector := Function.update s.disk.sector a s.buf, writes := s.disk.writes + 1 } })
  else .ok (false, { s with disk := { s.disk with writes := s.disk.writes + 1 } })

/-! ## FAT entries -/

/-- The byte offset of a cluster's entry in the FAT. -/
def fatOffset (fs : FatFs) (cluster : UInt32) : UInt32 :=
  match fs.fsType with
  | .fat12 => cluster * 3 / 2
  | .fat16 => cluster * 2
  | _ => cluster * 4

/-- Offset in the sector and sector of a FAT byte offset. -/
def fatPlace (fs : FatFs) (off : UInt32) : FatM (UInt32 × UInt32) := do
  let q ← udiv off fs.bytesPerSector
  pure (off % fs.bytesPerSector, fs.reservedSectors + q)

/-- The 12 bits of a FAT12 entry in its two bytes. -/
def fat12Get (cluster : UInt32) (b0 b1 : UInt8) : UInt32 :=
  let val := le16 b0 b1
  (if cluster &&& 1 ≠ 0 then val >>> 4 else val &&& 0x0FFF).toUInt32

/-- `read_fat_entry`. -/
def readFatEntry (fs : FatFs) (cluster : UInt32) : FatM UInt32 :=
  match fs.fsType with
  | .fat12 => do
    let (byteOff, fatSector) ← fatPlace fs (fatOffset fs cluster)
    if byteOff + 1 < fs.bytesPerSector then
      if ← fatDevRead fs fatSector then
        let (b0, b1) ← bufRead byteOff.toNat 2 fun b =>
          (b.get byteOff.toNat, b.get (byteOff.toNat + 1))
        pure (fat12Get cluster b0 b1)
      else pure 0x0FFFFFFF
    else if ← fatDevRead fs fatSector then
      let b0 ← bufRead byteOff.toNat 1 fun b => b.get byteOff.toNat
      if ← fatDevRead fs (fatSector + 1) then
        let b1 ← bufRead 0 1 fun b => b.get 0
        pure (fat12Get cluster b0 b1)
      else pure 0x0FFFFFFF
    else pure 0x0FFFFFFF
  | .fat16 => do
    let (offset, fatSector) ← fatPlace fs (fatOffset fs cluster)
    if ← fatDevRead fs fatSector then
      bufRead offset.toNat 2 fun b => (b.get16 offset.toNat).toUInt32
    else pure 0xFFFF
  | .fat32 => do
    let (offset, fatSector) ← fatPlace fs (fatOffset fs cluster)
    if ← fatDevRead fs fatSector then
      bufRead offset.toNat 4 fun b => b.get32 offset.toNat &&& 0x0FFFFFFF
    else pure 0x0FFFFFFF
  | .unknown => pure 0x0FFFFFFF

/-- A FAT12 word with the 12 bits of `cluster` replaced. -/
def fat12Put (cluster value : UInt32) (v : UInt16) : UInt16 :=
  let bits : UInt16 := (value &&& 0x0FFF).toUInt16
  if cluster &&& 1 ≠ 0 then v &&& (0x000F : UInt16) ||| bits <<< (4 : UInt16)
  else v &&& (0xF000 : UInt16) ||| bits

/-- Write a FAT sector and its mirror in the second FAT. -/
def writeMirrored (fs : FatFs) (fatSector : UInt32) : FatM Unit := do
  let _ ← fatDevWrite fs fatSector
  let _ ← fatDevWrite fs (fatSector + fs.fatSize)

/-- What the read of `sector_buffer[512]` does, one byte behind the buffer. -/
class BehindBuffer where
  read : FatM UInt8

/-- In memory some byte of `dir_scan_entries` stands there. -/
instance memoryBehind : BehindBuffer := ⟨pure 0⟩

theorem read_behind (s : FatState) : (BehindBuffer.read : FatM UInt8) s = .ok (0, s) := rfl

/-- As an index of the array it is a fault. -/
abbrev BehindBuffer.checked : BehindBuffer := ⟨Prog.fault .outOfBounds⟩

/-- `write_fat_entry`; failures are not reported. -/
def writeFatEntry [BehindBuffer] (fs : FatFs) (cluster value : UInt32) : FatM Unit :=
  match fs.fsType with
  | .fat16 => do
    let (offset, fatSector) ← fatPlace fs (fatOffset fs cluster)
    if ← fatDevRead fs fatSector then
      bufWrite offset.toNat 2 fun b => b.set16 offset.toNat (value &&& 0xFFFF).toUInt16
      writeMirrored fs fatSector
  | .fat32 => do
    let (offset, fatSector) ← fatPlace fs (fatOffset fs cluster)
    if ← fatDevRead fs fatSector then
      bufWrite offset.toNat 4 fun b => b.set32 offset.toNat
        ((b.get32 offset.toNat &&& 0xF0000000) ||| (value &&& 0x0FFFFFFF))
      writeMirrored fs fatSector
  | .fat12 => do
    let (offset, fatSector) ← fatPlace fs (fatOffset fs cluster)
    if offset + 1 < fs.bytesPerSector then
      if ← fatDevRead fs fatSector then
        bufWrite offset.toNat 2 fun b =>
          b.set16 offset.toNat (fat12Put cluster value (b.get16 offset.toNat))
        writeMirrored fs fatSector
    else if ← fatDevRead fs fatSector then
      let b0 ← bufRead offset.toNat 1 fun b => b.get offset.toNat
      -- `old_hi = sector_buffer[offset + 1]`, which nothing uses
      let _ ← BehindBuffer.read
      if ← fatDevRead fs (fatSector + 1) then
        let b1 ← bufRead 0 2 fun b => b.get 0
        let v := fat12Put cluster value (le16 b0 b1)
        bufWrite offset.toNat 1 fun b => b.set offset.toNat (byte v.toNat 0)
        writeMirrored fs fatSector
        if ← fatDevRead fs (fatSector + 1) then
          bufWrite 0 1 fun b => b.set 0 (byte v.toNat 1)
          writeMirrored fs (fatSector + 1)
  | .unknown => pure ()

/-- From this value on an entry ends a chain. -/
def endOfChain : UInt32 := 0x0FFFFFF8

/-- The end mark the driver writes. -/
def chainMark : UInt32 := 0xFFF8

/-- The first sector of a cluster. -/
def clusterLba (fs : FatFs) (cluster : UInt32) : UInt32 :=
  fs.firstDataSector + (cluster - 2) * fs.sectorsPerCluster

/-- `max_cluster`: clusters are numbered from 2 up to it. -/
def maxCluster (fs : FatFs) : FatM UInt32 := do
  let dataSectors := fs.totalSectors -
    (fs.reservedSectors + fs.numFats * fs.fatSize + fs.rootDirSectors)
  let q ← udiv dataSectors fs.sectorsPerCluster
  pure (2 + q)

/-! ## Names -/

abbrev Name83 := Fin 11 → UInt8

instance neZero11 : NeZero 11 := ⟨by decide⟩

def toUpper (c : UInt8) : UInt8 := if 0x61 ≤ c ∧ c ≤ 0x7A then c - 0x20 else c

/-- `make_83_name`: up to eight bytes before a dot, up to three after it. -/
def makeName83 (filename : List UInt8) : Name83 :=
  let base := (filename.takeWhile (· ≠ 0x2E)).take 8
  let ext := match filename.drop base.length with
    | 0x2E :: rest => rest.take 3
    | _ => []
  fun j => if j.val < 8 then toUpper (base.getD j.val 0x20) else toUpper (ext.getD (j.val - 8) 0x20)

/-- The upper-cased name of an entry. -/
def Dirent.upperName (e : Dirent) : Name83 := fun j => toUpper (e (j.castLE (by decide)))

/-! ## Directories -/

/-- First sector and number of sectors of a directory cluster; 0 is the fixed root region. -/
def dirRegion (fs : FatFs) (cluster : UInt32) : UInt32 × UInt32 :=
  if cluster = 0 then (fs.reservedSectors + fs.numFats * fs.fatSize, fs.rootDirSectors)
  else (clusterLba fs cluster, fs.sectorsPerCluster)

/-- The cluster a walk over directory `dirCluster` starts with. -/
def dirStart (fs : FatFs) (dirCluster : UInt32) : UInt32 :=
  if dirCluster = 0 ∧ fs.fsType = .fat32 then fs.rootCluster else dirCluster

/-- The entry loop of `fat_read_dir`, `n` entries from entry `i` on: whether the end marker was
met, and the entries so far. -/
def readDirEntries (maxEntries : UInt32) : Nat → Nat → List Dirent → FatM (Bool × List Dirent)
  | 0, _, acc => pure (false, acc)
  | n + 1, i, acc =>
    if acc.length < maxEntries.toNat then do
      let e ← bufRead (32 * i) 32 fun b => b.dirent (32 * i)
      if e 0 = 0x00 then pure (true, acc)
      else if e 0 = 0xE5 then readDirEntries maxEntries n (i + 1) acc
      else readDirEntries maxEntries n (i + 1) (acc ++ [e])
    else pure (false, acc)

/-- The sector loop of `fat_read_dir`; a read error ends it. -/
def readDirSectors (fs : FatFs) (maxEntries : UInt32) :
    Nat → UInt32 → List Dirent → FatM (Bool × List Dirent)
  | 0, _, acc => pure (false, acc)
  | n + 1, lba, acc => do
    if ← fatDevRead fs lba then
      let (stop, acc) ← readDirEntries maxEntries (fs.bytesPerSector / 32).toNat 0 acc
      if stop then pure (true, acc) else readDirSectors fs maxEntries n (lba + 1) acc
    else pure (false, acc)

/-- The cluster loop of `fat_read_dir`. -/
def readDirClusters (fs : FatFs) (maxEntries : UInt32) :
    Nat → UInt32 → List Dirent → FatM (List Dirent)
  | 0, _, _ => Prog.fault .noReturn
  | fuel + 1, cluster, acc =>
    if cluster = 1 then pure acc
    else do
      let (lba, sectorCount) := dirRegion fs cluster
      let (stop, acc) ← readDirSectors fs maxEntries sectorCount.toNat lba acc
      if stop ∨ cluster = 0 then pure acc
      else
        let next ← readFatEntry fs cluster
        if next ≥ endOfChain then pure acc else readDirClusters fs maxEntries fuel next acc

/-- `fat_read_dir`: the live entries, at most `maxEntries`. -/
def fatReadDir (fuel : Nat) (fs : FatFs) (dirCluster maxEntries : UInt32) : FatM (List Dirent) :=
  if !fs.initialized ∨ maxEntries = 0 then pure []
  else readDirClusters fs maxEntries fuel (dirStart fs dirCluster) []

/-- `dir_find_name`: the entry of that name among the first 128. -/
def dirFindName (fuel : Nat) (fs : FatFs) (dirCluster : UInt32) (name83 : Name83) :
    FatM (Option Dirent) := do
  let entries ← fatReadDir fuel fs dirCluster 128
  pure (entries.find? fun e => e.upperName = name83)

/-- What `dir_find_slot` finds, with the entry's sector and offset. -/
inductive Slot where
  | full
  | sameName (lba offset : UInt32)
  | free (lba offset : UInt32)
  deriving DecidableEq, Repr

/-- The entry loop of `dir_find_slot`. -/
def findSlotEntries (name83 : Name83) (lba : UInt32) : Nat → Nat → FatM Slot
  | 0, _ => pure .full
  | n + 1, i => do
    let e ← bufRead (32 * i) 32 fun b => b.dirent (32 * i)
    if e 0 = 0x00 ∨ e 0 = 0xE5 then pure (.free lba (UInt32.ofNat (32 * i)))
    else if e.upperName = name83 then pure (.sameName lba (UInt32.ofNat (32 * i)))
    else findSlotEntries name83 lba n (i + 1)

/-- The sector loop of `dir_find_slot`: `none` when every sector was read and none had a slot;
a read error ends the whole search. -/
def findSlotSectors (fs : FatFs) (name83 : Name83) : Nat → UInt32 → FatM (Option Slot)
  | 0, _ => pure none
  | n + 1, lba => do
    if ← fatDevRead fs lba then
      match ← findSlotEntries name83 lba (fs.bytesPerSector / 32).toNat 0 with
      | .full => findSlotSectors fs name83 n (lba + 1)
      | slot => pure (some slot)
    else pure (some .full)

/-- The cluster loop of `dir_find_slot`. -/
def findSlotClusters (fs : FatFs) (name83 : Name83) : Nat → UInt32 → FatM Slot
  | 0, _ => Prog.fault .noReturn
  | fuel + 1, cluster =>
    if cluster = 1 then pure .full
    else do
      let (lba, sectorCount) := dirRegion fs cluster
      match ← findSlotSectors fs name83 sectorCount.toNat lba with
      | some slot => pure slot
      | none =>
        if cluster = 0 then pure .full
        else
          let next ← readFatEntry fs cluster
          if next ≥ endOfChain then pure .full else findSlotClusters fs name83 fuel next

/-- `dir_find_slot`: the first entry that is free or has that name. -/
def dirFindSlot (fuel : Nat) (fs : FatFs) (dirCluster : UInt32) (name83 : Name83) : FatM Slot :=
  findSlotClusters fs name83 fuel (dirStart fs dirCluster)

/-- The walk of `dir_extend` to the end of a chain, at most `n` steps. -/
def chainTail (fs : FatFs) : Nat → UInt32 → FatM UInt32
  | 0, cluster => pure cluster
  | n + 1, cluster =>
    if cluster ≥ 2 then do
      let next ← readFatEntry fs cluster
      if next ≥ endOfChain then pure cluster else chainTail fs n next
    else pure cluster

/-- The first free cluster among the `n` clusters from `c` on. -/
def findFree (fs : FatFs) : Nat → UInt32 → FatM (Option UInt32)
  | 0, _ => pure none
  | n + 1, c => do
    let v ← readFatEntry fs c
    if v = 0 then pure (some c) else findFree fs n (c + 1)

/-- `memset(sector_buffer, 0, bytes_per_sector)`. -/
def clearBuf (fs : FatFs) : FatM Unit :=
  bufWrite 0 fs.bytesPerSector.toNat fun b k =>
    if k.val < fs.bytesPerSector.toNat then 0 else b k

/-- Clear `n` sectors from `lba` on; write errors are ignored. -/
def zeroSectors (fs : FatFs) : Nat → UInt32 → FatM Unit
  | 0, _ => pure ()
  | n + 1, lba => do
    clearBuf fs
    let _ ← fatDevWrite fs lba
    zeroSectors fs n (lba + 1)

/-- `dir_extend`: append a cleared cluster to a directory; its first sector, or `none`. -/
def dirExtend [BehindBuffer] (fs : FatFs) (dirCluster : UInt32) : FatM (Option UInt32) := do
  let cluster ← chainTail fs 65536 dirCluster
  if cluster < 2 then pure none
  else
    let maxC ← maxCluster fs
    match ← findFree fs (maxC.toNat - 2) 2 with
    | none => pure none
    | some c =>
      writeFatEntry fs cluster c
      writeFatEntry fs c chainMark
      zeroSectors fs fs.sectorsPerCluster.toNat (clusterLba fs c)
      pure (some (clusterLba fs c))

/-! ## Paths -/

/-- The result of `fat_resolve_parent`: the parent's cluster (0xFFFFFFFF is failure), the 8.3
name of the last segment and its entry, if there is one. -/
structure Resolved where
  parent : UInt32
  name83 : Name83
  entry : Option Dirent

instance : DecidableEq Resolved := fun a b =>
  decidable_of_iff (a.parent = b.parent ∧ a.name83 = b.name83 ∧ a.entry = b.entry) (by
    cases a; cases b; simp)

def Resolved.fail : Resolved := ⟨0xFFFFFFFF, fun _ => 0, none⟩

/-- One more byte of a segment; `seg` has room for 15. -/
def pushSeg (seg : Option (List UInt8)) (c : UInt8) : List UInt8 :=
  if (seg.getD []).length < 15 then seg.getD [] ++ [c] else seg.getD []

/-- The loop of `fat_resolve_parent`: the rest of the path, the current directory and the
segment read so far (`none` before its first byte). -/
def resolveParentLoop (fuel : Nat) (fs : FatFs) :
    List UInt8 → UInt32 → Option (List UInt8) → FatM Resolved
  | [], _, none => pure .fail
  | [], cur, some seg => do
    let name83 := makeName83 seg
    let entry ← dirFindName fuel fs cur name83
    pure ⟨cur, name83, entry⟩
  | c :: rest, cur, seg =>
    if c = 0x2F then
      match seg with
      | none => resolveParentLoop fuel fs rest cur none
      | some seg => do
        match ← dirFindName fuel fs cur (makeName83 seg) with
        | none => pure .fail
        | some e =>
          if e.isDir then resolveParentLoop fuel fs rest e.firstCluster none else pure .fail
    else resolveParentLoop fuel fs rest cur (some (pushSeg seg c))

/-- `fat_resolve_parent`. -/
def fatResolveParent (fuel : Nat) (fs : FatFs) (path : Option (List UInt8)) : FatM Resolved :=
  match path with
  | none => pure .fail
  | some path => resolveParentLoop fuel fs path 0 none

/-- The loop of `fat_open_dir`. -/
def openDirLoop (fuel : Nat) (fs : FatFs) :
    List UInt8 → UInt32 → Option (List UInt8) → FatM UInt32
  | [], cur, none => pure cur
  | [], cur, some seg => do
    match ← dirFindName fuel fs cur (makeName83 seg) with
    | none => pure 0xFFFFFFFF
    | some e => if e.isDir then pure e.firstCluster else pure 0xFFFFFFFF
  | c :: rest, cur, seg =>
    if c = 0x2F then
      match seg with
      | none => openDirLoop fuel fs rest cur none
      | some seg => do
        match ← dirFindName fuel fs cur (makeName83 seg) with
        | none => pure 0xFFFFFFFF
        | some e =>
          if e.isDir then openDirLoop fuel fs rest e.firstCluster none else pure 0xFFFFFFFF
    else openDirLoop fuel fs rest cur (some (pushSeg seg c))

/-- `fat_open_dir`: the directory's first cluster, 0 for the root, 0xFFFFFFFF on failure. -/
def fatOpenDir (fuel : Nat) (fs : FatFs) (path : Option (List UInt8)) : FatM UInt32 :=
  openDirLoop fuel fs (path.getD []) 0 none

/-- `fat_find_file`. -/
def fatFindFile (fuel : Nat) (fs : FatFs) (filename : Option (List UInt8)) :
    FatM (Option Dirent) :=
  if !fs.initialized then pure none
  else do
    let r ← fatResolveParent fuel fs filename
    if r.parent = 0xFFFFFFFF then pure none else pure r.entry

/-! ## Unix metadata -/

def metaMagic : UInt16 := 0x58

def sIfreg : UInt16 := 0o100000
def sIfdir : UInt16 := 0o040000

/-- `mode`, `uid` and `gid`. -/
structure UnixMeta where
  mode : UInt16
  uid : UInt16
  gid : UInt16
  deriving DecidableEq, Repr

/-- `fat_entry_unix_meta`. -/
def Dirent.unixMeta (e : Dirent) : UnixMeta :=
  if e.creationTime >>> 8 = metaMagic then
    ⟨le16 (e 13) (e 14), le16 (e 16) (e 17), le16 (e 18) (e 19)⟩
  else ⟨if e.isDir then sIfdir ||| 0o755 else sIfreg ||| 0o644, 0, 0⟩

/-- `fat_entry_set_unix_meta`. -/
def Dirent.setUnixMeta (e : Dirent) (m : UnixMeta) : Dirent := fun j =>
  match j.val with
  | 13 => byte m.mode.toNat 0
  | 14 => byte m.mode.toNat 1
  | 15 => 0x58
  | 16 => byte m.uid.toNat 0
  | 17 => byte m.uid.toNat 1
  | 18 => byte m.gid.toNat 0
  | 19 => byte m.gid.toNat 1
  | _ => e j

/-- `fat_set_file_meta`. -/
def fatSetFileMeta (fuel : Nat) (fs : FatFs) (filename : Option (List UInt8)) (m : UnixMeta) :
    FatM Bool :=
  if !fs.initialized ∨ filename = none then pure false
  else do
    let r ← fatResolveParent fuel fs filename
    if r.parent = 0xFFFFFFFF ∨ r.entry = none then pure false
    else
      match ← dirFindSlot fuel fs r.parent r.name83 with
      | .sameName lba offset =>
        if ← fatDevRead fs lba then
          bufWrite offset.toNat 32 fun b =>
            b.setDirent offset.toNat ((b.dirent offset.toNat).setUnixMeta m)
          fatDevWrite fs lba
        else pure false
      | _ => pure false

/-! ## Reading files -/

/-- The sector loop of `fat_load_file`: the bytes copied so far and what remains; `false` when a
read failed. -/
def loadSectors (fs : FatFs) : Nat → UInt32 → List UInt8 → UInt32 →
    FatM (Bool × List UInt8 × UInt32)
  | 0, _, acc, remaining => pure (true, acc, remaining)
  | n + 1, lba, acc, remaining =>
    if remaining > 0 then do
      if ← fatDevRead fs lba then
        let copy := if remaining < fs.bytesPerSector then remaining else fs.bytesPerSector
        let bytes ← bufRead 0 copy.toNat fun b => (List.range copy.toNat).map b.get
        loadSectors fs n (lba + 1) (acc ++ bytes) (remaining - copy)
      else pure (false, acc, remaining)
    else pure (true, acc, remaining)

/-- The cluster loop of `fat_load_file`. -/
def loadClusters (fs : FatFs) : Nat → UInt32 → List UInt8 → UInt32 → FatM (List UInt8)
  | 0, _, _, _ => Prog.fault .noReturn
  | fuel + 1, cluster, acc, remaining =>
    if remaining > 0 ∧ cluster < endOfChain then do
      let (ok, acc, remaining) ←
        loadSectors fs fs.sectorsPerCluster.toNat (clusterLba fs cluster) acc remaining
      if ok then
        let next ← readFatEntry fs cluster
        if next ≥ endOfChain then pure acc else loadClusters fs fuel next acc remaining
      else pure acc
    else pure acc

/-- `fat_load_file`: the bytes put into the buffer; their number is what the source returns. -/
def fatLoadFile (fuel : Nat) (fs : FatFs) (entry : Dirent) (maxSize : UInt32) :
    FatM (List UInt8) :=
  if !fs.initialized ∨ maxSize = 0 then pure []
  else
    let fileSize := if entry.fileSize > maxSize then maxSize else entry.fileSize
    if entry.firstCluster < 2 then pure []
    else loadClusters fs fuel entry.firstCluster [] fileSize

/-- The sector loop of `fat_load_file_off`, with the bytes still to skip. -/
def loadOffSectors (fs : FatFs) : Nat → UInt32 → List UInt8 → UInt32 → UInt32 →
    FatM (Bool × List UInt8 × UInt32 × UInt32)
  | 0, _, acc, remaining, skip => pure (true, acc, remaining, skip)
  | n + 1, lba, acc, remaining, skip =>
    if remaining > 0 then do
      if ← fatDevRead fs lba then
        if skip > 0 ∧ skip ≥ fs.bytesPerSector then
          loadOffSectors fs n (lba + 1) acc remaining (skip - fs.bytesPerSector)
        else
          let avail := fs.bytesPerSector - skip
          let copy := if remaining < avail then remaining else avail
          let bytes ← bufRead skip.toNat copy.toNat fun b =>
            (List.range copy.toNat).map fun k => b.get (skip.toNat + k)
          loadOffSectors fs n (lba + 1) (acc ++ bytes) (remaining - copy) 0
      else pure (false, acc, remaining, skip)
    else pure (true, acc, remaining, skip)

/-- The cluster loop of `fat_load_file_off`. -/
def loadOffClusters (fs : FatFs) : Nat → UInt32 → List UInt8 → UInt32 → UInt32 →
    FatM (List UInt8)
  | 0, _, _, _, _ => Prog.fault .noReturn
  | fuel + 1, cluster, acc, remaining, skip =>
    if remaining > 0 ∧ cluster < endOfChain then do
      let (ok, acc, remaining, skip) ←
        loadOffSectors fs fs.sectorsPerCluster.toNat (clusterLba fs cluster) acc remaining skip
      if ok then
        let next ← readFatEntry fs cluster
        if next ≥ endOfChain then pure acc else loadOffClusters fs fuel next acc remaining skip
      else pure acc
    else pure acc

/-- `fat_load_file_off`. -/
def fatLoadFileOff (fuel : Nat) (fs : FatFs) (entry : Dirent) (offset maxSize : UInt32) :
    FatM (List UInt8) :=
  if !fs.initialized ∨ maxSize = 0 ∨ offset ≥ entry.fileSize then pure []
  else
    let maxSize := if entry.fileSize - offset < maxSize then entry.fileSize - offset else maxSize
    if entry.firstCluster < 2 then pure []
    else loadOffClusters fs fuel entry.firstCluster [] maxSize offset

/-! ## Deleting, writing and creating -/

/-- The loop of `fat_free_chain`, at most `n` steps. -/
def freeChainLoop [BehindBuffer] (fs : FatFs) : Nat → UInt32 → FatM Unit
  | 0, _ => pure ()
  | n + 1, c =>
    if c ≥ 2 ∧ c < endOfChain then do
      let next ← readFatEntry fs c
      writeFatEntry fs c 0
      if next ≥ endOfChain then pure () else freeChainLoop fs n next
    else pure ()

/-- `fat_free_chain`. -/
def fatFreeChain [BehindBuffer] (fs : FatFs) (firstCluster : UInt32) : FatM Unit :=
  freeChainLoop fs 65536 firstCluster

/-- Free the chain from `cluster` on, if there is one. -/
def freeChainFrom [BehindBuffer] (fs : FatFs) (cluster : UInt32) : FatM Unit :=
  if cluster ≥ 2 then fatFreeChain fs cluster else pure ()

/-- What stands in the directory an entry points to. -/
def dirContents (fuel : Nat) (fs : FatFs) (e : Dirent) : FatM (List Dirent) :=
  if e.isDir ∧ e.firstCluster ≥ 2 then fatReadDir fuel fs e.firstCluster 128 else pure []

/-- `fat_delete_file`. -/
def fatDeleteFile [BehindBuffer] (fuel : Nat) (fs : FatFs) (filename : Option (List UInt8)) :
    FatM Bool :=
  if !fs.initialized ∨ filename = none then pure false
  else do
    let r ← fatResolveParent fuel fs filename
    if r.parent = 0xFFFFFFFF ∨ r.entry = none then pure false
    else
      match ← dirFindSlot fuel fs r.parent r.name83 with
      | .sameName lba offset =>
        if ← fatDevRead fs lba then
          let e ← bufRead offset.toNat 32 fun b => b.dirent offset.toNat
          let inside ← dirContents fuel fs e
          -- anything but names that start with a dot keeps a directory from being deleted
          if inside.any fun f => f 0 ≠ 0x2E then pure false
          else if ← fatDevRead fs lba then
            bufWrite offset.toNat 32 fun b => b.set offset.toNat 0xE5
            if ← fatDevWrite fs lba then
              freeChainFrom fs e.firstCluster
              pure true
            else pure false
          else pure false
        else pure false
      | _ => pure false

/-- The entry `fat_write_file` and `fat_mkdir` fill in; its times are 0. -/
def newDirent (name83 : Name83) (attributes : UInt8) (cluster size : UInt32) : Dirent := fun j =>
  if h : j.val < 11 then name83 ⟨j.val, h⟩
  else match j.val with
    | 11 => attributes
    | 20 => byte cluster.toNat 2
    | 21 => byte cluster.toNat 3
    | 26 => byte cluster.toNat 0
    | 27 => byte cluster.toNat 1
    | 28 => byte size.toNat 0
    | 29 => byte size.toNat 1
    | 30 => byte size.toNat 2
    | 31 => byte size.toNat 3
    | _ => 0

/-- The chain under construction: its first and last cluster (0 for none) and its length. -/
structure Alloc where
  first : UInt32
  prev : UInt32
  count : UInt32

/-- `if (prev) write_fat_entry(fs, prev, value)`. -/
def linkPrev [BehindBuffer] (fs : FatFs) (prev value : UInt32) : FatM Unit :=
  if prev ≠ 0 then writeFatEntry fs prev value else pure ()

/-- The allocation loop of `fat_write_file`, over the `n` clusters from `c` on. -/
def allocLoop [BehindBuffer] (fs : FatFs) (needed : UInt32) :
    Nat → UInt32 → Alloc → FatM Alloc
  | 0, _, a => pure a
  | n + 1, c, a =>
    if a.count < needed then do
      let v ← readFatEntry fs c
      if v = 0 then
        linkPrev fs a.prev c
        allocLoop fs needed n (c + 1) ⟨if a.first = 0 then c else a.first, c, a.count + 1⟩
      else allocLoop fs needed n (c + 1) a
    else pure a

/-- Fill the buffer with `bytes`, followed by zeros. -/
def fillBuf (fs : FatFs) (bytes : List UInt8) : FatM Unit := do
  clearBuf fs
  bufWrite 0 bytes.length fun b k => if k.val < bytes.length then bytes.getD k.val 0 else b k

/-- The sector loop of the data phase: whether every write succeeded, and the data left. A
sector's bytes are taken from the data before it is written. -/
def writeSectors (fs : FatFs) : Nat → UInt32 → List UInt8 → FatM (Bool × List UInt8)
  | 0, _, data => pure (true, data)
  | n + 1, lba, data =>
    if data = [] then pure (true, data)
    else do
      fillBuf fs (data.take fs.bytesPerSector.toNat)
      if ← fatDevWrite fs lba then
        writeSectors fs n (lba + 1) (data.drop fs.bytesPerSector.toNat)
      else pure (false, data.drop fs.bytesPerSector.toNat)

/-- The cluster loop of the data phase. -/
def writeClusters (fs : FatFs) : Nat → UInt32 → List UInt8 → FatM (Bool × List UInt8)
  | 0, _, _ => Prog.fault .noReturn
  | fuel + 1, c, data =>
    if data ≠ [] ∧ c ≠ 0 then do
      let (ok, data) ← writeSectors fs fs.sectorsPerCluster.toNat (clusterLba fs c) data
      if ok then
        let next ← readFatEntry fs c
        if next ≥ endOfChain then pure (true, data) else writeClusters fs fuel next data
      else pure (false, data)
    else pure (true, data)

/-- Where `fat_write_file` puts the entry, and the first cluster of a file it overwrites. -/
structure Target where
  lba : UInt32
  offset : UInt32
  oldCluster : Option UInt32

/-- The slot phase of `fat_write_file`; `none` when it fails. -/
def writeTarget [BehindBuffer] (fuel : Nat) (fs : FatFs) (r : Resolved) : FatM (Option Target) := do
  match ← dirFindSlot fuel fs r.parent r.name83 with
  | .full =>
    -- the fixed root region cannot grow
    if r.parent = 0 then pure none
    else
      match ← dirExtend fs r.parent with
      | none => pure none
      | some newLba => pure (some ⟨newLba, 0, none⟩)
  | .free lba offset => pure (some ⟨lba, offset, none⟩)
  | .sameName lba offset =>
    if ← fatDevRead fs lba then
      let e ← bufRead offset.toNat 32 fun b => b.dirent offset.toNat
      if e.isDir then pure none else pure (some ⟨lba, offset, some e.firstCluster⟩)
    else pure none

/-- Read the entry's sector, replace the entry and write the sector back. -/
def storeDirent (fs : FatFs) (lba offset : UInt32) (e : Dirent) : FatM Bool := do
  if ← fatDevRead fs lba then
    bufWrite offset.toNat 32 fun b => b.setDirent offset.toNat e
    fatDevWrite fs lba
  else pure false

/-- `fat_write_file_impl`: the result, and the number of bytes taken from the data. -/
def fatWriteFileImpl [BehindBuffer] (fuel : Nat) (fs : FatFs) (filename : Option (List UInt8))
    (data : List UInt8) : FatM (Bool × Nat) :=
  if !fs.initialized ∨ filename = none then pure (false, 0)
  else do
    let r ← fatResolveParent fuel fs filename
    if r.parent = 0xFFFFFFFF then pure (false, 0)
    else
      let maxC ← maxCluster fs
      match ← writeTarget fuel fs r with
      | none => pure (false, 0)
      | some target =>
        let size := UInt32.ofNat data.length
        let clusterBytes := fs.sectorsPerCluster * fs.bytesPerSector
        let needed ← udiv (size + clusterBytes - 1) clusterBytes
        let a ← allocLoop fs needed (maxC.toNat - 2) 2 ⟨0, 0, 0⟩
        if a.count < needed then
          fatFreeChain fs a.first
          pure (false, 0)
        else
          linkPrev fs a.prev chainMark
          freeChainFrom fs (target.oldCluster.getD 0)
          let (ok, rest) ← writeClusters fs (data.length + 1) a.first data
          let taken := data.length - rest.length
          if ok then
            let stored ← storeDirent fs target.lba target.offset
              (newDirent r.name83 0x20 a.first size)
            pure (stored, taken)
          else
            fatFreeChain fs a.first
            pure (false, taken)

/-- `fat_write_file`. -/
def fatWriteFile [BehindBuffer] (fuel : Nat) (fs : FatFs) (filename : Option (List UInt8))
    (data : List UInt8) : FatM Bool := do
  let (ok, _) ← fatWriteFileImpl fuel fs filename data
  pure ok

/-- The names of `.` and `..`. -/
def dotName : Name83 := fun j => if j.val = 0 then 0x2E else 0x20

def dotdotName : Name83 := fun j => if j.val < 2 then 0x2E else 0x20

/-- The slot phase of `fat_mkdir`; `none` when it fails. -/
def mkdirTarget [BehindBuffer] (fuel : Nat) (fs : FatFs) (r : Resolved) :
    FatM (Option (UInt32 × UInt32)) := do
  match ← dirFindSlot fuel fs r.parent r.name83 with
  | .full =>
    if r.parent = 0 then pure none
    else
      match ← dirExtend fs r.parent with
      | none => pure none
      | some newLba => pure (some (newLba, 0))
  | .free lba offset => pure (some (lba, offset))
  | .sameName _ _ => pure none

/-- Fill the first sector of a new directory with its `.` and `..`. -/
def storeDots (fs : FatFs) (lba newCluster parent : UInt32) : FatM Bool := do
  if ← fatDevRead fs lba then
    let parentCluster := if parent = 0 ∧ fs.fsType = .fat32 then endOfChain else parent
    bufWrite 0 64 fun b =>
      (b.setDirent 0 (newDirent dotName 0x10 newCluster 0)).setDirent 32
        (newDirent dotdotName 0x10 parentCluster 0)
    fatDevWrite fs lba
  else pure false

/-- The part of `fat_mkdir` after the new cluster has been cleared. -/
def mkdirFill [BehindBuffer] (fuel : Nat) (fs : FatFs) (r : Resolved) (newCluster : UInt32) :
    FatM Bool := do
  if ← storeDots fs (clusterLba fs newCluster) newCluster r.parent then
    match ← mkdirTarget fuel fs r with
    | none => pure false
    | some (lba, offset) => storeDirent fs lba offset (newDirent r.name83 0x10 newCluster 0)
  else pure false

/-- `fat_mkdir`. -/
def fatMkdir [BehindBuffer] (fuel : Nat) (fs : FatFs) (path : Option (List UInt8)) : FatM Bool :=
  if !fs.initialized ∨ path = none then pure false
  else do
    let r ← fatResolveParent fuel fs path
    if r.parent = 0xFFFFFFFF ∨ r.entry ≠ none then pure false
    else
      let maxC ← maxCluster fs
      match ← findFree fs (maxC.toNat - 2) 2 with
      | none => pure false
      | some newCluster =>
        writeFatEntry fs newCluster chainMark
        zeroSectors fs fs.sectorsPerCluster.toNat (clusterLba fs newCluster)
        if ← mkdirFill fuel fs r newCluster then pure true
        else
          -- every failure after the allocation releases the new cluster
          fatFreeChain fs newCluster
          pure false

end HaoSys.Fs
