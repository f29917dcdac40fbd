import HaoSys.Fs.MetaChange
import HaoSys.Irq.Console

/-!
# The interrupt flag under the FAT driver (`fs/fat.c`)

The routines of `Fs.Fat` that lock, with each `irq_lock` and `irq_unlock` where
the source has it. A loop that is left by `irq_unlock(fl); return` takes what
follows it as `next`. A `Bool` stands for a pointer that is only compared with
`NULL`. Sector reads and writes and the FAT entries are behind `lift`: the block
devices leave the flag alone.

Each of them does what it does without the flag, and gives the flag back.
-/

namespace HaoSys.Irq

open HaoSys.Lib HaoSys.Fs Flagged

abbrev LockM := Flagged FatState Fault

def fatGetType (fs : FatFs) : LockM FatType := do
  let fl ← enter
  let t := fs.fsType
  leave fl
  pure t

/-! ## `fat_read_dir` -/

/-- The entry loop. -/
def readDirEntries (fl : Bool) (maxEntries : UInt32) (next : List Dirent → LockM (List Dirent)) :
    Nat → Nat → List Dirent → LockM (List Dirent)
  | 0, _, acc => next acc
  | n + 1, i, acc =>
    if acc.length < maxEntries.toNat then do
      let e ← lift (bufRead (32 * i) 32 fun b => b.dirent (32 * i))
      if e 0 = 0x00 then
        leave fl
        pure acc
      else if e 0 = 0xE5 then readDirEntries fl maxEntries next n (i + 1) acc
      else readDirEntries fl maxEntries next n (i + 1) (acc ++ [e])
    else next acc

/-- The sector loop. -/
def readDirSectors (fl : Bool) (fs : FatFs) (maxEntries : UInt32)
    (next : List Dirent → LockM (List Dirent)) :
    Nat → UInt32 → List Dirent → LockM (List Dirent)
  | 0, _, acc => next acc
  | n + 1, lba, acc => do
    let ok ← lift (fatDevRead fs lba)
    if ok then
      readDirEntries fl maxEntries (readDirSectors fl fs maxEntries next n (lba + 1))
        (fs.bytesPerSector / 32).toNat 0 acc
    else next acc

/-- The cluster loop. -/
def readDirClusters (fl : Bool) (fs : FatFs) (maxEntries : UInt32) :
    Nat → UInt32 → List Dirent → LockM (List Dirent)
  | 0, _, _ => Prog.fault .noReturn
  | fuel + 1, cluster, acc =>
    if cluster = 1 then do
      leave fl
      pure acc
    else
      let (lba, sectorCount) := dirRegion fs cluster
      readDirSectors fl fs maxEntries (fun acc =>
        if cluster = 0 then do
          leave fl
          pure acc
        else do
          let next ← lift (readFatEntry fs cluster)
          if next ≥ endOfChain then
            leave fl
            pure acc
          else readDirClusters fl fs maxEntries fuel next acc) sectorCount.toNat lba acc

def fatReadDir (fuel : Nat) (fs : FatFs) (dirCluster : UInt32) (entries : Bool)
    (maxEntries : UInt32) : LockM (List Dirent) := do
  let fl ← enter
  if !fs.initialized ∨ !entries ∨ maxEntries = 0 then
    leave fl
    pure []
  else readDirClusters fl fs maxEntries fuel (dirStart fs dirCluster) []

/-! ## Paths -/

def dirFindName (fuel : Nat) (fs : FatFs) (dirCluster : UInt32) (name83 : Name83) :
    LockM (Option Dirent) := do
  let entries ← fatReadDir fuel fs dirCluster true 128
  pure (entries.find? fun e => e.upperName = name83)

/-- The loop of `fat_resolve_parent`. -/
def resolveParentLoop (fuel : Nat) (fs : FatFs) :
    List UInt8 → UInt32 → Option (List UInt8) → LockM Resolved
  | [], _, none => pure .fail
  | [], cur, some seg => do
    let name83 := makeName83 seg
    let entry ← dirFindName fuel fs cur name83
    pure ⟨cur, name83, entry⟩
  | c :: rest, cur, seg =>
    if c = 0x2F then
      match seg with
      | none => resolveParentLoop fuel fs rest cur none
      | some seg => do
        match ← dirFindName fuel fs cur (makeName83 seg) with
        | none => pure .fail
        | some e =>
          if e.isDir then resolveParentLoop fuel fs rest e.firstCluster none else pure .fail
    else resolveParentLoop fuel fs rest cur (some (pushSeg seg c))

def fatResolveParent (fuel : Nat) (fs : FatFs) (path : Option (List UInt8)) : LockM Resolved :=
  match path with
  | none => pure .fail
  | some path => resolveParentLoop fuel fs path 0 none

/-- The loop of `fat_open_dir`. -/
def openDirLoop (fl : Bool) (fuel : Nat) (fs : FatFs) :
    List UInt8 → UInt32 → Option (List UInt8) → LockM UInt32
  | [], cur, none => do
    leave fl
    pure cur
  | [], cur, some seg => do
    match ← dirFindName fuel fs cur (makeName83 seg) with
    | none => do
      leave fl
      pure 0xFFFFFFFF
    | some e =>
      if e.isDir then
        leave fl
        pure e.firstCluster
      else
        leave fl
        pure 0xFFFFFFFF
  | c :: rest, cur, seg =>
    if c = 0x2F then
      match seg with
      | none => openDirLoop fl fuel fs rest cur none
      | some seg => do
        match ← dirFindName fuel fs cur (makeName83 seg) with
        | none => do
          leave fl
          pure 0xFFFFFFFF
        | some e =>
          if e.isDir then openDirLoop fl fuel fs rest e.firstCluster none
          else
            leave fl
            pure 0xFFFFFFFF
    else openDirLoop fl fuel fs rest cur (some (pushSeg seg c))

def fatOpenDir (fuel : Nat) (fs : FatFs) (path : Option (List UInt8)) : LockM UInt32 := do
  let fl ← enter
  if path.getD [] = [] then
    leave fl
    pure 0
  else openDirLoop fl fuel fs (path.getD []) 0 none

def fatFindFile (fuel : Nat) (fs : FatFs) (filename : Option (List UInt8)) (outEntry : Bool) :
    LockM (Option Dirent) := do
  let fl ← enter
  if !fs.initialized ∨ filename = none ∨ !outEntry then
    leave fl
    pure none
  else
    let r ← fatResolveParent fuel fs filename
    if r.parent = 0xFFFFFFFF ∨ r.entry = none then
      leave fl
      pure none
    else
      leave fl
      pure r.entry

/-! ## Unix metadata -/

def fatGetFileMeta (fuel : Nat) (fs : Option FatFs) (filename : Option (List UInt8)) :
    LockM (Option UnixMeta) := do
  let fl ← enter
  match fs with
  | none => do
    leave fl
    pure none
  | some fs =>
    if !fs.initialized ∨ filename = none then
      leave fl
      pure none
    else
      match ← fatFindFile fuel fs filename true with
      | none => do
        leave fl
        pure none
      | some e => do
        leave fl
        pure (some e.unixMeta)

def fatSetFileMeta (fuel : Nat) (fs : Option FatFs) (filename : Option (List UInt8))
    (m : UnixMeta) : LockM Bool := do
  let fl ← enter
  match fs with
  | none => do
    leave fl
    pure false
  | some fs =>
    if !fs.initialized ∨ filename = none then
      leave fl
      pure false
    else
      let r ← fatResolveParent fuel fs filename
      if r.parent = 0xFFFFFFFF ∨ r.entry = none then
        leave fl
        pure false
      else
        match ← lift (dirFindSlot fuel fs r.parent r.name83) with
        | .sameName lba offset => do
          let read ← lift (fatDevRead fs lba)
          if read then
            lift (bufWrite offset.toNat 32 fun b =>
              b.setDirent offset.toNat ((b.dirent offset.toNat).setUnixMeta m))
            let ok ← lift (fatDevWrite fs lba)
            leave fl
            pure ok
          else
            leave fl
            pure false
        | _ => do
          leave fl
          pure false

/-! ## Reading files -/

/-- The sector loop of `fat_load_file`. -/
def loadSectors (fl : Bool) (fs : FatFs) (next : List UInt8 → UInt32 → LockM (List UInt8)) :
    Nat → UInt32 → List UInt8 → UInt32 → LockM (List UInt8)
  | 0, _, acc, remaining => next acc remaining
  | n + 1, lba, acc, remaining =>
    if remaining > 0 then do
      let ok ← lift (fatDevRead fs lba)
      if ok then
        let copy := if remaining < fs.bytesPerSector then remaining else fs.bytesPerSector
        let bytes ← lift (bufRead 0 copy.toNat fun b => (List.range copy.toNat).map b.get)
        loadSectors fl fs next n (lba + 1) (acc ++ bytes) (remaining - copy)
      else
        leave fl
        pure acc
    else next acc remaining

/-- The cluster loop of `fat_load_file`. -/
def loadClusters (fl : Bool) (fs : FatFs) :
    Nat → UInt32 → List UInt8 → UInt32 → LockM (List UInt8)
  | 0, _, _, _ => Prog.fault .noReturn
  | fuel + 1, cluster, acc, remaining =>
    if remaining > 0 ∧ cluster < endOfChain then
      loadSectors fl fs (fun acc remaining => do
        let next ← lift (readFatEntry fs cluster)
        if next ≥ endOfChain then
          leave fl
          pure acc
        else loadClusters fl fs fuel next acc remaining)
        fs.sectorsPerCluster.toNat (clusterLba fs cluster) acc remaining
    else do
      leave fl
      pure acc

def fatLoadFile (fuel : Nat) (fs : FatFs) (entry : Option Dirent) (buffer : Bool)
    (maxSize : UInt32) : LockM (List UInt8) := do
  let fl ← enter
  match entry with
  | none => do
    leave fl
    pure []
  | some entry =>
    if !fs.initialized ∨ !buffer ∨ maxSize = 0 then
      leave fl
      pure []
    else
      let fileSize := if entry.fileSize > maxSize then maxSize else entry.fileSize
      if entry.firstCluster < 2 then
        leave fl
        pure []
      else loadClusters fl fs fuel entry.firstCluster [] fileSize

/-- The sector loop of `fat_load_file_off`. -/
def loadOffSectors (fl : Bool) (fs : FatFs)
    (next : List UInt8 → UInt32 → UInt32 → LockM (List UInt8)) :
    Nat → UInt32 → List UInt8 → UInt32 → UInt32 → LockM (List UInt8)
  | 0, _, acc, remaining, skip => next acc remaining skip
  | n + 1, lba, acc, remaining, skip =>
    if remaining > 0 then do
      let ok ← lift (fatDevRead fs lba)
      if ok then
        if skip > 0 ∧ skip ≥ fs.bytesPerSector then
          loadOffSectors fl fs next n (lba + 1) acc remaining (skip - fs.bytesPerSector)
        else
          let avail := fs.bytesPerSector - skip
          let copy := if remaining < avail then remaining else avail
          let bytes ← lift (bufRead skip.toNat copy.toNat fun b =>
            (List.range copy.toNat).map fun k => b.get (skip.toNat + k))
          loadOffSectors fl fs next n (lba + 1) (acc ++ bytes) (remaining - copy) 0
      else
        leave fl
        pure acc
    else next acc remaining skip

/-- The cluster loop of `fat_load_file_off`. -/
def loadOffClusters (fl : Bool) (fs : FatFs) :
    Nat → UInt32 → List UInt8 → UInt32 → UInt32 → LockM (List UInt8)
  | 0, _, _, _, _ => Prog.fault .noReturn
  | fuel + 1, cluster, acc, remaining, skip =>
    if remaining > 0 ∧ cluster < endOfChain then
      loadOffSectors fl fs (fun acc remaining skip => do
        let next ← lift (readFatEntry fs cluster)
        if next ≥ endOfChain then
          leave fl
          pure acc
        else loadOffClusters fl fs fuel next acc remaining skip)
        fs.sectorsPerCluster.toNat (clusterLba fs cluster) acc remaining skip
    else do
      leave fl
      pure acc

def fatLoadFileOff (fuel : Nat) (fs : FatFs) (entry : Option Dirent) (offset : UInt32)
    (buffer : Bool) (maxSize : UInt32) : LockM (List UInt8) := do
  let fl ← enter
  match entry with
  | none => do
    leave fl
    pure []
  | some entry =>
    if !fs.initialized ∨ !buffer ∨ maxSize = 0 then
      leave fl
      pure []
    else if offset ≥ entry.fileSize then
      leave fl
      pure []
    else
      let maxSize := if entry.fileSize - offset < maxSize then entry.fileSize - offset else maxSize
      if entry.firstCluster < 2 then
        leave fl
        pure []
      else loadOffClusters fl fs fuel entry.firstCluster [] maxSize offset

/-! ## Writing and creating -/

/-- `fat_write_file_impl` behind the path: nothing there locks. -/
def writeResolved (fuel : Nat) (fs : FatFs) (data : List UInt8) (r : Resolved) :
    FatM (Bool × Nat) :=
  if r.parent = 0xFFFFFFFF then pure (false, 0)
  else do
    let maxC ← maxCluster fs
    match ← writeTarget fuel fs r with
    | none => pure (false, 0)
    | some target =>
      let size := UInt32.ofNat data.length
      let clusterBytes := fs.sectorsPerCluster * fs.bytesPerSector
      let needed ← udiv (size + clusterBytes - 1) clusterBytes
      let a ← allocLoop fs needed (maxC.toNat - 2) 2 ⟨0, 0, 0⟩
      if a.count < needed then
        fatFreeChain fs a.first
        pure (false, 0)
      else
        linkPrev fs a.prev chainMark
        freeChainFrom fs (target.oldCluster.getD 0)
        let (ok, rest) ← writeClusters fs (data.length + 1) a.first data
        let taken := data.length - rest.length
        if ok then
          let stored ← storeDirent fs target.lba target.offset (newDirent r.name83 0x20 a.first size)
          pure (stored, taken)
        else
          fatFreeChain fs a.first
          pure (false, taken)

def fatWriteFileImpl (fuel : Nat) (fs : FatFs) (filename : Option (List UInt8))
    (data : Option (List UInt8)) : LockM Bool :=
  match data with
  | none => pure false
  | some data =>
    if !fs.initialized ∨ filename = none then pure false
    else do
      let r ← fatResolveParent fuel fs filename
      let (ok, _) ← lift (writeResolved fuel fs data r)
      pure ok

def fatWriteFile (fuel : Nat) (fs : FatFs) (filename : Option (List UInt8))
    (data : Option (List UInt8)) : LockM Bool := do
  let fl ← enter
  let r ← fatWriteFileImpl fuel fs filename data
  leave fl
  pure r

/-- `fat_mkdir_impl` behind the path: nothing there locks. -/
def mkdirResolved (fuel : Nat) (fs : FatFs) (r : Resolved) : FatM Bool :=
  if r.parent = 0xFFFFFFFF ∨ r.entry ≠ none then pure false
  else do
    let maxC ← maxCluster fs
    match ← findFree fs (maxC.toNat - 2) 2 with
    | none => pure false
    | some newCluster =>
      writeFatEntry fs newCluster chainMark
      zeroSectors fs fs.sectorsPerCluster.toNat (clusterLba fs newCluster)
      if ← mkdirFill fuel fs r newCluster then pure true
      else
        fatFreeChain fs newCluster
        pure false

def fatMkdirImpl (fuel : Nat) (fs : FatFs) (path : Option (List UInt8)) : LockM Bool :=
  if !fs.initialized ∨ path = none then pure false
  else do
    let r ← fatResolveParent fuel fs path
    lift (mkdirResolved fuel fs r)

def fatMkdir (fuel : Nat) (fs : FatFs) (path : Option (List UInt8)) : LockM Bool := do
  let fl ← enter
  let r ← fatMkdirImpl fuel fs path
  leave fl
  pure r

/-! ## The routines are those without the flag -/

section ReadDir

variable {fl : Bool} {fs : FatFs} {maxEntries : UInt32} {next : List Dirent → LockM (List Dirent)}
  {after : List Dirent → FatM (List Dirent)}

theorem closes_readDirEntries (h : ∀ acc, Closes fl (next acc) (after acc)) (n i : Nat)
    (acc : List Dirent) :
    Closes fl (readDirEntries fl maxEntries next n i acc)
      (Fs.readDirEntries maxEntries n i acc >>= fun r => if r.1 then pure r.2 else after r.2) := by
  induction n generalizing i acc with
  | zero => exact h acc
  | succ n ih =>
    unfold readDirEntries Fs.readDirEntries
    by_cases hlen : acc.length < maxEntries.toNat
    · rw [if_pos hlen, if_pos hlen, bind_assoc]
      refine .lift_bind fun e => ?_
      by_cases hend : e 0 = 0x00
      · rw [if_pos hend, if_pos hend]
        exact .leave_bind acc
      rw [if_neg hend, if_neg hend]
      split
      · exact ih (i + 1) acc
      · exact ih (i + 1) (acc ++ [e])
    · rw [if_neg hlen, if_neg hlen]
      exact h acc

theorem closes_readDirSectors (h : ∀ acc, Closes fl (next acc) (after acc)) (n : Nat)
    (lba : UInt32) (acc : List Dirent) :
    Closes fl (readDirSectors fl fs maxEntries next n lba acc)
      (Fs.readDirSectors fs maxEntries n lba acc >>=
        fun r => if r.1 then pure r.2 else after r.2) := by
  induction n generalizing lba acc with
  | zero => exact h acc
  | succ n ih =>
    unfold readDirSectors Fs.readDirSectors
    rw [bind_assoc]
    refine .lift_bind fun ok => ?_
    cases ok with
    | false => exact h acc
    | true =>
      rw [if_pos rfl, if_pos rfl, bind_assoc]
      refine (closes_readDirEntries (fun acc => ih (lba + 1) acc) _ 0 acc).congr ?_
      refine bind_congr fun r => ?_
      obtain ⟨stop, acc⟩ := r
      cases stop <;> rfl

theorem closes_readDirClusters (fuel : Nat) (cluster : UInt32) (acc : List Dirent) :
    Closes fl (readDirClusters fl fs maxEntries fuel cluster acc)
      (Fs.readDirClusters fs maxEntries fuel cluster acc) := by
  induction fuel generalizing cluster acc with
  | zero => exact .fault Fault.noReturn
  | succ fuel ih =>
    unfold readDirClusters Fs.readDirClusters
    refine .ite (fun _ => .leave_bind acc) fun _ => ?_
    -- what follows the sectors of this cluster
    have hafter : ∀ acc, Closes fl
        (if cluster = 0 then do
          leave fl
          pure acc
        else do
          let next ← lift (readFatEntry fs cluster)
          if next ≥ endOfChain then
            leave fl
            pure acc
          else readDirClusters fl fs maxEntries fuel next acc)
        (if cluster = 0 then pure acc
        else do
          let next ← readFatEntry fs cluster
          if next ≥ endOfChain then pure acc
          else Fs.readDirClusters fs maxEntries fuel next acc) := fun acc =>
      .ite (fun _ => .leave_bind acc) fun _ => .lift_bind fun next =>
        .ite (fun _ => .leave_bind acc) fun _ => ih next acc
    refine (closes_readDirSectors hafter _ _ acc).congr (bind_congr fun r => ?_)
    obtain ⟨stop, acc⟩ := r
    cases stop <;> simp

theorem fatReadDir_eq (fuel : Nat) (fs : FatFs) (dirCluster : UInt32) (entries : Bool)
    (maxEntries : UInt32) :
    fatReadDir fuel fs dirCluster entries maxEntries =
      lift (if entries then Fs.fatReadDir fuel fs dirCluster maxEntries else pure []) := by
  refine enter_bind fun fl => ?_
  cases entries with
  | false => simpa using Closes.leave_bind []
  | true =>
    simp only [Bool.not_true, Bool.false_eq_true, false_or, if_true, Fs.fatReadDir]
    exact .ite (fun _ => .leave_bind []) fun _ => closes_readDirClusters fuel _ []

end ReadDir

theorem dirFindName_eq (fuel : Nat) (fs : FatFs) (dirCluster : UInt32) (name83 : Name83) :
    dirFindName fuel fs dirCluster name83 = lift (Fs.dirFindName fuel fs dirCluster name83) := by
  unfold dirFindName Fs.dirFindName
  rw [fatReadDir_eq, if_pos rfl, lift_bind]
  rfl

theorem resolveParentLoop_eq (fuel : Nat) (fs : FatFs) (path : List UInt8) (cur : UInt32)
    (seg : Option (List UInt8)) :
    resolveParentLoop fuel fs path cur seg = lift (Fs.resolveParentLoop fuel fs path cur seg) := by
  induction path generalizing cur seg with
  | nil =>
    cases seg with
    | none => rfl
    | some seg =>
      unfold resolveParentLoop Fs.resolveParentLoop
      dsimp only
      rw [dirFindName_eq, lift_bind]
      rfl
  | cons c rest ih =>
    unfold resolveParentLoop Fs.resolveParentLoop
    rw [lift_ite]
    refine if_congr Iff.rfl ?_ (ih ..)
    cases seg with
    | none => exact ih ..
    | some seg =>
      dsimp only
      rw [dirFindName_eq, lift_bind]
      refine bind_congr fun entry => ?_
      cases entry with
      | none => rfl
      | some e =>
        rw [lift_ite]
        exact if_congr Iff.rfl (ih ..) rfl

theorem fatResolveParent_eq (fuel : Nat) (fs : FatFs) (path : Option (List UInt8)) :
    fatResolveParent fuel fs path = lift (Fs.fatResolveParent fuel fs path) := by
  cases path with
  | none => rfl
  | some path => exact resolveParentLoop_eq ..

theorem closes_openDirLoop (fl : Bool) (fuel : Nat) (fs : FatFs) (path : List UInt8) (cur : UInt32)
    (seg : Option (List UInt8)) :
    Closes fl (openDirLoop fl fuel fs path cur seg) (Fs.openDirLoop fuel fs path cur seg) := by
  induction path generalizing cur seg with
  | nil =>
    cases seg with
    | none => exact .leave_bind cur
    | some seg =>
      unfold openDirLoop Fs.openDirLoop
      rw [dirFindName_eq]
      refine .lift_bind fun entry => ?_
      cases entry with
      | none => exact .leave_bind _
      | some e => exact .ite (fun _ => .leave_bind _) fun _ => .leave_bind _
  | cons c rest ih =>
    unfold openDirLoop Fs.openDirLoop
    refine .ite (fun _ => ?_) fun _ => ih cur _
    cases seg with
    | none => exact ih cur none
    | some seg =>
      dsimp only
      rw [dirFindName_eq]
      refine .lift_bind fun entry => ?_
      cases entry with
      | none => exact .leave_bind _
      | some e => exact .ite (fun _ => ih _ none) fun _ => .leave_bind _

theorem fatOpenDir_eq (fuel : Nat) (fs : FatFs) (path : Option (List UInt8)) :
    fatOpenDir fuel fs path = lift (Fs.fatOpenDir fuel fs path) := by
  refine enter_bind fun fl => ?_
  by_cases h : path.getD [] = []
  · rw [if_pos h]
    unfold Fs.fatOpenDir
    rw [h]
    exact .leave_bind 0
  · rw [if_neg h]
    exact closes_openDirLoop fl fuel fs _ 0 none

theorem fatFindFile_eq (fuel : Nat) (fs : FatFs) (filename : Option (List UInt8))
    (outEntry : Bool) :
    fatFindFile fuel fs filename outEntry =
      lift (if filename = none ∨ !outEntry then pure none else Fs.fatFindFile fuel fs filename) := by
  refine enter_bind fun fl => ?_
  by_cases hargs : filename = none ∨ !outEntry
  · rw [if_pos (.inr hargs), if_pos hargs]
    exact .leave_bind none
  rw [if_neg hargs]
  unfold Fs.fatFindFile
  by_cases hinit : (!fs.initialized) = true
  · rw [if_pos (.inl hinit), if_pos hinit]
    exact .leave_bind none
  rw [if_neg (not_or_intro hinit hargs), if_neg hinit, fatResolveParent_eq]
  refine .lift_bind fun r => ?_
  by_cases hparent : r.parent = 0xFFFFFFFF
  · rw [if_pos (.inl hparent), if_pos hparent]
    exact .leave_bind none
  rw [if_neg hparent]
  split
  · next h =>
    rw [h.resolve_left hparent]
    exact .leave_bind none
  · exact .leave_bind r.entry

theorem fatGetFileMeta_eq (fuel : Nat) (fs : Option FatFs) (filename : Option (List UInt8)) :
    fatGetFileMeta fuel fs filename =
      lift (fs.elim (pure none) fun fs => Fs.fatGetFileMeta fuel fs filename) := by
  refine enter_bind fun fl => ?_
  cases fs with
  | none => exact .leave_bind none
  | some fs =>
    refine .ite (fun _ => .leave_bind none) fun h => ?_
    rw [fatFindFile_eq, if_neg (by simpa using fun hn => h (.inr hn))]
    refine .lift_bind fun entry => ?_
    cases entry with
    | none => exact .leave_bind none
    | some e => exact .leave_bind (some e.unixMeta)

theorem fatSetFileMeta_eq (fuel : Nat) (fs : Option FatFs) (filename : Option (List UInt8))
    (m : UnixMeta) :
    fatSetFileMeta fuel fs filename m =
      lift (fs.elim (pure false) fun fs => Fs.fatSetFileMeta fuel fs filename m) := by
  refine enter_bind fun fl => ?_
  cases fs with
  | none => exact .leave_bind false
  | some fs =>
    refine .ite (fun _ => .leave_bind false) fun _ => ?_
    rw [fatResolveParent_eq]
    refine .lift_bind fun r => .ite (fun _ => .leave_bind false) fun _ => .lift_bind fun slot => ?_
    cases slot with
    | full => exact .leave_bind false
    | free => exact .leave_bind false
    | sameName lba offset =>
      refine .lift_bind fun read => .ite (fun _ => .lift_bind fun _ => ?_) fun _ => .leave_bind false
      -- the result of the last write is returned behind the unlock
      exact (Closes.lift_bind fun ok => .leave_bind ok).congr (bind_pure _)

section Load

variable {fl : Bool} {fs : FatFs}

theorem closes_loadSectors {next : List UInt8 → UInt32 → LockM (List UInt8)}
    {after : List UInt8 → UInt32 → FatM (List UInt8)}
    (h : ∀ acc remaining, Closes fl (next acc remaining) (after acc remaining)) (n : Nat)
    (lba : UInt32) (acc : List UInt8) (remaining : UInt32) :
    Closes fl (loadSectors fl fs next n lba acc remaining)
      (Fs.loadSectors fs n lba acc remaining >>=
        fun r => if r.1 then after r.2.1 r.2.2 else pure r.2.1) := by
  induction n generalizing lba acc remaining with
  | zero => exact h acc remaining
  | succ n ih =>
    unfold loadSectors Fs.loadSectors
    by_cases hrem : remaining > 0
    · rw [if_pos hrem, if_pos hrem, bind_assoc]
      refine .lift_bind fun ok => ?_
      cases ok with
      | false => exact .leave_bind acc
      | true =>
        rw [if_pos rfl, if_pos rfl, bind_assoc]
        exact .lift_bind fun bytes => ih _ _ _
    · rw [if_neg hrem, if_neg hrem]
      exact h acc remaining

theorem closes_loadClusters (fuel : Nat) (cluster : UInt32) (acc : List UInt8)
    (remaining : UInt32) :
    Closes fl (loadClusters fl fs fuel cluster acc remaining)
      (Fs.loadClusters fs fuel cluster acc remaining) := by
  induction fuel generalizing cluster acc remaining with
  | zero => exact .fault Fault.noReturn
  | succ fuel ih =>
    unfold loadClusters Fs.loadClusters
    refine .ite (fun _ => ?_) fun _ => .leave_bind acc
    have hafter : ∀ acc remaining, Closes fl
        (do
          let next ← lift (readFatEntry fs cluster)
          if next ≥ endOfChain then
            leave fl
            pure acc
          else loadClusters fl fs fuel next acc remaining)
        (do
          let next ← readFatEntry fs cluster
          if next ≥ endOfChain then pure acc else Fs.loadClusters fs fuel next acc remaining) :=
      fun acc remaining => .lift_bind fun next =>
        .ite (fun _ => .leave_bind acc) fun _ => ih next acc remaining
    exact closes_loadSectors hafter _ _ acc remaining

theorem fatLoadFile_eq (fuel : Nat) (fs : FatFs) (entry : Option Dirent) (buffer : Bool)
    (maxSize : UInt32) :
    fatLoadFile fuel fs entry buffer maxSize =
      lift (if buffer then entry.elim (pure []) fun e => Fs.fatLoadFile fuel fs e maxSize
        else pure []) := by
  refine enter_bind fun fl => ?_
  cases entry with
  | none => exact (Closes.leave_bind []).congr (by cases buffer <;> rfl)
  | some e =>
    cases buffer with
    | false => simpa using Closes.leave_bind []
    | true =>
      simp only [Bool.not_true, Bool.false_eq_true, false_or, if_true, Option.elim, Fs.fatLoadFile]
      exact .ite (fun _ => .leave_bind []) fun _ => .ite (fun _ => .leave_bind []) fun _ =>
        closes_loadClusters fuel _ [] _

theorem closes_loadOffSectors {next : List UInt8 → UInt32 → UInt32 → LockM (List UInt8)}
    {after : List UInt8 → UInt32 → UInt32 → FatM (List UInt8)}
    (h : ∀ acc remaining skip, Closes fl (next acc remaining skip) (after acc remaining skip))
    (n : Nat) (lba : UInt32) (acc : List UInt8) (remaining skip : UInt32) :
    Closes fl (loadOffSectors fl fs next n lba acc remaining skip)
      (Fs.loadOffSectors fs n lba acc remaining skip >>=
        fun r => if r.1 then after r.2.1 r.2.2.1 r.2.2.2 else pure r.2.1) := by
  induction n generalizing lba acc remaining skip with
  | zero => exact h acc remaining skip
  | succ n ih =>
    unfold loadOffSectors Fs.loadOffSectors
    by_cases hrem : remaining > 0
    · rw [if_pos hrem, if_pos hrem, bind_assoc]
      refine .lift_bind fun ok => ?_
      cases ok with
      | false => exact .leave_bind acc
      | true =>
        rw [if_pos rfl, if_pos rfl]
        by_cases hskip : skip > 0 ∧ skip ≥ fs.bytesPerSector
        · rw [if_pos hskip, if_pos hskip]
          exact ih _ _ _ _
        · rw [if_neg hskip, if_neg hskip]
          dsimp only
          rw [bind_assoc]
          exact .lift_bind fun bytes => ih _ _ _ _
    · rw [if_neg hrem, if_neg hrem]
      exact h acc remaining skip

theorem closes_loadOffClusters (fuel : Nat) (cluster : UInt32) (acc : List UInt8)
    (remaining skip : UInt32) :
    Closes fl (loadOffClusters fl fs fuel cluster acc remaining skip)
      (Fs.loadOffClusters fs fuel cluster acc remaining skip) := by
  induction fuel generalizing cluster acc remaining skip with
  | zero => exact .fault Fault.noReturn
  | succ fuel ih =>
    unfold loadOffClusters Fs.loadOffClusters
    refine .ite (fun _ => ?_) fun _ => .leave_bind acc
    have hafter : ∀ acc remaining skip, Closes fl
        (do
          let next ← lift (readFatEntry fs cluster)
          if next ≥ endOfChain then
            leave fl
            pure acc
          else loadOffClusters fl fs fuel next acc remaining skip)
        (do
          let next ← readFatEntry fs cluster
          if next ≥ endOfChain then pure acc
          else Fs.loadOffClusters fs fuel next acc remaining skip) :=
      fun acc remaining skip => .lift_bind fun next =>
        .ite (fun _ => .leave_bind acc) fun _ => ih next acc remaining skip
    exact closes_loadOffSectors hafter _ _ acc remaining skip

theorem fatLoadFileOff_eq (fuel : Nat) (fs : FatFs) (entry : Option Dirent) (offset : UInt32)
    (buffer : Bool) (maxSize : UInt32) :
    fatLoadFileOff fuel fs entry offset buffer maxSize =
      lift (if buffer then
        entry.elim (pure []) fun e => Fs.fatLoadFileOff fuel fs e offset maxSize
        else pure []) := by
  refine enter_bind fun fl => ?_
  cases entry with
  | none => exact (Closes.leave_bind []).congr (by cases buffer <;> rfl)
  | some e =>
    cases buffer with
    | false => simpa using Closes.leave_bind []
    | true =>
      simp only [Bool.not_true, Bool.false_eq_true, false_or, if_true, Option.elim,
        Fs.fatLoadFileOff]
      by_cases hargs : (!fs.initialized) = true ∨ maxSize = 0
      · rw [if_pos hargs, if_pos (hargs.imp_right .inl)]
        exact .leave_bind []
      rw [if_neg hargs]
      by_cases hoff : offset ≥ e.fileSize
      · rw [if_pos hoff, if_pos (.inr (.inr hoff))]
        exact .leave_bind []
      have hgo : ¬ ((!fs.initialized) = true ∨ maxSize = 0 ∨ offset ≥ e.fileSize) := by tauto
      rw [if_neg hoff, if_neg hgo]
      exact .ite (fun _ => .leave_bind []) fun _ => closes_loadOffClusters fuel _ [] _ _

end Load

theorem fatWriteFileImpl_eq (fuel : Nat) (fs : FatFs) (filename data : Option (List UInt8)) :
    fatWriteFileImpl fuel fs filename data =
      lift (data.elim (pure false) fun data => Fs.fatWriteFile fuel fs filename data) := by
  cases data with
  | none => rfl
  | some data =>
    -- the driver without a flag, cut behind the path
    have hcut : Fs.fatWriteFileImpl fuel fs filename data =
        if !fs.initialized ∨ filename = none then pure (false, 0)
        else Fs.fatResolveParent fuel fs filename >>= writeResolved fuel fs data := rfl
    unfold fatWriteFileImpl Option.elim Fs.fatWriteFile
    dsimp only
    rw [hcut, fatResolveParent_eq]
    split
    · rfl
    · rw [bind_assoc, lift_bind]
      refine bind_congr fun r => ?_
      rw [lift_bind]
      rfl

theorem fatMkdirImpl_eq (fuel : Nat) (fs : FatFs) (path : Option (List UInt8)) :
    fatMkdirImpl fuel fs path = lift (Fs.fatMkdir fuel fs path) := by
  have hcut : Fs.fatMkdir fuel fs path =
      if !fs.initialized ∨ path = none then pure false
      else Fs.fatResolveParent fuel fs path >>= mkdirResolved fuel fs := rfl
  unfold fatMkdirImpl
  rw [hcut, fatResolveParent_eq, lift_ite, lift_bind]
  rfl

theorem fatWriteFile_eq (fuel : Nat) (fs : FatFs) (filename data : Option (List UInt8)) :
    fatWriteFile fuel fs filename data =
      lift (data.elim (pure false) fun data => Fs.fatWriteFile fuel fs filename data) := by
  unfold fatWriteFile
  rw [fatWriteFileImpl_eq]
  exact enter_lift_leave _

theorem fatMkdir_eq (fuel : Nat) (fs : FatFs) (path : Option (List UInt8)) :
    fatMkdir fuel fs path = lift (Fs.fatMkdir fuel fs path) := by
  unfold fatMkdir
  rw [fatMkdirImpl_eq]
  exact enter_lift_leave _

/-! ## Calls -/

/-- A call of a routine that locks, with its arguments. -/
inductive FatCall where
  | getType (fs : FatFs)
  | readDir (fs : FatFs) (dirCluster : UInt32) (entries : Bool) (maxEntries : UInt32)
  | openDir (fs : FatFs) (path : Option (List UInt8))
  | findFile (fs : FatFs) (filename : Option (List UInt8)) (outEntry : Bool)
  | getFileMeta (fs : Option FatFs) (filename : Option (List UInt8))
  | setFileMeta (fs : Option FatFs) (filename : Option (List UInt8)) (m : UnixMeta)
  | loadFile (fs : FatFs) (entry : Option Dirent) (buffer : Bool) (maxSize : UInt32)
  | loadFileOff (fs : FatFs) (entry : Option Dirent) (offset : UInt32) (buffer : Bool)
    (maxSize : UInt32)
  | writeFile (fs : FatFs) (filename data : Option (List UInt8))
  | mkdir (fs : FatFs) (path : Option (List UInt8))

/-- What a call returns. -/
abbrev FatCall.Result : FatCall → Type
  | .getType .. => FatType
  | .readDir .. => List Dirent
  | .openDir .. => UInt32
  | .findFile .. => Option Dirent
  | .getFileMeta .. => Option UnixMeta
  | .setFileMeta .. => Bool
  | .loadFile .. => List UInt8
  | .loadFileOff .. => List UInt8
  | .writeFile .. => Bool
  | .mkdir .. => Bool

def FatCall.run (fuel : Nat) : (call : FatCall) → LockM call.Result
  | .getType fs => fatGetType fs
  | .readDir fs dirCluster entries maxEntries => fatReadDir fuel fs dirCluster entries maxEntries
  | .openDir fs path => fatOpenDir fuel fs path
  | .findFile fs filename outEntry => fatFindFile fuel fs filename outEntry
  | .getFileMeta fs filename => fatGetFileMeta fuel fs filename
  | .setFileMeta fs filename m => fatSetFileMeta fuel fs filename m
  | .loadFile fs entry buffer maxSize => fatLoadFile fuel fs entry buffer maxSize
  | .loadFileOff fs entry offset buffer maxSize =>
    fatLoadFileOff fuel fs entry offset buffer maxSize
  | .writeFile fs filename data => fatWriteFile fuel fs filename data
  | .mkdir fs path => fatMkdir fuel fs path

/-- Every call is one of the driver without a flag. -/
theorem FatCall.run_eq_lift (fuel : Nat) (call : FatCall) : ∃ x, call.run fuel = lift x := by
  cases call with
  | getType fs => exact ⟨pure fs.fsType, rfl⟩
  | readDir => exact ⟨_, fatReadDir_eq ..⟩
  | openDir => exact ⟨_, fatOpenDir_eq ..⟩
  | findFile => exact ⟨_, fatFindFile_eq ..⟩
  | getFileMeta => exact ⟨_, fatGetFileMeta_eq ..⟩
  | setFileMeta => exact ⟨_, fatSetFileMeta_eq ..⟩
  | loadFile => exact ⟨_, fatLoadFile_eq ..⟩
  | loadFileOff => exact ⟨_, fatLoadFileOff_eq ..⟩
  | writeFile => exact ⟨_, fatWriteFile_eq ..⟩
  | mkdir => exact ⟨_, fatMkdir_eq ..⟩

theorem FatCall.restores (fuel : Nat) (call : FatCall) (s : FatState) (fl : Bool) :
    Restores (call.run fuel) s fl := by
  obtain ⟨x, hx⟩ := call.run_eq_lift fuel
  rw [hx]
  exact restores_lift x s fl

/-- Every routine of the screen and of the file system gives the interrupt flag back as it was at
entry, but for two: out of a corner, with interrupts on, the cursor routines leave it cleared. -/
theorem interrupt_flag_restored_iff (screen : ConsoleCall) (console : Driver.Console) (fuel : Nat)
    (call : FatCall) (s : FatState) (fl : Bool) :
    (Restores screen.run console fl ↔ (fl = true → cornered console.vga screen = false)) ∧
      Restores (call.run fuel) s fl :=
  ⟨ConsoleCall.restores_iff screen console fl, call.restores fuel s fl⟩

/-- After boot, Left is pressed: interrupts are off from then on. -/
theorem move_left_masks_interrupts :
    ¬ Restores (ConsoleCall.text .moveLeft).run (Driver.Console.boot fun _ => 0) true := by
  rw [ConsoleCall.restores_iff]
  exact fun h => Bool.noConfusion (h rfl)

end HaoSys.Irq
