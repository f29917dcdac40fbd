import HaoSys.Fs.Change
import HaoSys.Fs.Create

/-!
# Reading behind the buffer

For a FAT12 entry that crosses two sectors `write_fat_entry` reads
`sector_buffer[512]`. `fat_free_chain` frees whatever numbers it finds, also
those that no cluster has, so on some device the deletion of a file or a failed
`fat_mkdir` comes to the entry of 341, which crosses. Only a FAT12 volume with
neither a root directory nor a cluster is spared: there nothing is ever found
or allocated.
-/

namespace HaoSys.Fs

open HaoSys.Lib Prog DirSlot

namespace FatFs

variable {fs : FatFs} {d : Disk} {s : FatState} {S : UInt32 → Sector} {c : UInt32} {n : Nat}

/-! ## The entry of 341 -/

theorem fatOffset_341 (h12 : fs.fsType = .fat12) : fatOffset fs 341 = 511 := by
  unfold fatOffset
  rw [h12]
  decide

/-- As an index of the array, the read is a fault. -/
theorem writeFatEntry_341 (h : fs.Sized) (h12 : fs.fsType = .fat12)
    (hr : ∀ a, s.disk.readable a = true) (v : UInt32) :
    @writeFatEntry BehindBuffer.checked fs 341 v s = .error .outOfBounds := by
  obtain ⟨off, sec, hplace, hoff, -⟩ := fatPlace_at h (fatOffset fs 341) s
  rw [fatOffset_341 h12] at hplace hoff
  have h511 : off.toNat = 511 := hoff
  have hout : ¬ off + 1 < fs.bytesPerSector := by
    rw [UInt32.lt_iff_toNat_lt, UInt32.toNat_add, h.toNat, UInt32.toNat_one, h511]
    decide
  unfold writeFatEntry
  simp only [h12]
  rw [fatOffset_341 h12, bind_of_ok hplace]
  simp only
  rw [if_neg hout, bind_of_ok (fatDevRead_of_readable (hr _))]
  simp only [if_true]
  rw [bind_of_ok (bufRead_run (by omega) _ _)]
  rfl

/-- A chain that is freed up to there. -/
theorem freeChainLoop_341 (h : fs.Sized) (h12 : fs.fsType = .fat12)
    (hr : ∀ a, s.disk.readable a = true) (n : Nat) :
    @freeChainLoop BehindBuffer.checked fs (n + 1) 341 s = .error .outOfBounds := by
  have hoff : (fatOffset fs 341).toNat = entryStart fs.fsType (341 : UInt32).toNat := by
    rw [fatOffset_341 h12, h12]
    rfl
  obtain ⟨t, hread, hd⟩ := readFatEntry_of_offset h hr hoff s rfl
  unfold freeChainLoop
  rw [if_pos (by decide), bind_of_ok hread]
  exact bind_of_error (writeFatEntry_341 h h12 (fun a => by rw [hd]; exact hr a) 0)

/-! ## A volume with a root directory -/

/-- A file A whose first cluster is 341, in every sector. -/
def strayFile : Sector := Sector.ofDirents [newDirent (makeName83 [0x41]) 0x20 341 0]

def strayFileDisk : Disk := ⟨fun _ => strayFile, fun _ => true, fun _ _ => true, 0⟩

theorem strayFile_dirent : strayFile.dirent (32 * 0) = newDirent (makeName83 [0x41]) 0x20 341 0 :=
  Sector.dirent_ofDirents (by decide)

/-- The file is the first entry of the root directory. -/
theorem strayFile_slots (hroot : fs.rootDirSectors ≠ 0) :
    ∃ lba rest, fs.slots strayFileDisk (fs.regionSectors 0) =
      ⟨lba, 0, newDirent (makeName83 [0x41]) 0x20 341 0⟩ :: rest := by
  obtain ⟨n, hn⟩ : ∃ n, fs.rootDirSectors.toNat = n + 1 := by
    refine ⟨fs.rootDirSectors.toNat - 1, ?_⟩
    have hpos : fs.rootDirSectors.toNat ≠ 0 := fun h0 => hroot (UInt32.toNat_inj.1 h0)
    omega
  refine ⟨(dirRegion fs 0).1, strayFile.slotsFrom (dirRegion fs 0).1 1 15 ++
    fs.slots strayFileDisk (sectorsFrom ((dirRegion fs 0).1 + 1) n), ?_⟩
  have hregion : fs.regionSectors 0 = sectorsFrom (dirRegion fs 0).1 (n + 1) := by
    unfold regionSectors
    rw [← hn]
    rfl
  rw [hregion, sectorsFrom, slots_cons]
  change strayFile.slotsFrom (dirRegion fs 0).1 0 (15 + 1) ++ _ = _
  rw [Sector.slotsFrom_succ, strayFile_dirent]
  rfl

/-- Both lookups find it. -/
theorem strayFile_finds (h : fs.Sized) (hi : fs.initialized = true) (h12 : fs.fsType = .fat12)
    (hroot : fs.rootDirSectors ≠ 0) :
    ∃ r lba, fs.Finds strayFileDisk 1 [0x41] r lba 0 := by
  obtain ⟨lba, rest, hslots⟩ := strayFile_slots hroot
  have hr : ∀ a, strayFileDisk.readable a = true := fun _ => rfl
  have hstart : dirStart fs 0 = 0 := if_neg (by simp [h12])
  have hlive : (newDirent (makeName83 [0x41]) 0x20 341 0).IsLive := by
    unfold Dirent.IsLive
    decide
  have hname : (newDirent (makeName83 [0x41]) 0x20 341 0).upperName = makeName83 [0x41] := by
    decide +kernel
  have hlist : Reads (fatReadDir 1 fs 0 128) strayFileDisk
      (scan 128 [] (fs.slots strayFileDisk (fs.regionSectors 0))).2 := by
    unfold fatReadDir
    rw [if_neg (by simp [hi]), hstart]
    exact readDirClusters_root h hr 128 0 [] (by decide)
  have hfind : Reads (dirFindName 1 fs 0 (makeName83 [0x41])) strayFileDisk
      (some (newDirent (makeName83 [0x41]) 0x20 341 0)) := by
    refine dirFindName_iff.2 ⟨_, hlist, ?_⟩
    rw [hslots]
    unfold scan
    rw [live_cons, if_neg hlive.1, if_neg hlive.2]
    exact (List.find?_cons_of_pos (by simpa using hname)).symm
  have hslot : Reads (dirFindSlot 1 fs 0 (makeName83 [0x41])) strayFileDisk (.sameName lba 0) := by
    have hroot := findSlotClusters_root (d := strayFileDisk) h hr (makeName83 [0x41]) 0
    rw [hslots] at hroot
    unfold dirFindSlot
    rw [hstart]
    unfold findSlot at hroot
    rw [List.findSome?_cons] at hroot
    unfold pick at hroot
    rw [if_neg (not_or.2 hlive), if_pos hname] at hroot
    exact hroot
  have hwalk : Reads (walkDirs 1 fs (splitPath [0x41]).1 (0, fun _ => 0)) strayFileDisk
      (some (0, fun _ => 0)) := .pure _
  exact ⟨_, lba, reads_fatResolveParent hwalk (by decide +kernel) hfind, by decide,
    Option.some_ne_none _, hslot⟩

/-- **`fat_delete_file` strays** on a FAT12 volume with a root directory. -/
theorem Sized.fatDeleteFile_strays (h : fs.Sized) (hi : fs.initialized = true)
    (h12 : fs.fsType = .fat12) (hroot : fs.rootDirSectors ≠ 0) :
    ∃ s, @fatDeleteFile BehindBuffer.checked 1 fs (some [0x41]) s = .error .outOfBounds := by
  obtain ⟨r, lba, hfinds⟩ := strayFile_finds h hi h12 hroot
  have hentry : fs.entryAt strayFileDisk lba 0 = newDirent (makeName83 [0x41]) 0x20 341 0 :=
    strayFile_dirent
  have hfirst : (newDirent (makeName83 [0x41]) 0x20 341 0).firstCluster = 341 := by decide
  have hcontents : Reads (dirContents 1 fs (fs.entryAt strayFileDisk lba 0)) strayFileDisk [] := by
    rw [hentry, dirContents, if_neg (by decide)]
    exact .pure _
  obtain ⟨s, hrun, hs⟩ := @Finds.fatDeleteFile_eq _ _ _ _ _ _ _ BehindBuffer.checked hfinds h.sector
    hi _ hcontents (List.forall_mem_nil _) rfl Sector.zero
  refine ⟨⟨Sector.zero, strayFileDisk⟩, hrun.trans (bind_of_error ?_)⟩
  rw [hentry, hfirst]
  unfold freeChainFrom fatFreeChain
  rw [if_pos (by decide)]
  exact freeChainLoop_341 h h12 (fun a => by rw [hs]; rfl) 65535

/-! ## A volume with a cluster -/

/-- No write changes the device any more, and every sector is as in `S`. -/
structure Stuck (S : UInt32 → Sector) (d : Disk) : Prop where
  sector : d.sector = S
  readable : ∀ a, d.readable a = true
  refused : ∀ n, d.writes ≤ n → ∀ a, d.writable n a = false

theorem Stuck.write (h : Stuck S d) (a : UInt32) (b : Sector) : Stuck S (d.write a b) := by
  have hno : d.wrote a = false := h.refused d.writes le_rfl a
  refine ⟨?_, h.readable, fun n hn => h.refused n (Nat.le_of_succ_le hn)⟩
  unfold Disk.write
  rw [hno]
  exact h.sector

theorem Stuck.zeroSectors (h : fs.Sized) (hs : Stuck S s.disk) (n : Nat) (lba : UInt32) :
    ∃ t, zeroSectors fs n lba s = .ok ((), t) ∧ Stuck S t.disk := by
  induction n generalizing lba s with
  | zero => exact ⟨s, rfl, hs⟩
  | succ n ih =>
    unfold Fs.zeroSectors
    rw [bind_of_ok (clearBuf_run h s), bind_of_ok (fatDevWrite_run fs lba _)]
    exact ih (hs.write _ _) (lba + 1)

theorem Stuck.storeDots (hs : Stuck S s.disk) (lba c parent : UInt32) :
    ∃ t, storeDots fs lba c parent s = .ok (false, t) ∧ Stuck S t.disk := by
  have hno : s.disk.wrote (fs.baseLba + lba) = false := hs.refused s.disk.writes le_rfl _
  unfold Fs.storeDots
  rw [bind_of_ok (fatDevRead_of_readable (hs.readable _))]
  simp only [if_true]
  rw [bind_of_ok (bufWrite_run (by omega) _ _), fatDevWrite_run]
  simp only [hno]
  exact ⟨_, rfl, hs.write _ _⟩

/-- Freeing goes on to the number that stands in an entry. -/
theorem Stuck.freeChainLoop [BehindBuffer] (h : fs.Sized) (h12 : fs.fsType = .fat12)
    (hs : Stuck S s.disk) (hc : c ≥ 2 ∧ c < endOfChain)
    (ho : (fatOffset fs c).toNat = entryStart .fat12 c.toNat)
    (hx : entryStart .fat12 c.toNat % 512 ≠ 511) {next : UInt32}
    (hnext : ∀ d, Stuck S d → fs.entry d c = next) (hlt : ¬ next ≥ endOfChain) :
    ∃ t, freeChainLoop fs (n + 1) c s = freeChainLoop fs n next t ∧ Stuck S t.disk := by
  rw [← h12] at ho
  obtain ⟨⟨b, d⟩, hread, hd⟩ := readFatEntry_of_offset h hs.readable ho s rfl
  obtain rfl : d = s.disk := hd
  rw [hnext _ hs] at hread
  obtain ⟨t, hwrite, hd⟩ := writeFatEntry_of_offset h (by rw [h12]; decide) ho (fun hx' => hx hx'.2)
    0 ⟨b, s.disk⟩ hs.readable
  refine ⟨t, ?_, ?_⟩
  · conv_lhs => unfold Fs.freeChainLoop
    rw [if_pos hc, bind_of_ok hread, bind_of_ok hwrite, if_neg hlt]
  · rw [hd]
    exact (hs.write _ _).write _ _

/-- A FAT12 sector in which the twelfth sector of the FAT has the number 341 in the entry of 4088. -/
def strayFat : Sector := fun k => if k.val = 500 then 0x55 else if k.val = 501 then 0x01 else 0

/-- The sector with the driver's end mark in the entry of cluster 2: it reads 4088. -/
def strayMarked : Sector := strayFat.set16 3 (fat12Put 2 chainMark (strayFat.get16 3))

/-- All sectors are the same, and only the first write succeeds. -/
def strayFatDisk : Disk := ⟨fun _ => strayFat, fun _ => true, fun n _ => n = 0, 0⟩

/-- The sectors after that write. -/
def afterMark (fs : FatFs) : UInt32 → Sector :=
  Function.update (fun _ => strayFat) (fs.fatSector 0) strayMarked

theorem stuck_afterMark (fs : FatFs) :
    Stuck fs.afterMark (fs.mirrored strayFatDisk 0 strayMarked) := by
  refine Stuck.write ⟨?_, fun _ => rfl, fun n hn a => ?_⟩ _ _
  · rfl
  · have hn : 1 ≤ n := hn
    exact decide_eq_false (by omega)

/-- The entries that the freeing comes to. -/
theorem entry_afterMark (h12 : fs.fsType = .fat12) (hs : Stuck fs.afterMark d) :
    fs.entry d 2 = 4088 ∧ fs.entry d 4088 = 341 := by
  have hfirst : d.sector (fs.fatSector 0) = strayMarked := by
    rw [hs.sector, afterMark, Function.update_self]
  have hother : d.sector (fs.fatSector 11) = strayFat := by
    rw [hs.sector, afterMark, Function.update_of_ne]
    intro he
    have := fatSector_inj (by decide) (by decide) he
    omega
  constructor
  · unfold entry
    rw [h12]
    change fat12Get 2 ((d.sector (fs.fatSector 0)).get 3) ((d.sector (fs.fatSector 0)).get 4) = _
    rw [hfirst]
    decide +kernel
  · unfold entry
    rw [h12]
    change fat12Get 4088 ((d.sector (fs.fatSector 11)).get 500)
      ((d.sector (fs.fatSector 11)).get 501) = _
    rw [hother]
    decide +kernel

theorem fatOffset_small (h12 : fs.fsType = .fat12) (hc : c.toNat < 2 ^ 30) :
    (fatOffset fs c).toNat = entryStart .fat12 c.toNat := by
  unfold fatOffset
  rw [h12]
  simp only [entryStart, UInt32.toNat_div, UInt32.toNat_mul, UInt32.reduceToNat]
  omega

/-- A root directory without a sector has no entries. -/
theorem noRoot_findName (h : fs.Sized) (hi : fs.initialized = true) (h12 : fs.fsType = .fat12)
    (hroot : fs.rootDirSectors = 0) (hr : ∀ a, d.readable a = true) (name : Name83) :
    Reads (dirFindName 1 fs 0 name) d none := by
  have hslots : fs.slots d (fs.regionSectors 0) = [] := by
    have hregion : (dirRegion fs 0).2 = 0 := hroot
    unfold regionSectors
    rw [hregion]
    rfl
  refine dirFindName_iff.2 ⟨[], ?_, rfl⟩
  unfold fatReadDir
  rw [if_neg (by simp [hi]), dirStart, if_neg (by simp [h12])]
  have hread := readDirClusters_root h hr 128 0 [] (by decide)
  rwa [hslots] at hread

/-- **`fat_mkdir` strays** on a FAT12 volume with a cluster and no root directory. -/
theorem Sized.fatMkdir_strays (h : fs.Sized) (hi : fs.initialized = true)
    (h12 : fs.fsType = .fat12) (hroot : fs.rootDirSectors = 0) (hlimit : 2 < fs.clusterLimit.toNat) :
    ∃ s, @fatMkdir BehindBuffer.checked 1 fs (some [0x41]) s = .error .outOfBounds := by
  let _ : BehindBuffer := .checked
  have hr : ∀ a, strayFatDisk.readable a = true := fun _ => rfl
  have hoff2 : (fatOffset fs 2).toNat = entryStart fs.fsType (2 : UInt32).toNat := by
    rw [h12]
    exact fatOffset_small h12 (by decide)
  have hwalk : Reads (walkDirs 1 fs (splitPath [0x41]).1 (0, fun _ => 0)) strayFatDisk
      (some (0, fun _ => 0)) := .pure _
  have hres := reads_fatResolveParent (n := makeName83 [0x41]) hwalk (by decide +kernel)
    (noRoot_findName h hi h12 hroot hr (makeName83 [0x41]))
  obtain ⟨n, hn⟩ : ∃ n, fs.clusterLimit.toNat - 2 = n + 1 := ⟨fs.clusterLimit.toNat - 3, by omega⟩
  -- cluster 2 is taken
  obtain ⟨⟨b1, d1⟩, h1, hd1⟩ := hres ⟨Sector.zero, strayFatDisk⟩ rfl
  obtain rfl : d1 = strayFatDisk := hd1
  have hentry2 : fs.entry strayFatDisk 2 = 0 := by
    unfold entry
    rw [h12]
    change fat12Get 2 (strayFat.get 3) (strayFat.get 4) = _
    decide +kernel
  obtain ⟨⟨b2, d2⟩, h2, hd2⟩ := readFatEntry_of_offset h hr hoff2 ⟨b1, strayFatDisk⟩ rfl
  obtain rfl : d2 = strayFatDisk := hd2
  rw [hentry2] at h2
  have hfree : findFree fs (n + 1) 2 ⟨b1, strayFatDisk⟩ = .ok (some 2, ⟨b2, strayFatDisk⟩) := by
    unfold findFree
    rw [bind_of_ok h2]
    rfl
  -- it gets the mark, and nothing else is written
  obtain ⟨t3, h3, hd3⟩ := writeFatEntry_of_offset h (by rw [h12]; decide) hoff2
    (fun hx => absurd hx.2 (by decide)) chainMark ⟨b2, strayFatDisk⟩ hr
  have hs3 : Stuck fs.afterMark t3.disk := by
    have hmark : fs.storeEntry strayFatDisk 2 (fs.putEntry 2 chainMark) =
        fs.mirrored strayFatDisk 0 strayMarked := by
      have hoff : fs.entryOffset 2 = 3 := by
        unfold entryOffset
        rw [h12]
        rfl
      unfold storeEntry putEntry
      rw [hoff, h12]
      rfl
    rw [hd3, hmark]
    exact stuck_afterMark fs
  obtain ⟨t4, h4, hs4⟩ := hs3.zeroSectors h fs.sectorsPerCluster.toNat (clusterLba fs 2)
  obtain ⟨t5, h5, hs5⟩ := hs4.storeDots (clusterLba fs 2) 2 0
  have hfill : mkdirFill 1 fs ⟨0, makeName83 [0x41], none⟩ 2 t4 = .ok (false, t5) := by
    unfold mkdirFill
    rw [bind_of_ok h5]
    rfl
  -- so it is freed again, up to the entry of 341
  have hchain : fatFreeChain fs 2 t5 = .error .outOfBounds := by
    obtain ⟨t6, h6, hs6⟩ := hs5.freeChainLoop (n := 65535) h h12 (by decide)
      (fatOffset_small h12 (by decide)) (by decide) (fun d hd => (entry_afterMark h12 hd).1)
      (by decide)
    obtain ⟨t7, h7, hs7⟩ := hs6.freeChainLoop (n := 65534) h h12 (by decide)
      (fatOffset_small h12 (by decide)) (by decide) (fun d hd => (entry_afterMark h12 hd).2)
      (by decide)
    exact (h6.trans h7).trans (freeChainLoop_341 h h12 hs7.readable 65533)
  refine ⟨⟨Sector.zero, strayFatDisk⟩, ?_⟩
  unfold fatMkdir
  rw [if_neg (by simp [hi]), bind_of_ok h1, if_neg (by decide),
    bind_of_ok (maxCluster_eq h.cluster _), hn, bind_of_ok hfree]
  simp only
  rw [bind_of_ok h3, bind_of_ok h4, bind_of_ok hfill]
  exact bind_of_error hchain

/-! ## A volume with neither -/

section Bare

variable (h12 : fs.fsType = .fat12) (hroot : fs.rootDirSectors = 0)

include h12 hroot

/-- Nothing is in the root directory. -/
theorem bare_readDir (fuel : Nat) (m : UInt32) : Safe (fatReadDir fuel fs 0 m) fun es => es = [] := by
  refine .ite (fun _ => .pure rfl) fun _ => ?_
  have hstart : dirStart fs 0 = 0 := if_neg (by simp [h12])
  rw [hstart]
  cases fuel with
  | zero => exact .noReturn
  | succ fuel =>
    unfold readDirClusters dirRegion
    rw [if_neg (by decide), if_pos rfl]
    simp only [hroot]
    refine .bind (.pure (Q := fun r => r = (false, [])) rfl) fun r hr => ?_
    rw [hr]
    exact .ite (fun _ => .pure rfl) fun hne => absurd (.inr trivial) hne

theorem bare_findSlot (fuel : Nat) (name : Name83) :
    Safe (dirFindSlot fuel fs 0 name) fun slot => slot = .full := by
  have hstart : dirStart fs 0 = 0 := if_neg (by simp [h12])
  unfold dirFindSlot
  rw [hstart]
  cases fuel with
  | zero => exact .noReturn
  | succ fuel =>
    unfold findSlotClusters dirRegion
    rw [if_neg (by decide), if_pos rfl]
    simp only [hroot]
    exact .bind (.pure (Q := fun r => r = none) rfl) fun r hr => by
      rw [hr]
      exact .ite (fun _ => .pure rfl) fun hne => absurd trivial hne

/-- A path leads nowhere, or it has one name and the root has no such entry. -/
theorem bare_resolveParent (fuel : Nat) (path : Option (List UInt8)) :
    Safe (fatResolveParent fuel fs path) fun r => r.parent = 0xFFFFFFFF ∨
      r.parent = 0 ∧ r.entry = none := by
  have hname : ∀ name, Safe (dirFindName fuel fs 0 name) fun e => e = none := fun name =>
    .bind (bare_readDir h12 hroot fuel 128) fun es hes => .pure (by rw [hes]; rfl)
  have hloop : ∀ (p : List UInt8) (seg : Option (List UInt8)),
      Safe (resolveParentLoop fuel fs p 0 seg) fun r => r.parent = 0xFFFFFFFF ∨
        r.parent = 0 ∧ r.entry = none := by
    intro p
    induction p with
    | nil =>
      intro seg
      cases seg with
      | none => exact .pure (.inl rfl)
      | some seg => exact .bind (hname _) fun e he => .pure (.inr ⟨rfl, he⟩)
    | cons c rest ih =>
      intro seg
      cases seg with
      | none =>
        rw [resolveParentLoop]
        exact .ite (fun _ => ih _) fun _ => ih _
      | some seg =>
        rw [resolveParentLoop]
        refine .ite (fun _ => ?_) fun _ => ih _
        refine .bind (hname _) fun e he => ?_
        rw [he]
        exact .pure (.inl rfl)
  cases path with
  | none => exact .pure (.inl rfl)
  | some path => exact hloop path none

variable [BehindBuffer]

theorem bare_fatDeleteFile (fuel : Nat) (path : Option (List UInt8)) :
    Safe (fatDeleteFile fuel fs path) fun _ => True := by
  refine .ite (fun _ => .pure trivial) fun _ => ?_
  refine .bind (bare_resolveParent h12 hroot fuel path) fun r hr => ?_
  exact .ite (fun _ => .pure trivial) fun hne =>
    absurd (hr.imp_right And.right) hne

theorem bare_fatWriteFile (h : fs.Sized) (fuel : Nat) (path : Option (List UInt8))
    (data : List UInt8) : Safe (fatWriteFile fuel fs path data) fun _ => True := by
  refine .bind (Q := fun _ => True) (.ite (fun _ => .pure trivial) fun _ => ?_)
    fun _ _ => .pure trivial
  refine .bind (bare_resolveParent h12 hroot fuel path) fun r hr => ?_
  refine .ite (fun _ => .pure trivial) fun hne => ?_
  obtain ⟨h0, -⟩ := hr.resolve_left hne
  have htarget : Safe (writeTarget fuel fs r) fun t => t = none := by
    unfold writeTarget
    rw [h0]
    refine .bind (bare_findSlot h12 hroot fuel _) fun slot hslot => ?_
    rw [hslot]
    exact .ite (fun _ => .pure rfl) fun hne => absurd rfl hne
  refine .bind (safe_maxCluster h) fun maxC _ => .bind htarget fun t ht => ?_
  rw [ht]
  exact .pure trivial

theorem bare_fatMkdir (h : fs.Sized) (hlimit : fs.clusterLimit.toNat ≤ 2) (fuel : Nat)
    (path : Option (List UInt8)) : Safe (fatMkdir fuel fs path) fun _ => True := by
  refine .ite (fun _ => .pure trivial) fun _ => ?_
  refine .bind (bare_resolveParent h12 hroot fuel path) fun r _ => ?_
  refine .ite (fun _ => .pure trivial) fun _ => ?_
  have hmax : Safe (maxCluster fs) fun m => m = fs.clusterLimit := by
    intro s _
    rw [maxCluster_eq h.cluster s]
  refine .bind hmax fun m hm => ?_
  rw [hm, show fs.clusterLimit.toNat - 2 = 0 by omega]
  refine .bind (.pure (Q := fun r => r = none) rfl) fun r hr => ?_
  rw [hr]
  exact .pure trivial

end Bare

end FatFs

end HaoSys.Fs
