import HaoSys.Syscall.Permission

/-!
# Paths whose check names another directory

For every path whose checked part names another directory than its parent
part there is a volume on which a user removes a file from a directory that
grants no write permission: directories along the whole path, of which only
the one that is checked is open to all.
-/

namespace HaoSys.Fs

open HaoSys.Lib Prog DirSlot

/-- A file without clusters is deleted by one write. -/
theorem fatDeleteFile_ok {fuel : Nat} {fs : FatFs} {path : List UInt8} {d : Disk} {r : Resolved}
    {e : Dirent} {lba offset : UInt32} (hi : fs.initialized = true) (hd : d.Reliable)
    (hres : Reads (fatResolveParent fuel fs (some path)) d r) (hparent : r.parent ≠ 0xFFFFFFFF)
    (he : r.entry = some e)
    (hslot : Reads (dirFindSlot fuel fs r.parent r.name83) d (.sameName lba offset))
    (hoff : offset.toNat + 32 ≤ 512)
    (hdir : ((d.sector (fs.baseLba + lba)).dirent offset.toNat).isDir = false)
    (hfirst : ((d.sector (fs.baseLba + lba)).dirent offset.toNat).firstCluster = 0) (b : Sector) :
    ∃ s, fatDeleteFile fuel fs (some path) ⟨b, d⟩ = .ok (true, s) := by
  have hwrote : ∀ x, d.wrote x = true := fun x => hd.writable _ x
  unfold fatDeleteFile
  rw [if_neg (by simp [hi])]
  obtain ⟨⟨b1, d1⟩, h1, hd1⟩ := hres ⟨b, d⟩ rfl
  obtain rfl : d1 = d := hd1
  rw [bind_of_ok h1, if_neg (by simp [hparent, he])]
  obtain ⟨⟨b2, d2⟩, h2, hd2⟩ := hslot ⟨b1, d1⟩ rfl
  obtain rfl : d2 = d1 := hd2
  rw [bind_of_ok h2]
  simp only
  rw [bind_of_ok (fatDevRead_of_readable (hd.readable _))]
  simp only [if_true]
  rw [bind_of_ok (bufRead_run hoff _ _)]
  have hinside : ∀ s, dirContents fuel fs ((d2.sector (fs.baseLba + lba)).dirent offset.toNat) s =
      .ok ([], s) := by
    intro s
    unfold dirContents
    rw [if_neg (by simp [hdir])]
    rfl
  rw [bind_of_ok (hinside _), if_neg (by simp),
    bind_of_ok (fatDevRead_of_readable (hd.readable _))]
  simp only [if_true]
  rw [bind_of_ok (bufWrite_run hoff _ _), bind_of_ok (fatDevWrite_run _ _ _)]
  simp only [hwrote, if_true, hfirst]
  exact ⟨_, rfl⟩

end HaoSys.Fs

namespace HaoSys.Syscall

open HaoSys.Lib HaoSys.Mm HaoSys.Fs Prog DirSlot

/-! ## The volume -/

/-- A FAT32 volume of the largest size. -/
def largeFs : FatFs :=
  ⟨0, 32, 2, 0x200000, 0, 0x400020, 0x10400010, 1, 512, .fat32, 2, true⟩

/-- A directory entry of root's, with the given permission bits. -/
def dirEntry (name : Name83) (cluster : UInt32) (mode : UInt16) : Dirent :=
  (newDirent name 0x10 cluster 0).setUnixMeta ⟨mode, 0, 0⟩

section Volume

-- the names along the path, how many of them are checked as they are, the name checked after them,
-- and the name of the file
variable (names : List Name83) (j : Nat) (checked last : Name83)

/-- The entry of the directory at depth `i + 1`: open to all only if it is the one checked. -/
def stepEntry (i : Nat) (n : Name83) : Dirent :=
  dirEntry n (UInt32.ofNat (3 + i)) (if i = j ∧ n = checked then 0o040777 else 0o040755)

/-- The entries of the directory at depth `i`. -/
def levelEntries (i : Nat) : List Dirent :=
  match names[i]? with
  | some n => stepEntry j checked i n ::
      if i = j ∧ n ≠ checked then [dirEntry checked 2 0o040777] else []
  | none => if i = names.length then [newDirent last 0x20 0 0] else []

def levelDisk : Disk := Disk.ofSectors fun a =>
  if a < 0x400020 then Sector.zero
  else Sector.ofDirents (levelEntries names j checked last (a - 0x400020).toNat)

theorem levelDisk_reliable : (levelDisk names j checked last).Reliable :=
  Disk.ofSectors_reliable _

/-- The number under which the driver knows the directory at depth `i`. -/
def levelCluster (i : Nat) : UInt32 := if i = 0 then 0 else UInt32.ofNat (2 + i)

end Volume

theorem dirStart_levelCluster {i : Nat} (hi : i < 2 ^ 27) :
    dirStart largeFs (levelCluster i) = UInt32.ofNat (2 + i) := by
  unfold dirStart levelCluster
  by_cases h0 : i = 0
  · subst h0
    rfl
  · rw [if_neg h0, if_neg]
    rintro ⟨h, -⟩
    have := congrArg UInt32.toNat h
    rw [UInt32.toNat_ofNat'] at this
    simp at this
    omega

variable {names : List Name83} {j : Nat} {checked last : Name83}

theorem level_lba {i : Nat} (hi : i < 2 ^ 27) :
    (levelDisk names j checked last).sector (largeFs.baseLba + UInt32.ofNat (0x400020 + i)) =
      Sector.ofDirents (levelEntries names j checked last i) := by
  have hbase : largeFs.baseLba + UInt32.ofNat (0x400020 + i) = UInt32.ofNat (0x400020 + i) :=
    UInt32.zero_add _
  rw [hbase]
  change (if _ then _ else _) = _
  rw [if_neg]
  · congr 2
    rw [UInt32.toNat_sub_of_le, UInt32.toNat_ofNat']
    · simp
      omega
    · rw [UInt32.le_iff_toNat_le, UInt32.toNat_ofNat']
      simp
      omega
  · rw [UInt32.lt_iff_toNat_lt, UInt32.toNat_ofNat']
    simp
    omega

theorem level_sector {i : Nat} (hi : i < 2 ^ 27) :
    largeFs.dirSlots (levelDisk names j checked last) [UInt32.ofNat (2 + i)] =
      (Sector.ofDirents (levelEntries names j checked last i)).slotsFrom
        (UInt32.ofNat (0x400020 + i)) 0 16 := by
  have hne : UInt32.ofNat (2 + i) ≠ 0 := by
    intro h
    have := congrArg UInt32.toNat h
    rw [UInt32.toNat_ofNat'] at this
    simp at this
    omega
  have hlba : clusterLba largeFs (UInt32.ofNat (2 + i)) = UInt32.ofNat (0x400020 + i) := by
    apply UInt32.toNat_inj.1
    unfold clusterLba
    simp only [largeFs, UInt32.toNat_add, UInt32.toNat_mul, UInt32.toNat_sub, UInt32.toNat_ofNat',
      UInt32.reduceToNat]
    omega
  have hregion : largeFs.regionSectors (UInt32.ofNat (2 + i)) = [UInt32.ofNat (0x400020 + i)] := by
    unfold FatFs.regionSectors dirRegion
    rw [if_neg hne, hlba]
    rfl
  rw [FatFs.dirSlots_cons, FatFs.dirSlots_nil, List.append_nil, hregion]
  change largeFs.sectorSlots (levelDisk names j checked last) _ ++ [] = _
  rw [List.append_nil]
  unfold FatFs.sectorSlots
  rw [level_lba hi]

/-! ## Walking it -/

theorem levelCluster_succ {i : Nat} : levelCluster (i + 1) = UInt32.ofNat (3 + i) := by
  unfold levelCluster
  rw [if_neg (by omega), show 2 + (i + 1) = 3 + i by omega]

theorem dirEntry_upperName {n : Name83} (hn : ∀ k, toUpper (n k) = n k) (c : UInt32) (m : UInt16) :
    (dirEntry n c m).upperName = n := by
  rw [dirEntry, setUnixMeta_upperName, newDirent_upperName hn]

theorem dirEntry_isDir (n : Name83) (c : UInt32) (m : UInt16) : (dirEntry n c m).isDir = true := by
  change ((0x10 : UInt8) &&& 0x10 != 0) = true
  decide

theorem dirEntry_firstCluster (n : Name83) (c : UInt32) (m : UInt16) :
    (dirEntry n c m).firstCluster = c := Dirent.firstCluster_newDirent n 0x10 c 0 _

theorem stepEntry_isDir (i : Nat) (n : Name83) : (stepEntry j checked i n).isDir = true :=
  dirEntry_isDir _ _ _

theorem stepEntry_firstCluster (i : Nat) (n : Name83) :
    (stepEntry j checked i n).firstCluster = levelCluster (i + 1) := by
  rw [levelCluster_succ, stepEntry, dirEntry_firstCluster]

/-- What the names of the volume have to be: upper case and not free. -/
def Proper (n : Name83) : Prop := (∀ k, toUpper (n k) = n k) ∧ n 0 ≠ 0 ∧ n 0 ≠ 0xE5

theorem level_live (hnames : ∀ n ∈ names, Proper n) (hchecked : Proper checked)
    (hlast : Proper last) (i : Nat) :
    (levelEntries names j checked last i).length < 16 ∧
      ∀ e ∈ levelEntries names j checked last i, e.IsLive := by
  unfold levelEntries
  cases hget : names[i]? with
  | some n =>
    have hn := hnames n (List.mem_of_getElem? hget)
    simp only
    split
    · refine ⟨by simp, fun e he => ?_⟩
      simp only [List.mem_cons, List.not_mem_nil, or_false] at he
      obtain rfl | rfl := he
      · exact ⟨hn.2.1, hn.2.2⟩
      · exact ⟨hchecked.2.1, hchecked.2.2⟩
    · refine ⟨by simp, fun e he => ?_⟩
      rw [List.mem_singleton.1 he]
      exact ⟨hn.2.1, hn.2.2⟩
  | none =>
    simp only
    split
    · refine ⟨by simp, fun e he => ?_⟩
      rw [List.mem_singleton.1 he]
      exact ⟨hlast.2.1, hlast.2.2⟩
    · exact ⟨by simp, fun e he => by cases he⟩

theorem large_sized : largeFs.Sized := ⟨rfl, by decide, by decide⟩

theorem level_walk {i : Nat} (hi : i < 2 ^ 27) :
    DirWalk largeFs (levelDisk names j checked last) (dirStart largeFs (levelCluster i))
      [UInt32.ofNat (2 + i)]
      (largeFs.table (levelDisk names j checked last) (UInt32.ofNat (2 + i))) := by
  have hnat : (UInt32.ofNat (2 + i)).toNat = 2 + i := by
    rw [UInt32.toNat_ofNat']
    omega
  rw [dirStart_levelCluster hi]
  refine ⟨⟨rfl, rfl⟩, fun x hx => ?_⟩
  rw [List.mem_singleton.1 hx, hnat]
  refine ⟨by omega, ?_, ?_⟩
  · rw [UInt32.lt_iff_toNat_lt, hnat, endOfChain]
    simp
    omega
  · rw [hnat]
    simp only [largeFs, entryStart, entryWidth, UInt32.reduceToNat]
    omega

/-- A lookup at depth `i` looks at the entries of that level. -/
theorem level_findName (hnames : ∀ n ∈ names, Proper n) (hchecked : Proper checked)
    (hlast : Proper last) {i : Nat} (hi : i < 2 ^ 27) (name : Name83) :
    Reads (dirFindName 1 largeFs (levelCluster i) name) (levelDisk names j checked last)
      ((levelEntries names j checked last i).find? fun e => e.upperName = name) := by
  obtain ⟨hlen, hlive⟩ := level_live (j := j) hnames hchecked hlast i
  obtain ⟨hes, hend⟩ := Sector.slots_ofDirents hlen hlive (UInt32.ofNat (0x400020 + i))
  rw [← level_sector hi] at hes hend
  have hcount : (live (largeFs.dirSlots (levelDisk names j checked last)
      [UInt32.ofNat (2 + i)])).length < 128 := by
    rw [← List.length_map DirSlot.entry, hes]
    omega
  rw [← hes]
  exact (level_walk hi).findName large_sized rfl (fun _ => rfl) hend hcount (by simp) name

theorem levelCluster_ne {i : Nat} (hi : i < 2 ^ 27) : levelCluster i ≠ 0xFFFFFFFF := by
  unfold levelCluster
  split
  · decide
  · intro h
    have := congrArg UInt32.toNat h
    rw [UInt32.toNat_ofNat'] at this
    simp at this
    omega

theorem level_find {i : Nat} {n : Name83} (hn : Proper n) (hget : names[i]? = some n) :
    (levelEntries names j checked last i).find? (fun e => e.upperName = n) =
      some (stepEntry j checked i n) := by
  unfold levelEntries
  rw [hget]
  simp only
  rw [List.find?_cons_of_pos]
  simp only [decide_eq_true_eq]
  exact dirEntry_upperName hn.1 _ _

/-- Following names of the path leads from level to level. -/
theorem level_walkDirs (hnames : ∀ n ∈ names, Proper n) (hchecked : Proper checked)
    (hlast : Proper last) (hlen : names.length < 2 ^ 27) (ns : List Name83) :
    ∀ (i : Nat) (e : Dirent), (∀ k, k < ns.length → names[i + k]? = ns[k]?) →
      i + ns.length ≤ names.length →
      Reads (walkDirs 1 largeFs ns (levelCluster i, e)) (levelDisk names j checked last)
        (some (levelCluster (i + ns.length),
          ns.getLast?.elim e (stepEntry j checked (i + ns.length - 1)))) := by
  induction ns with
  | nil =>
    intro i e _ _
    exact .pure _
  | cons n ns ih =>
    intro i e hget hle
    rw [List.length_cons] at hle
    have hn : names[i]? = some n := by simpa using hget 0 (by simp)
    have hfind := level_findName (j := j) hnames hchecked hlast (show i < 2 ^ 27 by omega) n
    rw [level_find (hnames n (List.mem_of_getElem? hn)) hn] at hfind
    have hnext := ih (i + 1) (stepEntry j checked i n) (fun k hk => by
      have := hget (k + 1) (by simp; omega)
      rwa [List.getElem?_cons_succ, show i + (k + 1) = i + 1 + k by omega] at this) (by omega)
    refine hfind.bind ?_
    simp only [stepEntry_isDir, if_true, stepEntry_firstCluster]
    have hentry : ns.getLast?.elim (stepEntry j checked i n)
        (stepEntry j checked (i + 1 + ns.length - 1)) =
        (n :: ns).getLast?.elim e (stepEntry j checked (i + (n :: ns).length - 1)) := by
      cases ns with
      | nil => rfl
      | cons m ns =>
        have hpos : i + (n :: m :: ns).length - 1 = i + 1 + (m :: ns).length - 1 := by
          simp only [List.length_cons]
          omega
        rw [List.getLast?_cons_cons, hpos]
        simp [List.getLast?_cons]
    rw [← hentry, List.length_cons, show i + (ns.length + 1) = i + 1 + ns.length by omega]
    exact hnext


/-! ## The calls on it -/

/-- The string at `p` is read back. -/
theorem stringAt_stringMem (p : UInt32) (s : List UInt8) (h0 : (0 : UInt8) ∉ s)
    (hlen : s.length < 2 ^ 31) :
    ∀ (n i : Nat), s.length < n + i → i ≤ s.length →
      Kernel.stringAt (stringMem p s) n (p + UInt32.ofNat i) = s.drop i := by
  intro n
  induction n with
  | zero =>
    intro i h1 h2
    omega
  | succ n ih =>
    intro i h1 h2
    have hoff : (p + UInt32.ofNat i - p).toNat = i := by
      rw [UInt32.add_comm, UInt32.add_sub_cancel, UInt32.toNat_ofNat']
      omega
    unfold Kernel.stringAt stringMem
    rw [hoff, List.getD_eq_getElem?_getD]
    by_cases hlt : i < s.length
    · rw [List.getElem?_eq_getElem hlt, Option.getD_some, if_neg, List.drop_eq_getElem_cons hlt]
      · congr 1
        rw [UInt32.add_assoc, show UInt32.ofNat i + 1 = UInt32.ofNat (i + 1) by
          rw [UInt32.ofNat_add]; rfl]
        exact ih (i + 1) (by omega) (by omega)
      · intro he
        exact h0 (he ▸ List.getElem_mem hlt)
    · rw [List.getElem?_eq_none (by omega), Option.getD_none, if_pos rfl,
        List.drop_eq_nil_of_le (by omega)]

/-- A path with two slashes in front resolves to the root volume and what follows them. -/
theorem machine_resolves {v : Vmm} {fs : FatFs} {d : Disk} {c : Creds} {sub : List UInt8}
    (h0 : (0 : UInt8) ∉ sub) (hne : sub ≠ []) (hlen : sub.length < 2 ^ 27) :
    let k := machine v fs d c (0x2F :: 0x2F :: sub)
    k.vfs.vfsResolve (some (k.path 0x1000)) = some (0, some sub) := by
  intro k
  have hpath : k.path 0x1000 = 0x2F :: 0x2F :: sub := by
    have := stringAt_stringMem 0x1000 (0x2F :: 0x2F :: sub) (by simp [h0]) (by simp; omega) (2 ^ 32) 0
      (by simp; omega) (by omega)
    rw [List.drop_zero] at this
    exact this
  have hbest : k.vfs.bestMount (0x2F :: 0x2F :: sub) = some (0, 1) := by
    unfold Vfs.bestMount
    have hcovers : Vfs.covers Vfs.rootPoint (0x2F :: 0x2F :: sub) = true := by
      simp [Vfs.covers, Vfs.rootPoint]
    simp only [List.finRange, k, machine, singleVfs]
    simp [Vfs.rootPoint]
    exact hcovers
  rw [hpath, Vfs.vfsResolve, hbest]
  simp [hne]

/-- A path call whose operation succeeds returns 0. -/
theorem pathCall_of_run {k : Kernel} {p : UInt32} {x : Option (List UInt8) → FatFs → FatM Bool}
    {i : Fin 8} {sub : Option (List UInt8)} {m : Mount} {t : FatState} (hp : p ≠ 0)
    (hacc : k.accessible p = true)
    (hres : k.vfs.vfsResolve (some (k.path p)) = some (i, sub)) (hm : k.vfs.mounts i = some m)
    (h : x sub m.fs ⟨m.buf, k.vfs.disks m.dev⟩ = .ok (true, t)) :
    ∃ r, pathCall k p x = .ok r ∧ r.eax = 0 := by
  unfold pathCall
  rw [if_neg hp, if_neg (by simp [hacc]), hres]
  unfold Vfs.run
  simp only [hm, h]
  exact ⟨_, rfl, rfl⟩

/-- What a plain user may do with a directory of root's is in the last three bits of its mode. -/
theorem sysCheckEntry_dirEntry (n : Name83) (c : UInt32) (m : UInt16) :
    sysCheckEntry plainUser (dirEntry n c m) 2 = decide ((m >>> 0) &&& 7 &&& 2 = 2) := by
  unfold sysCheckEntry dirEntry
  rw [Dirent.unixMeta_setUnixMeta]
  rfl

section Calls

variable {sub : List UInt8} {ts more : List Name83} {f t l : Name83}

/-- The directory that is checked is open to all. -/
theorem level_check (hts : ∀ n ∈ ts ++ f :: more, Proper n) (ht : Proper t) (hl : Proper l)
    (hlen : (ts ++ f :: more).length < 2 ^ 27) (hne : parentPart sub ≠ [])
    (hchecked : splitPath (checkedPart sub) = (ts, some t)) :
    Reads (sysCheckParentWritable 1 plainUser largeFs (some sub))
      (levelDisk (ts ++ f :: more) ts.length t l) true := by
  have hwalk := level_walkDirs (j := ts.length) hts ht hl hlen ts 0 sysRootEntry (fun k hk => by
    rw [Nat.zero_add, List.getElem?_append_left hk]) (by simp)
  have hfind := level_findName (j := ts.length) hts ht hl (i := ts.length)
    (by simp at hlen; omega) t
  obtain ⟨e, he, hgrant⟩ : ∃ e, (levelEntries (ts ++ f :: more) ts.length t l ts.length).find?
      (fun e => e.upperName = t) = some e ∧ sysCheckEntry plainUser e 2 = true := by
    have hget : (ts ++ f :: more)[ts.length]? = some f := by simp
    by_cases hft : f = t
    · subst hft
      refine ⟨_, level_find ht hget, ?_⟩
      rw [stepEntry, sysCheckEntry_dirEntry, if_pos ⟨rfl, rfl⟩]
      decide
    · refine ⟨dirEntry t 2 0o040777, ?_, ?_⟩
      · unfold levelEntries
        rw [hget]
        simp only
        rw [if_pos ⟨trivial, hft⟩, List.find?_cons_of_neg, List.find?_cons_of_pos]
        · simpa using dirEntry_upperName ht.1 _ _
        · have := dirEntry_upperName (hts f (by simp)).1 (UInt32.ofNat (3 + ts.length))
            (if ts.length = ts.length ∧ f = t then 0o040777 else 0o040755)
          rw [stepEntry, this]
          simpa using hft
      · rw [sysCheckEntry_dirEntry]
        decide
  rw [he] at hfind
  unfold sysCheckParentWritable
  rw [sysParentSub_eq, if_neg hne]
  have hlast : (splitPath (checkedPart sub)).2 = some t := by rw [hchecked]
  have hres := reads_fatResolveParent (e := sysRootEntry)
    (q := (levelCluster (0 + ts.length), _)) (by rw [hchecked]; exact hwalk) hlast
    (by rw [Nat.zero_add]; exact hfind)
  have hfile : Reads (fatFindFile 1 largeFs (some (checkedPart sub)))
      (levelDisk (ts ++ f :: more) ts.length t l) (some e) := by
    unfold fatFindFile
    rw [if_neg (by decide)]
    refine hres.bind ?_
    rw [if_neg (levelCluster_ne (by simp at hlen; omega))]
    exact .pure _
  refine hfile.bind ?_
  simp only
  rw [hgrant]
  exact .pure _

/-- The directory that is changed is not. -/
theorem level_not_granted (hts : ∀ n ∈ ts ++ f :: more, Proper n) (ht : Proper t) (hl : Proper l)
    (hlen : (ts ++ f :: more).length < 2 ^ 27) (hdiff : f ≠ t ∨ more ≠ [])
    (hsub : splitPath sub = (ts ++ f :: more, some l)) :
    ¬ GrantsChange 1 plainUser largeFs sub (levelDisk (ts ++ f :: more) ts.length t l) := by
  rintro ⟨r, e, -, -, hdir, hgrant⟩
  have hwalk := level_walkDirs (j := ts.length) hts ht hl hlen (ts ++ f :: more) 0 sysRootEntry
    (fun k _ => by rw [Nat.zero_add]) (by simp)
  unfold changedDir at hdir
  rw [hsub] at hdir
  have he := congrArg (Option.map Prod.snd) (hdir.unique hwalk)
  simp only [Option.map_some, Option.some.injEq] at he
  rw [List.getLast?_eq_getLast_of_ne_nil (by simp), Option.elim_some] at he
  rw [he, stepEntry, sysCheckEntry_dirEntry, if_neg] at hgrant
  · revert hgrant
    decide
  · rintro ⟨hpos, hlast⟩
    rw [List.length_append, List.length_cons] at hpos
    have hnil : more = [] := List.length_eq_zero_iff.1 (by omega)
    subst hnil
    have hft : f = t := by simpa using hlast
    exact hdiff.elim (fun h => h hft) fun h => h rfl

/-- The file is deleted. -/
theorem level_delete (hts : ∀ n ∈ ts ++ f :: more, Proper n) (ht : Proper t) (hl : Proper l)
    (hlen : (ts ++ f :: more).length < 2 ^ 27) (hsub : splitPath sub = (ts ++ f :: more, some l))
    (b : Sector) :
    ∃ s, fatDeleteFile 1 largeFs (some sub)
      ⟨b, levelDisk (ts ++ f :: more) ts.length t l⟩ = .ok (true, s) := by
  generalize hm : (ts ++ f :: more).length = m at hlen
  have hlevel : levelEntries (ts ++ f :: more) ts.length t l m = [newDirent l 0x20 0 0] := by
    unfold levelEntries
    rw [List.getElem?_eq_none (by omega)]
    simp [hm]
  have hname := newDirent_upperName hl.1 0x20 0 0
  have hwalk := level_walkDirs (j := ts.length) hts ht hl (by omega) (ts ++ f :: more) 0
    sysRootEntry (fun k _ => by rw [Nat.zero_add]) (by simp)
  rw [hm, Nat.zero_add] at hwalk
  have hfind := level_findName (j := ts.length) hts ht hl hlen l
  rw [hlevel, List.find?_cons_of_pos (by simpa using hname)] at hfind
  have hres := reads_fatResolveParent (by rw [hsub]; exact hwalk) (by rw [hsub]) hfind
  have hslot : Reads (dirFindSlot 1 largeFs (levelCluster m) l)
      (levelDisk (ts ++ f :: more) ts.length t l) (.sameName (UInt32.ofNat (0x400020 + m)) 0) := by
    refine findSlotClusters_reads large_sized (fun _ => rfl) (level_walk hlen) (by simp) ?_
    rw [level_sector hlen, hlevel]
    have hlive : ¬ ((newDirent l 0x20 0 0) 0 = 0x00 ∨ (newDirent l 0x20 0 0) 0 = 0xE5) :=
      fun h => h.elim hl.2.1 hl.2.2
    have hfirst : (Sector.ofDirents [newDirent l 0x20 0 0]).dirent (32 * 0) =
        newDirent l 0x20 0 0 := Sector.dirent_ofDirents (by omega)
    unfold Sector.slotsFrom
    rw [List.range'_succ, List.map_cons, hfirst]
    unfold findSlot
    rw [List.findSome?_cons, pick, if_neg hlive, if_pos hname]
    rfl
  have hsector : (levelDisk (ts ++ f :: more) ts.length t l).sector
      (largeFs.baseLba + UInt32.ofNat (0x400020 + m)) =
        Sector.ofDirents [newDirent l 0x20 0 0] := by
    rw [level_lba hlen, hlevel]
  have hentry : ((levelDisk (ts ++ f :: more) ts.length t l).sector
      (largeFs.baseLba + UInt32.ofNat (0x400020 + m))).dirent (0 : UInt32).toNat =
        newDirent l 0x20 0 0 := by
    rw [hsector]
    exact Sector.dirent_ofDirents (j := 0) (by omega)
  refine fatDeleteFile_ok rfl (levelDisk_reliable _ _ _ _) hres (levelCluster_ne hlen) rfl hslot
    (by decide) ?_ ?_ b
  · rw [hentry]
    change ((0x20 : UInt8) &&& 0x10 != 0) = false
    decide
  · rw [hentry]
    rfl

end Calls

/-! ## The condition is exact -/

theorem pathNames_length (p : List UInt8) (seg : Option (List UInt8)) :
    (splitLoop p seg).1.length + (splitLoop p seg).2.toList.length ≤
      p.length + seg.toList.length := by
  induction p generalizing seg with
  | nil => cases seg <;> simp [splitLoop]
  | cons c p ih =>
    rw [splitLoop]
    split
    · have := ih none
      cases seg <;> simp at this ⊢ <;> omega
    · have := ih (some (pushSeg seg c))
      cases seg <;> simp at this ⊢ <;> omega

/-- A call that changes a directory is granted by that directory on every path whose checked part
names it. On every other string of fewer than 2^27 bytes, some call is not; the last name is taken
not to look like a deleted entry. -/
theorem sys_change_granted_iff (sub : List UInt8) :
    (ChecksParent sub → ChangesGranted sub) ∧
      ((0 : UInt8) ∉ sub → sub.length < 2 ^ 27 → (∀ l ∈ (splitPath sub).2, l 0 ≠ 0xE5) →
        ChangesGranted sub → ChecksParent sub) := by
  refine ⟨changesGranted_of_checksParent, fun h0 hlen hdel hgrant => ?_⟩
  by_contra hcheck
  unfold ChecksParent at hcheck
  push Not at hcheck
  obtain ⟨hnames, hopen, hlast, hdeleted⟩ := hcheck
  have hne : parentPart sub ≠ [] := by
    intro hnil
    refine hnames ?_
    rw [checkedPart, hnil]
    rfl
  obtain ⟨t, ht⟩ := Option.ne_none_iff_exists'.1 (hopen hne)
  obtain ⟨l, hl⟩ := Option.ne_none_iff_exists'.1 hlast
  -- the checked part is cut off inside or behind a segment of the parent part
  obtain ⟨seg, hsplit, hseg⟩ := splitLoop_append (checkedPart sub) ((parentPart sub).drop 63) none
  change _ = (splitPath (checkedPart sub)).2 at hseg
  rw [checkedPart, List.take_append_drop] at hsplit
  obtain ⟨s, rfl, -⟩ : ∃ s, seg = some s ∧ makeName83 s = t := by
    rw [ht] at hseg
    simpa using hseg
  obtain ⟨f, more, hcons⟩ := List.exists_cons_of_ne_nil
    (splitLoop_some_ne_nil ((parentPart sub).drop 63) s)
  have hparent : pathNames (parentPart sub) = (splitPath (checkedPart sub)).1 ++ f :: more := by
    rw [pathNames, splitPath, hsplit, List.append_assoc, hcons]
    rfl
  have hchecked : pathNames (checkedPart sub) = (splitPath (checkedPart sub)).1 ++ [t] := by
    rw [pathNames, ht]
    rfl
  have hsub : splitPath sub = ((splitPath (checkedPart sub)).1 ++ f :: more, some l) := by
    rw [← hparent, ← splitPath_fst_eq, ← hl]
  have hmem : ∀ b ∈ parentPart sub, b ∈ sub := fun b hb => List.mem_of_mem_take hb
  have hproper : ∀ n ∈ (splitPath (checkedPart sub)).1 ++ f :: more, Proper n := by
    intro n hn
    rw [← hparent] at hn
    obtain ⟨hup, hz⟩ := pathNames_spec (fun h => h0 (hmem 0 h)) hn
    exact ⟨hup, hz, hdeleted n (List.mem_append_right _ hn)⟩
  have htproper : Proper t := by
    have hn : t ∈ pathNames (checkedPart sub) := by
      rw [hchecked]
      exact List.mem_append_right _ (List.mem_singleton.2 rfl)
    obtain ⟨hup, hz⟩ := pathNames_spec (fun h => h0 (hmem 0 (List.mem_of_mem_take h))) hn
    exact ⟨hup, hz, hdeleted t (List.mem_append_left _ hn)⟩
  have hlproper : Proper l := by
    have hn : l ∈ pathNames sub := by
      rw [pathNames, hl]
      exact List.mem_append_right _ (by simp)
    obtain ⟨hup, hz⟩ := pathNames_spec h0 hn
    exact ⟨hup, hz, hdel l (by rw [hl]; rfl)⟩
  have hcount : ((splitPath (checkedPart sub)).1 ++ f :: more).length < 2 ^ 27 := by
    have := pathNames_length sub none
    change (splitPath sub).1.length + (splitPath sub).2.toList.length ≤ _ at this
    rw [hsub] at this
    simp at this ⊢
    omega
  have hdiff : f ≠ t ∨ more ≠ [] := by
    by_contra h
    push Not at h
    exact hnames (by rw [hchecked, hparent, h.1, h.2])
  have hnil : sub ≠ [] := by
    rintro rfl
    cases hl
  have hcheck := level_check hproper htproper hlproper hcount hne
    (show splitPath (checkedPart sub) = (_, some t) from Prod.ext rfl ht)
  have hnot := level_not_granted hproper htproper hlproper hcount hdiff hsub
  have hdelete := level_delete hproper htproper hlproper hcount hsub
  generalize levelDisk _ _ t l = d at hcheck hnot hdelete
  obtain ⟨⟨b1, d1⟩, h1, rfl⟩ := hcheck ⟨Sector.zero, d⟩ rfl
  obtain ⟨u, hu⟩ := hdelete b1
  have hrun : deleteFileAt 1 plainUser (some sub) largeFs ⟨Sector.zero, d1⟩ = .ok (true, u) := by
    unfold deleteFileAt
    rw [bind_of_ok h1]
    exact hu
  let k := machine openVmm largeFs d1 plainUser (0x2F :: 0x2F :: sub)
  have hresolve : k.vfs.vfsResolve (some (k.path 0x1000)) = some (0, some sub) :=
    machine_resolves h0 hnil hlen
  have hacc : openVmm.vmmIsUserAccessible 0x1000 = true := by decide +kernel
  obtain ⟨r, hr, hzero⟩ := pathCall_of_run (k := k) (p := 0x1000)
    (x := deleteFileAt 1 plainUser) (by decide) hacc hresolve rfl hrun
  exact hnot (hgrant 1 _ 0x1000 0 _ hresolve rfl ⟨r, hzero, .inr (.inl hr)⟩)

end HaoSys.Syscall
