import HaoSys.Fs.File
import HaoSys.Syscall.Buffers
import HaoSys.Syscall.LongPath
import HaoSys.Syscall.Retained

/-!
# Buffers with a page inside that is not the caller's

For every call with a data buffer there is a volume on which it touches all of
the bytes that it may: a FAT32 volume on which every entry is a file of the
largest size, and an empty FAT16 volume. So a buffer is safe exactly if every
page that begins inside it is accessible, of which the checks look at one at
most.
-/

namespace HaoSys.Fs

open HaoSys.Lib Prog DirSlot FatFs

/-! ## A volume of one file -/

/-- A FAT32 volume of the largest size, with clusters of two sectors. -/
def chainFs : FatFs := ⟨0, 32, 2, 0x200000, 0, 0x400020, 0x2040000A, 2, 512, .fat32, 2, true⟩

/-- The file F, of the largest size. -/
def largestFile : Dirent := newDirent (makeName83 [0x46]) 0x20 2 0xFFFFFFFF

/-- Every number of the FAT leads to the next one, and every directory entry is the file F. -/
def chainDisk : Disk := Disk.ofSectors fun a =>
  if a < 0x400020 then fun b => byte (128 * (a.toNat - 32) + b.val / 4 + 1) (b.val % 4)
  else fun b => largestFile (Fin.ofNat 32 b.val)

theorem chainFs_sound : chainFs.Sound := by
  refine ⟨⟨rfl, by decide, by decide⟩, rfl, by decide, rfl, rfl, by decide, by decide, by decide,
    fun c hc => ?_, by decide, by decide⟩
  have hlim : chainFs.clusterLimit.toNat = 0x0FFFFFF7 := by decide
  rw [hlim] at hc
  change c * 4 + 4 ≤ 0x200000 * 512
  omega

theorem chainDisk_reliable : chainDisk.Reliable := Disk.ofSectors_reliable _

theorem chain_fatByte {n : Nat} (hn : n < 0x200000 * 512) :
    chainFs.fatByte chainDisk n = byte (n / 4 + 1) (n % 4) := by
  have hsec : (chainFs.fatSector (n / 512)).toNat = 32 + n / 512 := by
    have := chainFs_sound.twoFats.fatSector_toNat (show n / 512 < 2 * 0x200000 by omega)
    rw [this]
    change 0 + (32 + n / 512) = _
    omega
  have hlt : chainFs.fatSector (n / 512) < 0x400020 := by
    rw [UInt32.lt_iff_toNat_lt, hsec]
    change _ < 0x400020
    omega
  unfold FatFs.fatByte chainDisk Disk.ofSectors Sector.get
  simp only [if_pos hlt, hsec]
  rw [dif_pos (Nat.mod_lt n (by decide))]
  congr 1 <;> omega

theorem chain_table {c : UInt32} (hc : c < endOfChain) : chainFs.table chainDisk c = c + 1 := by
  have hlt : c.toNat < 0x0FFFFFF8 := UInt32.lt_iff_toNat_lt.1 hc
  have hin : chainFs.InFat c := by
    refine ⟨hc, ?_⟩
    change c.toNat * 4 + 4 ≤ 0x200000 * 512
    omega
  have hsucc : (c + 1).toNat = c.toNat + 1 := by
    rw [UInt32.toNat_add, UInt32.toNat_one]
    omega
  have hbyte : ∀ k < 4, chainFs.fatByte chainDisk (c.toNat * 4 + k) = byte (c + 1).toNat k := by
    intro k hk
    rw [chain_fatByte (by omega), hsucc]
    congr 1 <;> omega
  unfold FatFs.table
  rw [if_pos hin]
  change le32 (chainFs.fatByte chainDisk (c.toNat * 4 + 0))
    (chainFs.fatByte chainDisk (c.toNat * 4 + 1)) (chainFs.fatByte chainDisk (c.toNat * 4 + 2))
    (chainFs.fatByte chainDisk (c.toNat * 4 + 3)) &&& 0x0FFFFFFF = c + 1
  rw [hbyte 0 (by decide), hbyte 1 (by decide), hbyte 2 (by decide), hbyte 3 (by decide), le32_byte]
  -- the mask keeps it
  apply UInt32.toNat_inj.1
  rw [UInt32.toNat_and, show (0x0FFFFFFF : UInt32).toNat = 2 ^ 28 - 1 from rfl,
    Nat.and_two_pow_sub_one_eq_mod, hsucc]
  omega

/-- The first `n` numbers from 2 on. -/
def firstClusters (n : Nat) : List UInt32 := sectorsFrom 2 n

theorem mem_firstClusters {n : Nat} (hn : n ≤ 0x0FFFFFF6) {c : UInt32} (hc : c ∈ firstClusters n) :
    2 ≤ c.toNat ∧ c.toNat < 2 + n := by
  have hin : (2 : UInt32).toNat + n ≤ 2 ^ 32 := by
    rw [show (2 : UInt32).toNat = 2 from rfl]
    omega
  exact (mem_sectorsFrom hin).1 hc

theorem follows_from {n : Nat} : ∀ {c : UInt32}, c.toNat + n ≤ 0x0FFFFFF8 →
    Follows (chainFs.table chainDisk) c (sectorsFrom c n) (c + UInt32.ofNat n) := by
  induction n with
  | zero =>
    intro c _
    exact (UInt32.add_zero c).symm
  | succ n ih =>
    intro c hc
    have hsucc : (c + 1).toNat = c.toNat + 1 := by
      rw [UInt32.toNat_add, UInt32.toNat_one]
      omega
    have hlt : c < endOfChain := UInt32.lt_iff_toNat_lt.2 (by change _ < 0x0FFFFFF8; omega)
    have hrest := ih (c := c + 1) (by omega)
    have hadd : c + UInt32.ofNat (n + 1) = c + 1 + UInt32.ofNat n := by
      rw [UInt32.ofNat_add, UInt32.add_assoc, UInt32.add_comm (UInt32.ofNat n)]
      rfl
    rw [hadd]
    exact ⟨rfl, by rwa [chain_table hlt]⟩

/-- What a sector of a cluster shows. -/
theorem chain_sectorSlots {l : UInt32} (hl : 0x400020 ≤ l) :
    chainFs.sectorSlots chainDisk l =
      (List.range' 0 16).map fun j => ⟨l, UInt32.ofNat (32 * j), largestFile⟩ := by
  have hbase : chainFs.baseLba + l = l := UInt32.zero_add l
  unfold FatFs.sectorSlots Sector.slotsFrom
  rw [hbase]
  refine List.map_congr_left fun j hj => ?_
  have hj := (List.mem_range'_1.1 hj).2
  congr 1
  funext k
  have hlt : 32 * j + k.val < 512 := by omega
  unfold Sector.dirent Sector.get chainDisk Disk.ofSectors
  simp only [if_neg (UInt32.not_lt.2 hl), dif_pos hlt]
  congr 1
  ext
  exact (Nat.mul_add_mod 32 j k.val).trans (Nat.mod_eq_of_lt k.isLt)

theorem chain_regionSectors {c : UInt32} (h2 : 2 ≤ c.toNat) (hc : c < endOfChain) :
    ∃ l, chainFs.regionSectors c = [l, l + 1] ∧ 0x400020 ≤ l ∧ 0x400020 ≤ l + 1 := by
  have hlt : c.toNat < 0x0FFFFFF8 := UInt32.lt_iff_toNat_lt.1 hc
  have hlba : (clusterLba chainFs c).toNat = 0x400020 + (c.toNat - 2) * 2 := by
    have hsub : (c - 2).toNat = c.toNat - 2 :=
      UInt32.toNat_sub_of_le _ _ (UInt32.le_iff_toNat_le.2 h2)
    unfold clusterLba
    rw [UInt32.toNat_add, UInt32.toNat_mul, hsub]
    change (0x400020 + (c.toNat - 2) * 2 % 2 ^ 32) % 2 ^ 32 = _
    omega
  refine ⟨clusterLba chainFs c, ?_, UInt32.le_iff_toNat_le.2 ?_, UInt32.le_iff_toNat_le.2 ?_⟩
  · unfold FatFs.regionSectors dirRegion
    rw [if_neg (ne_one_of_two_le h2).2]
    rfl
  · rw [hlba]
    exact Nat.le_add_right _ _
  · rw [UInt32.toNat_add, hlba, UInt32.toNat_one]
    change 0x400020 ≤ _
    omega

theorem chain_dirSlots (cs : List UInt32) (hcs : ∀ c ∈ cs, 2 ≤ c.toNat ∧ c < endOfChain) :
    (∀ t ∈ chainFs.dirSlots chainDisk cs, t.entry = largestFile) ∧
      (chainFs.dirSlots chainDisk cs).length = 32 * cs.length := by
  induction cs with
  | nil => exact ⟨List.forall_mem_nil _, rfl⟩
  | cons c cs ih =>
    obtain ⟨hrest, hlen⟩ := ih fun x hx => hcs x (List.mem_cons_of_mem _ hx)
    obtain ⟨h2, hc⟩ := hcs c List.mem_cons_self
    obtain ⟨l, hl, h0, h1⟩ := chain_regionSectors h2 hc
    rw [FatFs.dirSlots_cons, hl, FatFs.slots_cons, FatFs.slots_cons, chain_sectorSlots h0,
      chain_sectorSlots h1]
    refine ⟨fun t ht => ?_, ?_⟩
    · simp only [List.append_assoc, List.mem_append, List.mem_map] at ht
      obtain ⟨j, -, rfl⟩ | ⟨j, -, rfl⟩ | ht | ht := ht
      · rfl
      · rfl
      · cases ht
      · exact hrest t ht
    · simp only [List.length_append, List.length_map, List.length_range', hlen, List.length_cons]
      rw [show (FatFs.slots chainFs chainDisk []).length = 0 from rfl]
      omega

/-- All the clusters are one directory, the root. -/
theorem chain_walk : DirWalk chainFs chainDisk 2 (firstClusters 0x0FFFFFF6) endOfChain := by
  refine ⟨?_, fun c hc => ?_⟩
  · exact follows_from (by decide)
  · obtain ⟨h2, hlt⟩ := mem_firstClusters le_rfl hc
    refine ⟨h2, UInt32.lt_iff_toNat_lt.2 hlt, ?_⟩
    change c.toNat * 4 + 4 ≤ 0x200000 * 512
    omega

theorem chain_dirAt : chainFs.DirAt chainDisk 0 (firstClusters 0x0FFFFFF6) endOfChain :=
  .inr ⟨chain_walk, List.cons_ne_nil _ _⟩

theorem length_firstClusters (n : Nat) : (firstClusters n).length = n := length_sectorsFrom 2 n

/-- The root is full of live entries, all of them the file F. -/
theorem chain_live :
    (∀ t ∈ live (chainFs.dirSlots chainDisk (firstClusters 0x0FFFFFF6)), t.entry = largestFile) ∧
      2 ^ 32 ≤ (live (chainFs.dirSlots chainDisk (firstClusters 0x0FFFFFF6))).length := by
  obtain ⟨hall, hlen⟩ := chain_dirSlots (firstClusters 0x0FFFFFF6) fun c hc =>
    (chain_walk.valid c hc).imp_right And.left
  rw [live_of_full fun t ht => by rw [hall t ht]; decide, hlen, length_firstClusters]
  exact ⟨hall, by decide⟩

theorem chain_stays (m : Nat) :
    chainFs.StaysIn chainDisk m 0 (firstClusters 0x0FFFFFF6) endOfChain :=
  .inr (.inr (UInt32.le_refl _))

/-- A listing of the root fills the whole buffer. -/
theorem chain_readDir {max : UInt32} (hmax : max ≠ 0) :
    ∃ es, Reads (fatReadDir 0x0FFFFFF6 chainFs 0 max) chainDisk es ∧ es.length = max.toNat := by
  refine ⟨_, chain_dirAt.readDir_inside chainFs_sound.sized rfl chainDisk_reliable.readable hmax
    (chain_stays _) (Nat.le_of_eq (length_firstClusters _)), ?_⟩
  have hlen := chain_live.2
  have hlt := max.toNat_lt
  rw [List.length_take, List.length_map]
  omega

/-- The path F leads to the file. -/
theorem chain_find :
    Reads (fatFindFile 0x0FFFFFF6 chainFs (some [0x46])) chainDisk (some largestFile) := by
  have hname : Reads (dirFindName 0x0FFFFFF6 chainFs 0 (makeName83 [0x46])) chainDisk
      (some largestFile) := by
    have hfind := chain_dirAt.lookup (chain_stays 128) chainFs_sound chainDisk_reliable.readable
      (makeName83 [0x46]) (Nat.le_of_eq (length_firstClusters _))
    obtain ⟨hall, hlen⟩ := chain_live
    generalize live (chainFs.dirSlots chainDisk (firstClusters 0x0FFFFFF6)) = es at hall hlen hfind
    cases es with
    | nil => exact absurd hlen (by decide)
    | cons t es =>
      have ht := hall t List.mem_cons_self
      rw [List.take_succ_cons, List.find?_cons_of_pos (by rw [ht]; decide +kernel)] at hfind
      rwa [Option.map_some, ht] at hfind
  exact reads_fatFindFile rfl (reads_fatResolveParent (q := (0, fun _ => 0)) (.pure _) rfl hname)
    (by decide)

theorem chain_file : chainFs.FileAt chainDisk 0x0FFFFFF6 largestFile (firstClusters 4194304) := by
  refine ⟨⟨2 + UInt32.ofNat 4194304, ?_⟩, fun c hc => ?_, ?_, ?_⟩
  · rw [show largestFile.firstCluster = 2 from newDirent_firstCluster _ _ _ _]
    exact follows_from (by decide)
  · obtain ⟨h2, hlt⟩ := mem_firstClusters (by decide) hc
    refine ⟨h2, UInt32.lt_iff_toNat_lt.2 ?_⟩
    rw [show chainFs.clusterLimit.toNat = 0x0FFFFFF7 by decide]
    omega
  · rw [length_firstClusters]
    decide
  · rw [length_firstClusters]
    decide

theorem length_chain_contents :
    (chainFs.contents chainDisk largestFile (firstClusters 4194304)).length = 2 ^ 32 - 1 := by
  have hbytes : ∀ cs : List UInt32, (∀ c ∈ cs, chainFs.Cluster c) →
      (chainFs.clusterBytes chainDisk cs).length = 1024 * cs.length := by
    intro cs hcs
    induction cs with
    | nil => rfl
    | cons c cs ih =>
      rw [clusterBytes_cons, List.length_append, length_cluster (hcs c List.mem_cons_self),
        ih fun x hx => hcs x (List.mem_cons_of_mem _ hx), List.length_cons]
      change 512 * 2 + _ = _
      omega
  unfold FatFs.contents
  rw [List.length_take, hbytes _ chain_file.clusters, length_firstClusters]
  decide

end HaoSys.Fs

namespace HaoSys.Syscall

open HaoSys.Lib HaoSys.Mm HaoSys.Fs Prog DirSlot FatFs

/-! ## An empty volume -/

/-- A FAT16 volume with 4096 clusters of one sector. -/
def roomyFs : FatFs := ⟨0, 1, 2, 256, 1, 514, 4610, 1, 512, .fat16, 0, true⟩

theorem roomyFs_sound : roomyFs.Sound := by
  refine ⟨⟨rfl, by decide, by decide⟩, rfl, by decide, rfl, rfl, by decide, by decide, by decide,
    fun c hc => ?_, by decide, by decide⟩
  have hlim : roomyFs.clusterLimit.toNat = 4098 := by decide
  rw [hlim] at hc
  change c * 2 + 2 ≤ 256 * 512
  omega

theorem roomy_table (c : UInt32) : roomyFs.table (rootDisk []) c = 0 := rootDisk_table [] c

/-- All its clusters are free. -/
theorem roomy_freeCount : roomyFs.freeCount (rootDisk []) = 4096 := by
  unfold FatFs.freeCount freeFrom
  rw [List.filter_eq_self.2 fun c _ => decide_eq_true (roomy_table c), length_sectorsFrom]
  decide

/-- Its root has room for the file F. -/
theorem roomy_vacant : roomyFs.Vacant (rootDisk []) [0x46] 0 (makeName83 [0x46])
    ⟨513, 0, fun _ => 0⟩ := by
  have hlive : live (roomyFs.dirSlots (rootDisk []) [0]) = [] := by decide +kernel
  have haims : roomyFs.Aims (rootDisk []) [0x46] 0 (makeName83 [0x46]) [0] :=
    ⟨.here, rfl, by decide, by decide⟩
  have hsits : roomyFs.Sits (rootDisk []) 0 [0] 0 :=
    ⟨.inl ⟨rfl, rfl⟩, .inl (.inl rfl), fun c hc => .inl (List.mem_singleton.1 hc),
      fun c hc => .inl (List.mem_singleton.1 hc)⟩
  have hvacancy : roomyFs.Vacancy (rootDisk []) 0 [0] 0 (makeName83 [0x46]) []
      ⟨513, 0, fun _ => 0⟩ (roomyFs.dirSlots (rootDisk []) [0]).tail := by
    refine ⟨hsits, List.nodup_singleton 0, ?_, List.forall_mem_nil _, .inl rfl, by decide, ?_⟩
    · decide +kernel
    · rw [hlive]
      exact List.forall_mem_nil _
  exact .intro haims hvacancy (.inl rfl)

/-- A file whose data the free clusters hold is created by whoever may write to the directory: all
the data are taken. -/
theorem writeFileAt_vacant {fs : FatFs} {d : Disk} {sub : List UInt8} {dir : UInt32} {name : Name83}
    {t : DirSlot} {c : Creds} {data : List UInt8} (h : fs.Vacant d sub dir name t) (hs : fs.Sound)
    (ht : fs.fsType = .fat16 ∨ fs.fsType = .fat32) (hr : d.Reliable) (hlen : data.length ≤ 65536)
    (hfree : fs.clustersFor data.length ≤ fs.freeCount d)
    (hgranted : ∀ fuel, sysCheckParentWritable fuel c fs (some sub) = pure true) :
    ∃ fuel, ∀ b, ∃ u,
      writeFileAt fuel c (some sub) data fs ⟨b, d⟩ = .ok ((true, data.length), u) := by
  obtain ⟨f₁, hfind⟩ := (Ready.vacant h).locates hs hr.readable
  obtain ⟨f₂, hres⟩ := (Ready.vacant h).resolvesTo hs hr.readable
  obtain ⟨f₃, hslot⟩ : fs.SlotIs d dir name (.free t.lba t.offset) := by
    obtain ⟨-, vacancy, -⟩ := id h
    exact vacancy.slotIs hs hr.readable
  obtain ⟨f₄, hfinds⟩ := Stands.finds_of_vacant hs h
  refine ⟨max (max f₁ f₂) (max f₃ f₄), fun b => ?_⟩
  generalize hfuel : max (max f₁ f₂) (max f₃ f₄) = fuel
  obtain ⟨⟨b1, d1⟩, h1, hd1⟩ := hfind fuel (by omega) ⟨b, d⟩ rfl
  obtain rfl : d1 = d := hd1
  obtain ⟨⟨b2, d2⟩, h2, hd2⟩ := hres fuel (by omega) ⟨b1, d1⟩ rfl
  obtain rfl : d2 = d1 := hd2
  obtain ⟨b3, h3⟩ := writeTarget_free (r := ⟨dir, name, none⟩) (hslot fuel (by omega)) b2
  obtain ⟨-, vacancy, -⟩ := id h
  obtain ⟨⟨x, hx, hl⟩, hoff⟩ := vacancy.place
  obtain ⟨hfew, -⟩ | ⟨-, u, first, cs, hwrite, hnew⟩ := writeNew_run hs h2 (Ready.vacant h).ne_fail
    h3 hr (vacancy.sits.not_free x hx) hl hoff hlen (inSectors_of_type ht)
  · exact absurd hfree (Nat.not_le.2 hfew)
  · have hstands := h.stands hr hnew.fills
    obtain ⟨⟨ok, w⟩, hmeta⟩ : ∃ r, fatSetFileMeta fuel fs (some sub)
        ⟨sIfreg ||| 0o644, c.uid.toUInt16, c.gid.toUInt16⟩ u = .ok r :=
      ⟨_, (hfinds _ _ hstands fuel (by omega)).fatSetFileMeta_run hs.sized.sector hs.initialized _
        u.buf⟩
    refine ⟨w, ?_⟩
    unfold writeFileAt
    rw [bind_of_ok h1]
    simp only [hgranted, pure_bind, if_true]
    rw [bind_of_ok hwrite]
    simp only [if_true]
    rw [bind_of_ok hmeta]
    rfl

/-- A file of any size that the call takes can be created there. -/
theorem roomy_writeFileAt {data : List UInt8} (hlen : data.length ≤ 65536) :
    ∃ fuel, ∀ b, ∃ u, writeFileAt fuel .root (some [0x46]) data roomyFs ⟨b, rootDisk []⟩ =
      .ok ((true, data.length), u) := by
  refine writeFileAt_vacant roomy_vacant roomyFs_sound (.inl rfl) (Disk.ofSectors_reliable _) hlen
    ?_ fun fuel => ?_
  · rw [roomy_freeCount]
    change (data.length + 511) / 512 ≤ 4096
    omega
  · rfl

/-! ## Calls that touch every byte -/

/-- A call of root's, with the string `s` at `p`. -/
def rootAt (v : Vmm) (fs : FatFs) (d : Disk) (p : UInt32) (s : List UInt8) : Kernel where
  vmm := v
  user := stringMem p s
  vfs := singleVfs fs d
  task := some .root
  mouse := (0, 0, 0)

section Full

variable {v : Vmm} {fs : FatFs} {d : Disk}

theorem path_rootAt (p : UInt32) {s : List UInt8} (h0 : (0 : UInt8) ∉ s)
    (hlen : s.length < 2 ^ 31) : (rootAt v fs d p s).path p = s := by
  have hread := stringAt_stringMem p s h0 hlen (2 ^ 32) 0 (by omega) (Nat.zero_le _)
  rw [show p + UInt32.ofNat 0 = p from UInt32.add_zero p, List.drop_zero] at hread
  exact hread

theorem resolve_rootAt_file (p : UInt32) :
    (rootAt v fs d p [0x46]).vfs.vfsResolve (some ((rootAt v fs d p [0x46]).path p)) =
      some (0, some [0x46]) := by
  rw [path_rootAt p (by decide) (by decide)]
  rfl

theorem rootAt_granted {p a : UInt32} {s : List UInt8} (h : v.vmmIsUserAccessible a = true) :
    ¬ (!(rootAt v fs d p s).accessible a) = true := by
  change ¬ (!v.vmmIsUserAccessible a) = true
  rw [h]
  exact Bool.false_ne_true

theorem readFileWith_full {filename buf maxSize : UInt32}
    (hq : ¬ BufferCall.RefusedRead v filename buf maxSize)
    (load : FatFs → Dirent → FatM (List UInt8)) {bytes : List UInt8}
    (hload : Reads (load chainFs largestFile) chainDisk bytes) :
    ∃ r, readFileWith 0x0FFFFFF6 (rootAt v chainFs chainDisk filename [0x46]) filename buf maxSize
      load = .ok r ∧ r.touched = bytes.length := by
  obtain ⟨s1, hs1, hd1⟩ := chain_find ⟨Sector.zero, chainDisk⟩ rfl
  obtain ⟨s2, hs2, -⟩ := hload s1 hd1
  have hcall : readFileAt 0x0FFFFFF6 .root (some [0x46]) load chainFs ⟨Sector.zero, chainDisk⟩ =
      .ok (some bytes, s2) := by
    unfold readFileAt
    rw [bind_of_ok hs1]
    simp only [show sysCheckEntry .root largestFile 4 = true from rfl, if_true]
    rw [bind_of_ok hs2]
    rfl
  have hrun := run_eq (v := (rootAt v chainFs chainDisk filename [0x46]).vfs) (i := 0)
    (x := readFileAt 0x0FFFFFF6 .root (some [0x46]) load) rfl hcall
  unfold BufferCall.RefusedRead at hq
  simp only [not_or, Bool.not_eq_false] at hq
  obtain ⟨hname, hbuf, hnameOk, hsize, hbufOk, hlastOk⟩ := hq
  unfold readFileWith
  rw [if_neg (not_or.2 ⟨hname, hbuf⟩), if_neg (rootAt_granted hnameOk), if_neg hsize,
    if_neg (rootAt_granted hbufOk), if_neg (rootAt_granted hlastOk), resolve_rootAt_file]
  simp only
  rw [show (rootAt v chainFs chainDisk filename [0x46]).creds = .root from rfl, hrun]
  exact ⟨_, rfl, rfl⟩

theorem sysWriteFile_full {filename data size : UInt32}
    (hq : ¬ (BufferCall.writeFile filename data size).Refused v) :
    ∃ fuel r, sysWriteFile fuel (rootAt v roomyFs (rootDisk []) filename [0x46]) filename data
      size = .ok r ∧ r.touched = size.toNat := by
  simp only [BufferCall.Refused, not_or, not_and, Bool.not_eq_false] at hq
  obtain ⟨hname, hdata, hnameOk, hsize, hdataOk, hlastOk⟩ := hq
  generalize hk : rootAt v roomyFs (rootDisk []) filename [0x46] = k
  have hlen : (k.bytesAt data size.toNat).length = size.toNat := by
    unfold Kernel.bytesAt
    rw [List.length_map, List.length_range]
  have hle := UInt32.le_iff_toNat_le.1 (UInt32.not_lt.1 hsize)
  obtain ⟨fuel, hcall⟩ := roomy_writeFileAt (hlen.trans_le hle)
  obtain ⟨u, hcall⟩ := hcall Sector.zero
  rw [hlen] at hcall
  subst hk
  have hrun := run_eq (v := (rootAt v roomyFs (rootDisk []) filename [0x46]).vfs) (i := 0)
    (x := writeFileAt fuel .root (some [0x46])
      ((rootAt v roomyFs (rootDisk []) filename [0x46]).bytesAt data size.toNat)) rfl hcall
  refine ⟨fuel, ?_⟩
  unfold sysWriteFile
  rw [if_neg (not_or.2 ⟨hname, hdata⟩), if_neg (rootAt_granted hnameOk), if_neg hsize,
    if_neg (rootAt_granted hdataOk),
    if_neg (not_and.2 fun h => rootAt_granted (hlastOk h)), resolve_rootAt_file]
  simp only
  rw [show (rootAt v roomyFs (rootDisk []) filename [0x46]).creds = .root from rfl, hrun]
  exact ⟨_, rfl, rfl⟩

theorem withVirtual_full {es : List Dirent} {max : UInt32} (h : es.length = max.toNat) :
    withVirtual es max = es := by
  have hnot : ¬ (es.length : Int) < signed max := by
    rw [h]
    unfold signed
    split <;> omega
  unfold withVirtual
  simp only [if_neg hnot]

theorem sysList_full {path buf max : UInt32} (hq : ¬ (BufferCall.list path buf max).Refused v) :
    ∃ r, sysList 0x0FFFFFF6 (rootAt v chainFs chainDisk 0 []) path buf max = .ok r ∧
      r.touched = 32 * max.toNat := by
  simp only [BufferCall.Refused, not_or, not_and, Bool.not_eq_false] at hq
  obtain ⟨hbuf, hmax, hpathOk, hbufOk, hlastOk⟩ := hq
  obtain ⟨es, hread, hlen⟩ := chain_readDir hmax
  obtain ⟨s, hs, -⟩ := hread ⟨Sector.zero, chainDisk⟩ rfl
  have hcall : listAt 0x0FFFFFF6 .root none max chainFs ⟨Sector.zero, chainDisk⟩ =
      .ok (some es, s) := by
    unfold listAt
    change ((do
      let entries ← fatReadDir 0x0FFFFFF6 chainFs 0 max
      pure (some entries)) : FatM (Option (List Dirent))) _ = _
    rw [bind_of_ok hs]
    rfl
  have hrun := run_eq (v := (rootAt v chainFs chainDisk 0 []).vfs) (i := 0)
    (x := listAt 0x0FFFFFF6 .root none max) rfl hcall
  -- the path is empty or missing
  have hempty : (rootAt v chainFs chainDisk 0 []).path path = [] := rfl
  have hstring : (if path = 0 then none else some [] : Option (List UInt8)).getD [] = [] := by
    split <;> rfl
  have hres : (rootAt v chainFs chainDisk 0 []).vfs.vfsResolve
      (if path = 0 then none else some []) = some (0, none) := by
    split <;> rfl
  unfold sysList
  rw [if_neg (not_or.2 ⟨hbuf, hmax⟩), if_neg (not_and.2 fun h => rootAt_granted (hpathOk h)),
    if_neg (rootAt_granted hbufOk), if_neg (rootAt_granted hlastOk)]
  simp only [hempty, hstring, hres]
  rw [if_neg (show ¬ isVirtualDir [] [0x44, 0x45, 0x56] = true from Bool.false_ne_true),
    if_neg (show ¬ isVirtualDir [] [0x4D, 0x4E, 0x54] = true from Bool.false_ne_true),
    show (rootAt v chainFs chainDisk 0 []).creds = .root from rfl, hrun]
  refine ⟨_, rfl, congrArg (32 * ·) ?_⟩
  -- the virtual directories do not fit any more
  rw [withVirtual_full hlen, ite_self]
  exact hlen

/-- **A call that its checks let go on touches all of its size** on some volume. -/
theorem exists_full {q : BufferCall} (hq : ¬ q.Refused v) :
    ∃ fuel k r, k.vmm = v ∧ q.run fuel k = .ok r ∧ r.touched = q.size := by
  cases q with
  | readFile filename buf maxSize =>
    obtain ⟨r, hr, ht⟩ := readFileWith_full hq
      (fun fs e => fatLoadFile 0x0FFFFFF6 fs e maxSize)
      (chain_file.load chainFs_sound chainDisk_reliable.readable maxSize)
    refine ⟨_, _, r, rfl, hr, ht.trans ?_⟩
    have hlt := maxSize.toNat_lt
    rw [List.length_take, length_chain_contents]
    exact min_eq_left (by omega)
  | readFileOff filename offset buf maxSize =>
    obtain ⟨r, hr, ht⟩ := readFileWith_full hq
      (fun fs e => fatLoadFileOff 0x0FFFFFF6 fs e offset maxSize)
      (chain_file.loadOff chainFs_sound chainDisk_reliable.readable offset maxSize)
    refine ⟨_, _, r, rfl, hr, ht.trans ?_⟩
    rw [List.length_take, List.length_drop, length_chain_contents]
    rfl
  | writeFile filename data size =>
    obtain ⟨fuel, r, hr, ht⟩ := sysWriteFile_full hq
    exact ⟨fuel, _, r, rfl, hr, ht⟩
  | list path buf max =>
    obtain ⟨r, hr, ht⟩ := sysList_full hq
    exact ⟨_, _, r, rfl, hr, ht⟩
  | getmouse buf =>
    simp only [BufferCall.Refused, not_or, Bool.not_eq_false] at hq
    obtain ⟨hbuf, hbufOk, hlastOk⟩ := hq
    refine ⟨0, rootAt v chainFs chainDisk 0 [], ?_⟩
    unfold BufferCall.run sysGetmouse
    simp only
    rw [if_neg hbuf, if_neg (rootAt_granted hbufOk), if_neg (rootAt_granted hlastOk)]
    exact ⟨_, rfl, rfl, rfl⟩

end Full

/-! ## What the checks leave out -/

/-- **Which buffers are accessible as a whole**: whatever a call that returns has found in memory
and on the volumes, every byte that it touched is accessible, if and only if its arguments are
refused or every page that begins inside the buffer is accessible. A call that touches less than the
whole buffer touches accessible bytes only if and only if this holds of the pages it comes to. -/
theorem user_buffer_accessible_iff (v : Vmm) (q : BufferCall) :
    (q.Safe v ↔ q.Refused v ∨ Spans v q.buf q.size) ∧
      ∀ fuel k r, k.vmm = v → q.run fuel k = .ok r → r.touched ≤ q.size ∧
        (Accessible v q.buf r.touched ↔ Spans v q.buf r.touched) := by
  by_cases hq : q.Refused v
  · have hnone : ∀ fuel k r, k.vmm = v → q.run fuel k = .ok r → r.touched = 0 := by
      intro fuel k r hk hrun
      subst hk
      cases (BufferCall.run_refused hq).symm.trans hrun
      rfl
    refine ⟨iff_of_true (fun fuel k r hk hrun => ?_) (.inl hq), fun fuel k r hk hrun => ?_⟩
    · rw [hnone fuel k r hk hrun]
      exact .zero
    · rw [hnone fuel k r hk hrun]
      exact ⟨Nat.zero_le _, iff_of_true .zero .zero⟩
  · have hfirst := BufferCall.first_accessible hq
    refine ⟨?_, fun fuel k r _ hrun => ⟨BufferCall.run_touched hrun, (spans_iff hfirst).symm⟩⟩
    rw [or_iff_right hq, spans_iff hfirst]
    constructor
    · intro hsafe
      obtain ⟨fuel, k, r, hk, hrun, htouched⟩ := exists_full hq
      exact htouched ▸ hsafe fuel k r hk hrun
    · intro hall fuel k r _ hrun
      exact hall.mono (BufferCall.run_touched hrun)

/-- Page tables at 0x3000 and 0x4000: pages 1 and 3 are the user's, page 2 between them the
kernel's. -/
def threePages : Vmm := ⟨⟨fun a =>
  if a = 0x3000 then 7 else if a = 0x3001 then 0x40
  else if a = 0x4004 then 7 else if a = 0x4005 then 0x10
  else if a = 0x4008 then 3 else if a = 0x4009 then 0x20
  else if a = 0x400C then 7 else if a = 0x400D then 0x30 else 0, 0, 0, 0, 0, 0⟩, 0x3000, 0x3000⟩

/-- `sys_read_file` writes over the page between two accessible ones, and `sys_getmouse` the last
byte of its third word to the page behind the one that it has checked. -/
theorem inner_page_overwritten :
    ¬ (BufferCall.readFile 0x1000 0x1000 0x3000).Safe threePages ∧
      ¬ (BufferCall.getmouse 0x1FF5).Safe threePages := by
  have hread : ¬ (BufferCall.readFile 0x1000 0x1000 0x3000).Refused threePages := by
    unfold BufferCall.Refused BufferCall.RefusedRead
    decide +kernel
  have hmouse : ¬ (BufferCall.getmouse 0x1FF5).Refused threePages := by
    unfold BufferCall.Refused
    decide +kernel
  have hkernel : ¬ threePages.vmmIsUserAccessible 0x2000 = true := by decide +kernel
  constructor
  · intro hsafe
    obtain ⟨fuel, k, r, hk, hrun, htouched⟩ := exists_full hread
    exact hkernel (hsafe fuel k r hk hrun 0x1000 (by rw [htouched]; decide))
  · intro hsafe
    obtain ⟨fuel, k, r, hk, hrun, htouched⟩ := exists_full hmouse
    exact hkernel (hsafe fuel k r hk hrun 11 (by rw [htouched]; decide))

end HaoSys.Syscall
