import HaoSys.Fs.OpenDir
import HaoSys.Fs.Rollback
import HaoSys.Fs.Vacancy

/-!
# Building a directory

`fat_mkdir` takes the first free cluster, clears it, puts `.` and `..` into it
and its entry into the parent's first free slot. `Made` says what this makes of
the device, byte by byte; the path leads to the new directory afterwards
(`fat_mkdir_builds`).
-/

namespace HaoSys.Fs

open HaoSys.Lib Prog DirSlot

namespace FatFs

variable {fs : FatFs} {d d' : Disk} {fuel : Nat} {dir z c : UInt32} {ps cs : List UInt32}
  {name : Name83} {pre post : List DirSlot} {t : DirSlot} {path : List UInt8}

/-! ## What the call makes of the device -/

/-- The first sector of the new directory. -/
def dotsSector (c dir : UInt32) : Sector :=
  Sector.ofDirents [newDirent dotName 0x10 c 0, newDirent dotdotName 0x10 dir 0]

/-- Cluster `c` has become a directory below `dir`, entered at the slot `t`. -/
structure Made (fs : FatFs) (d d' : Disk) (c dir : UInt32) (name : Name83) (t : DirSlot) :
    Prop where
  free : fs.Free d c
  table : fs.table d' c = fs.kept chainMark
  bytes : ∀ o, o < fs.fatSize.toNat * 512 → ¬ fs.InEntry c o → fs.fatByte d' o = fs.fatByte d o
  copies : fs.SameCopies d'
  dots : d'.sector (fs.baseLba + clusterLba fs c) = dotsSector c dir
  fills : fs.Fills (· = c) (· = c) t.lba t.offset (newDirent name 0x10 c 0) d d'

/-- The dots are all that stands in a cleared sector. -/
theorem dotsSector_eq (c dir : UInt32) :
    (Sector.zero.setDirent 0 (newDirent dotName 0x10 c 0)).setDirent 32
      (newDirent dotdotName 0x10 dir 0) = dotsSector c dir := by
  funext k
  unfold dotsSector Sector.setDirent Sector.ofDirents Sector.zero
  by_cases h1 : 32 ≤ k.val ∧ k.val < 64
  · have hdiv : k.val / 32 = 1 := by omega
    have hmod : k.val - 32 = k.val % 32 := by omega
    rw [dif_pos (by omega)]
    simp [hdiv, hmod]
  · rw [dif_neg (by omega)]
    by_cases h0 : k.val < 32
    · have hdiv : k.val / 32 = 0 := by omega
      have hmod : k.val - 0 = k.val % 32 := by omega
      rw [dif_pos (by omega)]
      simp only [hdiv, hmod, List.getD_cons_zero]
    · have hdiv : 2 ≤ k.val / 32 := by omega
      rw [dif_neg (by omega), List.getD_eq_default _ _ (by simpa using hdiv)]

/-- The sectors of the FATs are the same on two devices. -/
def FatsKept (fs : FatFs) (d d' : Disk) : Prop :=
  ∀ i, i < 2 * fs.fatSize.toNat → d'.sector (fs.fatSector i) = d.sector (fs.fatSector i)

theorem Sound.fatsKept_write (hs : fs.Sound) {x l : UInt32} (hx : fs.Place x)
    (hl : l ∈ fs.regionSectors x) (b : Sector) : fs.FatsKept d (d.write (fs.baseLba + l) b) := by
  intro i hi
  rw [Disk.write_sector, if_neg fun h => hs.offFat hx hl i hi h.1.symm]

theorem FatsKept.fatByte (h : fs.FatsKept d d') {o : Nat} (ho : o < fs.fatSize.toNat * 512) :
    fs.fatByte d' o = fs.fatByte d o := by
  unfold FatFs.fatByte
  rw [h (o / 512) (by omega)]

theorem FatsKept.sameCopies (h : fs.FatsKept d d') (hc : fs.SameCopies d) : fs.SameCopies d' := by
  intro i hi
  rw [h _ (by omega), h _ (by omega)]
  exact hc i hi

/-- **The call**, from a path that resolves to its parent without an entry. -/
theorem Gap.fatMkdir_run (hgap : fs.Gap d dir ps z name pre t post) (hs : fs.Sound)
    (ht : fs.fsType = .fat16) (hr : d.Reliable) (hcopies : fs.SameCopies d)
    (hres : Reads (fatResolveParent fuel fs (some path)) d ⟨dir, name, none⟩)
    (hfuel : ps.length ≤ fuel) (hfree : ∃ x, fs.Free d x) (b : Sector) :
    ∃ u c, fatMkdir fuel fs (some path) ⟨b, d⟩ = .ok (true, u) ∧
      fs.Made d u.disk c dir name t := by
  obtain ⟨⟨b1, d1⟩, h1, hd1⟩ := hres ⟨b, d⟩ rfl
  obtain rfl : d1 = d := hd1
  obtain ⟨b2, h2⟩ := findFirst_run (s := ⟨b1, d1⟩) hs hr
  obtain ⟨x, hx⟩ := hfree
  obtain ⟨c, hfirst⟩ := exists_firstFree hx
  rw [hfirst] at h2
  have hc : fs.Free d1 c := free_of_firstFree (List.mem_of_mem_head? hfirst)
  have hx : ¬ fs.Crosses c := not_crosses (.inl ht)
  -- the entry of the cluster, then its sectors
  obtain ⟨t3, h3, hw3, htable3⟩ := hs.writeFatEntry_run (s := ⟨b2, d1⟩) hc.1 hx chainMark hr
  obtain ⟨t3', h3', hd3, -⟩ :=
    hs.twoFats.writeFatEntry_stores (hs.inFat hc.1) hx chainMark ⟨b2, d1⟩ hr.readable
  obtain rfl : t3 = t3' := by
    have := h3.symm.trans h3'
    cases this
    rfl
  have hmem := clusterLba_mem hs hc.1
  obtain ⟨t4, h4, hw4, hother4, -, hzero4⟩ := zeroSectors_run (s := t3) hs (.inr hc.1)
    fs.sectorsPerCluster.toNat (clusterLba fs c)
    (fun l hl => by rw [regionSectors_cluster hc.1]; exact hl) (hw3.reliable hr)
  have hgrow4 : fs.ChangesIn (· = c) (· = c) d1 t4.disk :=
    (hw3.mono (fun _ => id) nofun).trans (hw4.mono nofun fun _ => id)
  obtain ⟨t5, h5, hw5, hd5⟩ := storeDots_run (s := t4) hs (hgrow4.reliable hr) (.inr hc.1) hmem dir
  have hgrow5 : fs.ChangesIn (· = c) (· = c) d1 t5.disk :=
    hgrow4.trans (hw5.mono nofun fun _ => id)
  -- the parent's slots are still there
  have hapart : ∀ x ∈ ps, fs.Place x ∧ ¬ x = c := fun x hxm =>
    ⟨(hgap.sits.not_free x hxm).1, fun he => (hgap.sits.not_free x hxm).2 (he ▸ hc)⟩
  have hslots : fs.dirSlots t5.disk ps = fs.dirSlots d1 ps :=
    hgrow5.dirSlots hs (fun x he => he ▸ hc.1) hapart
  have hdir5 : fs.DirAt t5.disk dir ps z := hgap.sits.walk.imp_right fun ⟨hw, hne⟩ =>
    ⟨⟨hw.follows.congr fun x hxm => hgrow5.table x (hapart x hxm).2, hw.valid⟩, hne⟩
  have hr5 := hgrow5.reliable hr
  obtain ⟨⟨b6, d6⟩, h6, hd6⟩ := hdir5.findSlot hs.sized hr5.readable
    (hslots ▸ hgap.vacancy.findSlot) hfuel t5 rfl
  obtain rfl : d6 = t5.disk := hd6
  obtain ⟨⟨x, hxm, hl⟩, hoff⟩ := hgap.vacancy.place
  obtain ⟨b7, h7⟩ := storeDirent_run fs t.lba (newDirent name 0x10 c 0) (s := ⟨b6, t5.disk⟩)
    hr5 hoff
  have hkept : fs.FatsKept t3.disk (t5.disk.write (fs.baseLba + t.lba)
      ((t5.disk.sector (fs.baseLba + t.lba)).setDirent t.offset.toNat
        (newDirent name 0x10 c 0))) := by
    intro i hi
    rw [hs.fatsKept_write (hapart x hxm).1 hl _ i hi, hd5,
      hs.fatsKept_write (.inr hc.1) hmem _ i hi]
    exact hother4 _ fun l hlm he => hs.offFat (.inr hc.1) hlm i hi he.symm
  refine ⟨⟨b7, t5.disk.write (fs.baseLba + t.lba) ((t5.disk.sector (fs.baseLba + t.lba)).setDirent
    t.offset.toNat (newDirent name 0x10 c 0))⟩, c, ?_, hc, ?_, ?_, ?_, ?_,
    hgrow5.fills hs hr (hapart x hxm).1 hl⟩
  · unfold fatMkdir
    rw [if_neg (by simp [hs.initialized]), bind_of_ok h1,
      if_neg (by simp [hgap.sits.walk.ne_fail]), bind_of_ok (maxCluster_eq hs.sized.cluster _),
      bind_of_ok h2]
    simp only
    rw [bind_of_ok h3, bind_of_ok h4]
    unfold mkdirFill
    simp only [bind_assoc]
    rw [bind_of_ok h5]
    simp only [if_true]
    unfold mkdirTarget
    simp only [bind_assoc]
    rw [bind_of_ok h6]
    simp only [pure_bind]
    rw [bind_of_ok h7]
    rfl
  · have hw8 := hs.within_write (d := t5.disk) (hapart x hxm).1 hl
      ((t5.disk.sector (fs.baseLba + t.lba)).setDirent t.offset.toNat (newDirent name 0x10 c 0))
    rw [hw8.table c (by simp), hw5.table c (by simp), hw4.table c (by simp), htable3]
  · intro o ho hno
    rw [hkept.fatByte ho, hd3, hs.twoFats.fatByte_store (.inl ht) hr (hs.inFat hc.1).2 chainMark ho,
      if_neg hno]
  · refine hkept.sameCopies ?_
    rw [hd3]
    exact (hs.onlyEntries_store (.inl ht) hr hcopies hc.1 chainMark).copies
  · -- the slot is in another sector than the dots
    have hne : fs.baseLba + clusterLba fs c ≠ fs.baseLba + t.lba := fun he => by
      rw [UInt32.add_right_inj] at he
      exact (hapart x hxm).2 (hs.region_inj (hapart x hxm).1 (.inr hc.1) hl (he ▸ hmem))
    have hok : t4.disk.wrote (fs.baseLba + clusterLba fs c) = true :=
      (hgrow4.reliable hr).writable _ _
    have hmem' : clusterLba fs c ∈ sectorsFrom (clusterLba fs c) fs.sectorsPerCluster.toNat := by
      rw [← regionSectors_cluster hc.1]
      exact hmem
    have h16 : ¬ (dir = 0 ∧ fs.fsType = .fat32) := by simp [ht]
    rw [Disk.write_sector, if_neg fun h => hne h.1, hd5, Disk.write_sector, if_pos ⟨rfl, hok⟩,
      hzero4 _ hmem', if_neg h16, dotsSector_eq]

/-! ## The new directory -/

theorem newDirent_firstCluster (n : Name83) (a : UInt8) (c s : UInt32) :
    (newDirent n a c s).firstCluster = c := le32_byte c

theorem newDirent_isDir (n : Name83) (c s : UInt32) : (newDirent n 0x10 c s).isDir = true :=
  show ((0x10 : UInt8) &&& 0x10 != 0) = true by decide

/-- A slot of the parent was filled. -/
theorem Made.filled (hm : fs.Made d d' c dir name t) (hlive : (newDirent name 0x10 c 0).IsLive)
    (hname : (newDirent name 0x10 c 0).upperName = name) :
    fs.Filled d d' name t (newDirent name 0x10 c 0) := by
  refine ⟨hm.fills.mono ?_ ?_, hlive, hname⟩ <;>
  · rintro x rfl
    exact hm.free

/-- **It lists two entries.** -/
theorem Made.lists (hm : fs.Made d d' c dir name t) (hs : fs.Sound)
    (hr : ∀ a, d'.readable a = true) {m : UInt32} (h2 : 2 < m.toNat) (hfuel : 1 ≤ fuel) :
    Reads (fatReadDir fuel fs c m) d'
      [newDirent dotName 0x10 c 0, newDirent dotdotName 0x10 dir 0] := by
  have hwalk : DirWalk fs d' c [c] (fs.kept chainMark) := by
    refine ⟨⟨rfl, hm.table⟩, fun x hx => ?_⟩
    rw [List.mem_singleton.1 hx]
    exact ⟨hm.free.1.1, hs.inFat hm.free.1⟩
  obtain ⟨-, hstart⟩ := dirStart_of_walk hwalk (by simp)
  have hdir : fs.DirAt d' c [c] (fs.kept chainMark) := .inr ⟨hstart.symm ▸ hwalk, by simp⟩
  obtain ⟨n, hn⟩ : ∃ n, fs.sectorsPerCluster.toNat = n + 1 := by
    refine ⟨fs.sectorsPerCluster.toNat - 1, ?_⟩
    have hpos : fs.sectorsPerCluster.toNat ≠ 0 := fun h0 =>
      hs.sized.cluster (UInt32.toNat_inj.1 (by rw [h0, UInt32.toNat_zero]))
    omega
  have hdots : ∀ e ∈ [newDirent dotName 0x10 c 0, newDirent dotdotName 0x10 dir 0], e.IsLive := by
    intro e he
    obtain rfl | he := List.mem_cons.1 he
    · exact ⟨show dotName 0 ≠ 0x00 by decide, show dotName 0 ≠ 0xE5 by decide⟩
    · rw [List.mem_singleton.1 he]
      exact ⟨show dotdotName 0 ≠ 0x00 by decide, show dotdotName 0 ≠ 0xE5 by decide⟩
  obtain ⟨hlive, hend⟩ := Sector.slots_ofDirents (by simp) hdots (clusterLba fs c)
  have hslots : fs.dirSlots d' [c] = (dotsSector c dir).slotsFrom (clusterLba fs c) 0 16 ++
      fs.slots d' (sectorsFrom (clusterLba fs c + 1) n) := by
    rw [dirSlots_cons, dirSlots_nil, List.append_nil, regionSectors_cluster hm.free.1, hn,
      sectorsFrom, ← hm.dots]
    rfl
  have hlive' : live (fs.dirSlots d' [c]) =
      live ((dotsSector c dir).slotsFrom (clusterLba fs c) 0 16) := by
    rw [hslots, live_append, show ended ((dotsSector c dir).slotsFrom (clusterLba fs c) 0 16) = true
      from hend, if_pos rfl]
  have hlen : (live (fs.dirSlots d' [c])).length = 2 := by
    rw [hlive', ← List.length_map DirSlot.entry]
    exact congrArg List.length hlive
  have hstays : fs.StaysIn d' m.toNat c [c] (fs.kept chainMark) := by
    refine .inr (.inl ⟨?_, by omega⟩)
    rw [hslots, ended_append, show ended ((dotsSector c dir).slotsFrom (clusterLba fs c) 0 16) = true
      from hend, Bool.true_or]
  have hm0 : m ≠ 0 := fun h0 => by
    rw [h0] at h2
    exact absurd h2 (by decide)
  have hread := hdir.readDir_inside hs.sized hs.initialized hr hm0 hstays
    (show [c].length ≤ fuel from hfuel)
  rw [List.take_of_length_le (by rw [List.length_map]; omega), hlive'] at hread
  exact (show _ = _ from hlive) ▸ hread

/-! ## The whole -/

/-- After `fat_mkdir` for `path`: cluster `c`, which was free, is a directory with two entries to
which the path leads, the slot `t` below `dir` has changed, and nothing else. -/
structure Built (fs : FatFs) (d d' : Disk) (fuel : Nat) (path : List UInt8) (dir c : UInt32)
    (t : DirSlot) : Prop where
  free : fs.Free d c
  opens : Reads (fatOpenDir fuel fs (some path)) d' c
  lists : ∀ m : UInt32, 2 < m.toNat → Reads (fatReadDir fuel fs c m) d'
    [newDirent dotName 0x10 c 0, newDirent dotdotName 0x10 dir 0]
  slot : ∃ e, d'.sector (fs.baseLba + t.lba) =
    (d.sector (fs.baseLba + t.lba)).setDirent t.offset.toNat e
  others : ∀ a, fs.OffFat a → a ≠ fs.baseLba + t.lba →
    (∀ l ∈ fs.regionSectors c, a ≠ fs.baseLba + l) → d'.sector a = d.sector a
  bytes : ∀ o, o < fs.fatSize.toNat * 512 → ¬ fs.InEntry c o → fs.fatByte d' o = fs.fatByte d o
  entry : fs.table d' c ≠ fs.table d c
  copies : fs.SameCopies d'

/-- With enough fuel, `fat_mkdir` returns true and builds the directory. -/
def BuildsDir (fs : FatFs) (d : Disk) (path : List UInt8) (dir : UInt32) (t : DirSlot) : Prop :=
  ∃ f₀, ∀ fuel ≥ f₀, ∀ b, ∃ u c, fatMkdir fuel fs (some path) ⟨b, d⟩ = .ok (true, u) ∧
    fs.Built d u.disk fuel path dir c t

/-- **`fat_mkdir` builds an empty directory** where the listings of the directories on the path stay
in them, of the parent also with one entry more, and the name does not begin with the mark of a
deleted entry. -/
theorem fat_mkdir_builds (hs : fs.Sound) (ht : fs.fsType = .fat16) (hr : d.Reliable)
    (hcopies : fs.SameCopies d) (hstring : (0x00 : UInt8) ∉ path)
    (hlast : (splitPath path).2 = some name) (hgap : fs.Gap d dir ps z name pre t post)
    (hfree : ∃ x, fs.Free d x) (hpasses : fs.Passes d ps dir (splitPath path).1 0)
    (hroom : Vacancy.Room fs dir z pre post) (hproper : name 0 ≠ 0xE5) :
    fs.BuildsDir d path dir t := by
  have hnames : pathNames path = (splitPath path).1 ++ [name] := pathNames_of_last_some hlast
  obtain ⟨hupper, h0⟩ := pathNames_spec hstring (show name ∈ pathNames path by rw [hnames]; simp)
  have hlive : ∀ c, (newDirent name 0x10 c 0).IsLive := fun c => ⟨h0, hproper⟩
  have hname : ∀ c, (newDirent name 0x10 c 0).upperName = name := fun c =>
    newDirent_upperName hupper 0x10 c 0
  obtain ⟨f₁, e, hwalk⟩ := hpasses.walkDirs hs hr.readable fun _ => 0
  have hv := hgap.vacancy
  obtain ⟨f₂, hafter⟩ := hpasses.walkDirs_filled hv hs hroom
  refine ⟨max (max f₁ f₂) (ps.length + 1), fun fuel hfuel b => ?_⟩
  have hres := reads_fatResolveParent (hwalk fuel (by omega)) hlast
    (hv.findName hs hr.readable (by omega))
  obtain ⟨u, c, hrun, hm⟩ := hgap.fatMkdir_run hs ht hr hcopies hres (by omega) hfree b
  have hr' := (hm.fills.reliable hr).readable
  have hfilled := hm.filled (hlive c) (hname c)
  refine ⟨u, c, hrun, hm.free, ?_, fun m h2 => hm.lists hs hr' h2 (by omega), ?_, ?_, hm.bytes, ?_,
    hm.copies⟩
  · obtain ⟨e', hwalk'⟩ := hafter u.disk _ hfilled hr' fun _ => 0
    have hlook := hfilled.findName hv hs hroom hr' (show ps.length < fuel by omega)
    refine (fatOpenDir_reads fun _ => 0).2
      ⟨some (c, newDirent name 0x10 c 0), ?_, rfl⟩
    rw [hnames, walkDirs_snoc]
    refine (hwalk' fuel (by omega)).bind ((walkDirs_single name _ _).2 ⟨_, hlook, ?_⟩)
    rw [Option.filter_some, newDirent_isDir, if_pos rfl, Option.map_some, newDirent_firstCluster]
  · obtain ⟨⟨x, hx, hl⟩, -⟩ := hv.place
    have hplace := hgap.sits.not_free x hx
    refine ⟨_, (hm.fills.sector _ (hs.offFat hplace.1 hl) ?_).trans (if_pos rfl)⟩
    rintro y rfl l' hl' he
    rw [UInt32.add_right_inj] at he
    rw [← he] at hl'
    exact hplace.2 (hs.region_inj hplace.1 (.inr hm.free.1) hl hl' ▸ hm.free)
  · intro a ha hne hout
    rw [hm.fills.sector a ha (by rintro y rfl; exact hout), if_neg hne]
  · rw [hm.table, hm.free.2]
    unfold kept
    rw [ht]
    decide

/-- In the root of an empty volume. -/
theorem fat_mkdir_builds_root :
    sampleFs.BuildsDir ⟨fun _ => Sector.zero, fun _ => true, fun _ _ => true, 0⟩ [0x4E] 0
      ⟨3, 0, fun _ => 0⟩ :=
  fat_mkdir_builds sampleFs_sound rfl ⟨fun _ => rfl, fun _ _ => rfl⟩ (fun _ _ => rfl) (by decide)
    (show (splitPath [0x4E]).2 = some (makeName83 [0x4E]) from rfl)
    (show sampleFs.Gap _ 0 [0] 0 (makeName83 [0x4E]) [] _
      (sampleFs.dirSlots ⟨fun _ => Sector.zero, fun _ => true, fun _ _ => true, 0⟩ [0]).tail from
      ⟨⟨.inl ⟨rfl, rfl⟩, .inl (.inl rfl), fun c hc => .inl (List.mem_singleton.1 hc),
        fun c hc => .inl (List.mem_singleton.1 hc)⟩, fun h => absurd h.1 (by decide),
        by decide +kernel, nofun, .inl rfl,
        by decide +kernel, by decide +kernel, by decide +kernel⟩)
    ⟨2, ⟨by decide, by decide⟩, by decide +kernel⟩ (by exact .here) (.inl rfl) (by decide)

/-- A FAT16 volume with 17 clusters of 16 sectors and FATs of one sector. -/
def wideFs : FatFs := ⟨0, 1, 2, 1, 1, 4, 276, 16, 512, .fat16, 0, true⟩

theorem wideFs_sound : wideFs.Sound := by
  refine ⟨⟨rfl, by decide, by decide⟩, rfl, by decide, rfl, rfl, by decide, by decide,
    by decide, fun c hc => ?_, by decide, by decide⟩
  have hlim : wideFs.clusterLimit.toNat = 19 := by decide
  rw [hlim] at hc
  change c * 2 + 2 ≤ 1 * 512
  omega

/-- A sector of `n` empty files. -/
def emptyFiles (a : UInt32) (n : Nat) : Sector :=
  Sector.ofDirents <| (List.range n).map fun i =>
    newDirent (makeName83 [UInt8.ofNat (0x41 + i), UInt8.ofNat (0x41 + a.toNat)]) 0x20 0 0

/-- Cluster 2 is the directory D with 127 empty files; cluster 17 is the file F, in which the entry
number 0xFFF8 of the FAT would lie, were the FAT that long. It reads 0xFFF8. -/
def almostFull : Disk :=
  ⟨fun a =>
    if a = 1 ∨ a = 2 then (Sector.zero.set16 4 0xFFF8).set16 34 0xFFF8
    else if a = 3 then Sector.ofDirents [newDirent (makeName83 [0x44]) 0x10 2 0,
      newDirent (makeName83 [0x46]) 0x20 17 8192]
    else if 4 ≤ a ∧ a ≤ 10 then emptyFiles a 16
    else if a = 11 then emptyFiles a 15
    else if a = 256 then Sector.zero.set16 0x1F0 0xFFF8
    else Sector.zero, fun _ => true, fun _ _ => true, 0⟩

theorem almostFull_sameCopies : wideFs.SameCopies almostFull := by
  intro i hi
  change i < 1 at hi
  obtain rfl : i = 0 := by omega
  rfl

/-- The slots of D: one more entry is the 128th. -/
theorem almostFull_gap : wideFs.Gap almostFull 2 [2] 0xFFF8 (makeName83 [0x4E])
    ((wideFs.dirSlots almostFull [2]).take 127)
    ((wideFs.dirSlots almostFull [2]).getD 127 ⟨0, 0, fun _ => 0⟩)
    ((wideFs.dirSlots almostFull [2]).drop 128) := by
  have hlen : 127 < (wideFs.dirSlots almostFull [2]).length := by decide +kernel
  refine ⟨⟨.inr ⟨⟨by decide +kernel, fun x hx => ?_⟩, by simp⟩, .inl (.inr (.inl (by decide +kernel))),
    fun x hx => ?_, fun x hx => ?_⟩, fun h => absurd h.2 (by decide), ?_, by decide +kernel,
    by decide +kernel, by decide +kernel, by decide +kernel, by decide +kernel⟩
  · rw [List.mem_singleton.1 hx]
    exact ⟨by decide, by decide, by decide⟩
  · rw [List.mem_singleton.1 hx]
    exact .inr ⟨by decide, by decide⟩
  · rw [List.mem_singleton.1 hx]
    exact .inr (by decide +kernel)
  · rw [List.getD_eq_getElem _ _ hlen, ← List.drop_eq_getElem_cons hlen, List.take_append_drop]

theorem almostFull_root : wideFs.Sits almostFull 0 [0] 0 :=
  ⟨.inl ⟨by decide, rfl⟩, .inl (.inl (by decide)), fun _ hx => .inl (List.mem_singleton.1 hx),
    fun _ hx => .inl (List.mem_singleton.1 hx)⟩

/-- The path passes the root. -/
theorem almostFull_passes : wideFs.Passes almostFull [2] 2 (splitPath [0x44, 0x2F, 0x4E]).1 0 := by
  have hfound : ((live (wideFs.dirSlots almostFull [0])).take 128).find?
      (fun t => t.entry.upperName = makeName83 [0x44]) =
      some ⟨3, 0, newDirent (makeName83 [0x44]) 0x10 2 0⟩ := by decide +kernel
  have hsplit : (splitPath [0x44, 0x2F, 0x4E]).1 = [makeName83 [0x44]] := rfl
  have hbeside : Beside [2] [0] := .inr (by simp)
  have hrest : wideFs.Passes almostFull [2] 2 []
      (newDirent (makeName83 [0x44]) 0x10 2 0).firstCluster := by
    rw [newDirent_firstCluster]
    exact .here
  rw [hsplit]
  exact .step almostFull_root hbeside hfound (newDirent_isDir (makeName83 [0x44]) 2 0) hrest

/-- Behind a new entry, the 128th of D, a listing goes on at the number 0xFFF8, and does not end. -/
theorem almostFull_not_read {d' : Disk} {e : Dirent} {n : Name83} {o : Option Dirent}
    (h : wideFs.Filled almostFull d' (makeName83 [0x4E])
      ((wideFs.dirSlots almostFull [2]).getD 127 ⟨0, 0, fun _ => 0⟩) e) (hr : d'.Reliable) :
    ¬ Reads (dirFindName fuel wideFs 2 n) d' o := by
  intro ho
  obtain ⟨es, hes, -⟩ := dirFindName_iff.1 ho
  have hd := h.dirAt almostFull_gap.sits
  have hcount : (live (wideFs.dirSlots d' [2])).length = 128 := by
    rw [h.parent_live almostFull_gap.vacancy wideFs_sound, List.length_append, List.length_cons]
    decide +kernel
  have hout : ¬ wideFs.StaysIn d' (128 : UInt32).toNat 2 [2] 0xFFF8 := by
    rintro (h | ⟨-, h⟩ | h)
    · exact absurd h (by decide)
    · rw [hcount] at h
      exact absurd h (by decide)
    · exact absurd h (by decide)
  obtain ⟨k, -, hk, -⟩ := (hd.readDir_behind wideFs_sound.sized rfl hr.readable (by decide) hout
    fuel).1 (fatReadDir_mono rfl (Nat.le_add_left _ _) hes)
  -- the entry behind the FAT is a word of F
  have hword : d'.sector 256 = Sector.zero.set16 0x1F0 0xFFF8 := by
    have h17 : wideFs.Place 17 := .inr ⟨by decide, by decide⟩
    have hmem : (256 : UInt32) ∈ wideFs.regionSectors 17 := by decide +kernel
    have hoff := wideFs_sound.offFat h17 hmem
    refine (h.fills.sector 256 (by simpa [wideFs] using hoff) ?_).trans ?_
    · intro x hfree l hl he
      obtain rfl : l = 256 := by simpa [wideFs] using he.symm
      obtain rfl := wideFs_sound.region_inj (.inr hfree.1) h17 hl hmem
      exact absurd hfree.2 (by decide +kernel)
    · rw [if_neg (by decide +kernel)]
      rfl
  have hnext : wideFs.next d' 0xFFF8 = 0xFFF8 := by
    refine next_of_reads rfl ?_
    rintro ⟨b, x⟩ rfl
    have hplace : fatPlace wideFs (fatOffset wideFs 0xFFF8) ⟨b, x⟩ = .ok ((0x1F0, 256), ⟨b, x⟩) :=
      rfl
    have hval : ((x.sector (wideFs.baseLba + 256)).get16 0x1F0).toUInt32 = 0xFFF8 :=
      (congrArg (fun s : Sector => (s.get16 0x1F0).toUInt32) hword).trans (by decide)
    refine ⟨⟨x.sector (wideFs.baseLba + 256), x⟩, ?_, rfl⟩
    change (fatPlace wideFs (fatOffset wideFs 0xFFF8) >>= _ : FatM UInt32) ⟨b, x⟩ = _
    rw [bind_of_ok hplace]
    change (fatDevRead wideFs 256 >>= _ : FatM UInt32) ⟨b, x⟩ = _
    rw [bind_of_ok (fatDevRead_of_readable (hr.readable _))]
    simp only [if_true]
    rw [bufRead_run (by decide)]
    exact congrArg (fun v : UInt32 => Except.ok (v, _)) hval
  obtain ⟨-, h⟩ | h := hk.1
  · rw [hcount] at h
    exact absurd h (by simp)
  · unfold link at h
    rw [Function.iterate_fixed hnext] at h
    unfold IsLast at h
    rw [hnext] at h
    exact absurd h (by decide)

/-- So neither walker returns on a path to a name in D. -/
theorem almostFull_path_not_read {d' : Disk} {e : Dirent}
    (h : wideFs.Filled almostFull d' (makeName83 [0x4E])
      ((wideFs.dirSlots almostFull [2]).getD 127 ⟨0, 0, fun _ => 0⟩) e) (hr : d'.Reliable)
    (hfuel : 1 ≤ fuel) :
    ¬ ((∃ c, Reads (fatOpenDir fuel wideFs (some [0x44, 0x2F, 0x4E])) d' c) ∨
      ∃ o, Reads (fatFindFile fuel wideFs (some [0x44, 0x2F, 0x4E])) d' o) := by
  intro hread
  -- the path still leads to D
  obtain ⟨r, hwalk, hlook⟩ := walkers_return rfl hread
  obtain ⟨o, hroot, rfl⟩ := (walkDirs_single (makeName83 [0x44]) _ r).1 hwalk
  have hslots : wideFs.dirSlots d' [0] = wideFs.dirSlots almostFull [0] :=
    h.dirSlots_other almostFull_gap.vacancy wideFs_sound almostFull_root.not_free (by simp)
  have hroot' := (h.dirAt almostFull_root).lookup (.inl (by decide)) wideFs_sound hr.readable
    (makeName83 [0x44]) (show [(0 : UInt32)].length ≤ fuel from hfuel)
  rw [hslots] at hroot'
  obtain rfl := hroot.unique hroot'
  obtain ⟨o, ho⟩ := hlook (2, newDirent (makeName83 [0x44]) 0x10 2 0) (makeName83 [0x4E])
    (by decide +kernel) rfl
  exact almostFull_not_read h hr ho

/-- **The directory is built, but the driver does not find it.** -/
theorem built_dir_not_found : ¬ ∀ (fs : FatFs) (d : Disk) (path : List UInt8) (dir z : UInt32)
    (ps : List UInt32) (name : Name83) (pre post : List DirSlot) (t : DirSlot), fs.Sound →
      fs.fsType = .fat16 → d.Reliable → fs.SameCopies d → (0x00 : UInt8) ∉ path →
      (splitPath path).2 = some name → fs.Gap d dir ps z name pre t post →
      (∃ x, fs.Free d x) → fs.Passes d ps dir (splitPath path).1 0 → fs.BuildsDir d path dir t := by
  intro h
  have hr : almostFull.Reliable := ⟨fun _ => rfl, fun _ _ => rfl⟩
  have hlast : (splitPath [0x44, 0x2F, 0x4E]).2 = some (makeName83 [0x4E]) := rfl
  have hfree : ∃ x, wideFs.Free almostFull x := ⟨3, ⟨by decide, by decide⟩, by decide +kernel⟩
  obtain ⟨f₀, hbuilds⟩ := h wideFs almostFull [0x44, 0x2F, 0x4E] 2 0xFFF8 [2] _ _ _ _ wideFs_sound
    rfl hr almostFull_sameCopies (by decide) hlast almostFull_gap hfree almostFull_passes
  obtain ⟨f₁, e, hwalk⟩ := almostFull_passes.walkDirs wideFs_sound hr.readable fun _ => 0
  -- the call makes the entry
  have hv := almostFull_gap.vacancy
  have hres := reads_fatResolveParent (hwalk (max (max f₀ f₁) 2) (by omega)) hlast
    (hv.findName wideFs_sound hr.readable (show [(2 : UInt32)].length < _ by simp))
  obtain ⟨u, c, hrun, hm⟩ := almostFull_gap.fatMkdir_run wideFs_sound rfl hr almostFull_sameCopies
    hres (by simp) hfree Sector.zero
  have hfilled := hm.filled ⟨show makeName83 [0x4E] 0 ≠ 0 by decide,
    show makeName83 [0x4E] 0 ≠ 0xE5 by decide⟩ (newDirent_upperName (by decide) 0x10 c 0)
  obtain ⟨u', c', hrun', hbuilt⟩ := hbuilds (max (max f₀ f₁) 2) (by omega) Sector.zero
  cases hrun.symm.trans hrun'
  exact almostFull_path_not_read hfilled (hm.fills.reliable hr) (by omega)
    (.inl ⟨c', hbuilt.opens⟩)

end FatFs

end HaoSys.Fs
