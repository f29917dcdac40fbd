import HaoSys.Fs.File
import HaoSys.Fs.Mkdir

/-!
# Creating a file and reading it back

`fat_write_file` on a name that its directory does not have: it succeeds exactly
when the free clusters hold the data, and then the path leads to an entry whose
file is the data, and the other entries and files are as before. As for a new
directory this takes listings that stay in the directories of the path.
-/

namespace HaoSys.Fs

open HaoSys.Lib Prog DirSlot

namespace FatFs

variable {fs : FatFs} {d d' : Disk} {fuel : Nat} {dir z first lba offset : UInt32}
  {ps cs : List UInt32} {name : Name83} {pre post : List DirSlot} {t : DirSlot}
  {path data : List UInt8} {e : Dirent}

theorem newDirent_fileSize (n : Name83) (a : UInt8) (c s : UInt32) :
    (newDirent n a c s).fileSize = s := le32_byte s

/-! ## Files -/

/-- The new file, as `fat_load_file` sees it. -/
theorem NewFile.fileAt (h : fs.NewFile d d' lba offset name data first cs) (hs : fs.Sound)
    (hlen : data.length ≤ 65536) (hfuel : 65536 < fuel) :
    fs.FileAt d' fuel (newDirent name 0x20 first (UInt32.ofNat data.length)) cs ∧
      fs.contents d' (newDirent name 0x20 first (UInt32.ofNat data.length)) cs = data := by
  obtain ⟨hfit, hle⟩ := clustersFor_spec hs.sized data.length
  have hsize : (newDirent name 0x20 first (UInt32.ofNat data.length)).fileSize.toNat =
      data.length := by
    rw [newDirent_fileSize, UInt32.toNat_ofNat']
    omega
  refine ⟨⟨?_, fun c hc => (h.free c hc).1, ?_, ?_⟩, ?_⟩
  · rw [newDirent_firstCluster]
    exact h.follows
  · rw [hsize, h.length]
    exact hfit
  · rw [h.length]
    omega
  · rw [contents, hsize]
    exact h.bytes

/-- A file that shares no cluster with the directory of the slot is as before. -/
theorem Filled.fileAt (h : fs.Filled d d' name t e) (hv : fs.Vacancy d dir ps z name pre t post)
    (hs : fs.Sound) {f : Dirent} (hf : fs.FileAt d fuel f cs)
    (hcs : ∀ c ∈ cs, ¬ fs.Free d c ∧ c ∉ ps) :
    fs.FileAt d' fuel f cs ∧ fs.contents d' f cs = fs.contents d f cs := by
  obtain ⟨z, hfollows⟩ := hf.chain
  refine ⟨⟨⟨z, hfollows.congr fun c hc => h.fills.table c (hcs c hc).1⟩, hf.clusters, hf.size,
    hf.fuel⟩, ?_⟩
  unfold contents
  rw [clusterBytes_congr fun c hc l hl => ?_]
  have hplace : fs.Place c := .inr (hf.clusters c hc)
  rw [h.fills.sector _ (hs.offFat hplace hl) fun x hx l' hl' he => ?_, if_neg fun he => ?_]
  · obtain ⟨⟨x, hx, hl'⟩, -⟩ := hv.place
    obtain rfl : l = t.lba := UInt32.add_right_inj _ |>.1 he
    exact (hcs c hc).2 (hs.region_inj hplace (hv.sits.places x hx) hl hl' ▸ hx)
  · obtain rfl : l = l' := UInt32.add_right_inj _ |>.1 he
    exact (hcs c hc).1 (hs.region_inj hplace (.inr hx.1) hl hl' ▸ hx)

/-! ## The call -/

/-- After `fat_write_file` for `path`: it leads to a file of the data. In the directories in use only
the slot `t` has changed, and every file beside the directory `ps` loads as before. -/
structure Saved (fs : FatFs) (d d' : Disk) (fuel : Nat) (path data : List UInt8)
    (ps : List UInt32) (t : DirSlot) : Prop where
  found : ∃ e, Reads (fatFindFile fuel fs (some path)) d' (some e) ∧
    e.fileSize.toNat = data.length ∧
    ∀ m : UInt32, data.length ≤ m.toNat → Reads (fatLoadFile fuel fs e m) d' data
  entries : ∃ e, ∀ cs : List UInt32, (∀ c ∈ cs, fs.Place c ∧ ¬ fs.Free d c) →
    fs.dirSlots d' cs = put t.lba t.offset e (fs.dirSlots d cs)
  files : ∀ fuel f cs, fs.FileAt d fuel f cs → (∀ c ∈ cs, ¬ fs.Free d c ∧ c ∉ ps) →
    ∀ m bytes, Reads (fatLoadFile fuel fs f m) d bytes → Reads (fatLoadFile fuel fs f m) d' bytes

/-- With enough fuel, `fat_write_file` returns true if the free clusters hold the data and false
otherwise, and makes the file where it returns true. -/
def CreatesFile (fs : FatFs) (d : Disk) (path data : List UInt8) (ps : List UInt32)
    (t : DirSlot) : Prop :=
  ∃ f₀, ∀ fuel ≥ f₀, ∀ b, ∃ ok u, fatWriteFile fuel fs (some path) data ⟨b, d⟩ = .ok (ok, u) ∧
    (ok = true ↔ fs.clustersFor data.length ≤ fs.freeCount d) ∧
    (ok = true → fs.Saved d u.disk fuel path data ps t)

/-- The call, from a path that resolves to its directory without an entry. -/
theorem Vacancy.fatWriteFile_run (hv : fs.Vacancy d dir ps z name pre t post) (hs : fs.Sound)
    (ht : fs.fsType = .fat16 ∨ fs.fsType = .fat32) (hr : d.Reliable)
    (hres : Reads (fatResolveParent fuel fs (some path)) d ⟨dir, name, none⟩)
    (hfuel : ps.length ≤ fuel) (hlen : data.length ≤ 65536) (b : Sector) :
    ∃ ok u, fatWriteFile fuel fs (some path) data ⟨b, d⟩ = .ok (ok, u) ∧
      (ok = true ↔ fs.clustersFor data.length ≤ fs.freeCount d) ∧
      (ok = true → ∃ first cs, fs.NewFile d u.disk t.lba t.offset name data first cs) := by
  have hslot := hv.sits.walk.findSlot hs.sized hr.readable hv.findSlot hfuel
  obtain ⟨⟨c, hc, hl⟩, hoff⟩ := hv.place
  obtain ⟨⟨b1, d1⟩, h1, hd1⟩ := hres ⟨b, d⟩ rfl
  obtain rfl : d1 = d := hd1
  obtain ⟨b2, h2⟩ := writeTarget_free (r := ⟨dir, name, none⟩) hslot b1
  obtain ⟨hfew, u, hrun⟩ | ⟨henough, u, first, cs, hrun, hnew⟩ :=
    writeNew_run hs h1 hv.sits.walk.ne_fail h2 hr (hv.sits.not_free c hc) hl hoff hlen
      (inSectors_of_type ht)
  · refine ⟨false, u, ?_, iff_of_false Bool.false_ne_true (Nat.not_le.2 hfew), nofun⟩
    unfold fatWriteFile
    rw [bind_of_ok hrun]
    rfl
  · refine ⟨true, u, ?_, iff_of_true rfl henough, fun _ => ⟨first, cs, hnew⟩⟩
    unfold fatWriteFile
    rw [bind_of_ok hrun]
    rfl

/-- **A file is created and read back** where the listings of the directories on the path stay in
them, and where the data fit, of the parent also with one entry more. -/
theorem fat_write_file_creates (hs : fs.Sound) (ht : fs.fsType = .fat16 ∨ fs.fsType = .fat32)
    (hr : d.Reliable) (hstring : (0x00 : UInt8) ∉ path) (hlast : (splitPath path).2 = some name)
    (hv : fs.Vacancy d dir ps z name pre t post) (hlen : data.length ≤ 65536)
    (hpasses : fs.Passes d ps dir (splitPath path).1 0)
    (hroom : fs.clustersFor data.length ≤ fs.freeCount d →
      name 0 ≠ 0xE5 ∧ Vacancy.Room fs dir z pre post) : fs.CreatesFile d path data ps t := by
  have hmem : name ∈ pathNames path := by
    rw [pathNames_of_last_some hlast]
    simp
  obtain ⟨hupper, h0⟩ := pathNames_spec hstring hmem
  obtain ⟨f₁, f, hwalk⟩ := hpasses.walkDirs hs hr.readable fun _ => 0
  have hcall : ∀ fuel, f₁ ≤ fuel → ps.length < fuel → ∀ b, ∃ ok u,
      fatWriteFile fuel fs (some path) data ⟨b, d⟩ = .ok (ok, u) ∧
        (ok = true ↔ fs.clustersFor data.length ≤ fs.freeCount d) ∧
        (ok = true → ∃ first cs, fs.NewFile d u.disk t.lba t.offset name data first cs) := by
    intro fuel hf hl b
    have hres := reads_fatResolveParent (hwalk fuel hf) hlast (hv.findName hs hr.readable hl)
    exact hv.fatWriteFile_run hs ht hr hres (Nat.le_of_lt hl) hlen b
  by_cases henough : fs.clustersFor data.length ≤ fs.freeCount d
  · obtain ⟨hproper, hroom⟩ := hroom henough
    obtain ⟨f₂, hafter⟩ := hpasses.walkDirs_filled hv hs hroom
    refine ⟨max (max f₁ f₂) (max (ps.length + 1) 65537), fun fuel hfuel b => ?_⟩
    obtain ⟨ok, u, hrun, hok, hnew⟩ := hcall fuel (by omega) (by omega) b
    refine ⟨ok, u, hrun, hok, fun htrue => ?_⟩
    obtain ⟨first, cs, hnew⟩ := hnew htrue
    have hfilled : fs.Filled d u.disk name t
        (newDirent name 0x20 first (UInt32.ofNat data.length)) :=
      ⟨hnew.fills, ⟨h0, hproper⟩, newDirent_upperName hupper 0x20 first _⟩
    have hr' := (hnew.fills.reliable hr).readable
    obtain ⟨hfile, hcontents⟩ := hnew.fileAt hs hlen (show 65536 < fuel by omega)
    obtain ⟨f', hwalk'⟩ := hafter u.disk _ hfilled hr' fun _ => 0
    have hres' := reads_fatResolveParent (hwalk' fuel (by omega)) hlast
      (hfilled.findName hv hs hroom hr' (show ps.length < fuel by omega))
    have hfind := reads_fatFindFile hs.initialized hres' hv.sits.walk.ne_fail
    refine ⟨⟨_, hfind, ?_, fun m hm => ?_⟩, ⟨_, fun cs hcs => hfilled.dirSlots hv hs hcs⟩, ?_⟩
    · rw [newDirent_fileSize, UInt32.toNat_ofNat']
      omega
    · have hload := hfile.load hs hr' m
      rwa [hcontents, List.take_of_length_le hm] at hload
    · intro fuel f cs hf hcs m bytes hread
      obtain ⟨hf', hsame⟩ := hfilled.fileAt hv hs hf hcs
      rw [hread.unique (hf.load hs hr.readable m), ← hsame]
      exact hf'.load hs hr' m
  · -- the call fails
    refine ⟨max f₁ (ps.length + 1), fun fuel hfuel b => ?_⟩
    obtain ⟨ok, u, hrun, hok, -⟩ := hcall fuel (by omega) (by omega) b
    exact ⟨ok, u, hrun, hok, fun htrue => absurd (hok.1 htrue) henough⟩

/-- In the root of an empty volume. -/
theorem fat_write_file_creates_root :
    sampleFs.CreatesFile ⟨fun _ => Sector.zero, fun _ => true, fun _ _ => true, 0⟩ [0x4E]
      [1, 2, 3] [0] ⟨3, 0, fun _ => 0⟩ :=
  fat_write_file_creates sampleFs_sound (.inl rfl) ⟨fun _ => rfl, fun _ _ => rfl⟩ (by decide)
    (show (splitPath [0x4E]).2 = some (makeName83 [0x4E]) from rfl)
    (show sampleFs.Vacancy _ 0 [0] 0 (makeName83 [0x4E]) [] _
      (sampleFs.dirSlots ⟨fun _ => Sector.zero, fun _ => true, fun _ _ => true, 0⟩ [0]).tail from
      ⟨⟨.inl ⟨rfl, rfl⟩, .inl (.inl rfl), fun c hc => .inl (List.mem_singleton.1 hc),
        fun c hc => .inl (List.mem_singleton.1 hc)⟩, List.nodup_singleton 0, by decide +kernel,
        nofun, .inl rfl, by decide, by decide +kernel⟩)
    (by decide) (by exact .here) fun _ => ⟨by decide, .inl rfl⟩

/-- **The file is made, but the driver does not find it.** -/
theorem created_file_not_found : ¬ ∀ (fs : FatFs) (d : Disk) (path data : List UInt8)
    (dir z : UInt32) (ps : List UInt32) (name : Name83) (pre post : List DirSlot) (t : DirSlot),
      fs.Sound → fs.fsType = .fat16 ∨ fs.fsType = .fat32 → d.Reliable → (0x00 : UInt8) ∉ path →
      (splitPath path).2 = some name → name 0 ≠ 0xE5 → fs.Gap d dir ps z name pre t post →
      data.length ≤ 65536 → fs.Passes d ps dir (splitPath path).1 0 →
      fs.CreatesFile d path data ps t := by
  intro h
  have hr : almostFull.Reliable := ⟨fun _ => rfl, fun _ _ => rfl⟩
  have hlast : (splitPath [0x44, 0x2F, 0x4E]).2 = some (makeName83 [0x4E]) := rfl
  have hv := almostFull_gap.vacancy
  obtain ⟨f₀, hcreates⟩ := h wideFs almostFull [0x44, 0x2F, 0x4E] [1, 2, 3] 2 0xFFF8 [2] _ _ _ _
    wideFs_sound (.inl rfl) hr (by decide) hlast (by decide) almostFull_gap (by decide)
    almostFull_passes
  obtain ⟨f₁, e, hwalk⟩ := almostFull_passes.walkDirs wideFs_sound hr.readable fun _ => 0
  have hres := reads_fatResolveParent (hwalk (max (max f₀ f₁) 2) (by omega)) hlast
    (hv.findName wideFs_sound hr.readable (show [(2 : UInt32)].length < _ by simp))
  obtain ⟨ok, u, hrun, hok, hnew⟩ := hv.fatWriteFile_run wideFs_sound (.inl rfl) hr hres (by simp)
    (show [1, 2, 3].length ≤ 65536 by decide) Sector.zero
  obtain ⟨ok', u', hrun', -, hstored⟩ :=
    hcreates (max (max f₀ f₁) 2) (by omega) Sector.zero
  cases hrun.symm.trans hrun'
  have htrue : ok = true := hok.2 (by decide +kernel)
  obtain ⟨first, cs, hnew⟩ := hnew htrue
  have hfilled : wideFs.Filled almostFull u.disk (makeName83 [0x4E]) _ _ :=
    ⟨hnew.fills, ⟨show makeName83 [0x4E] 0 ≠ 0 by decide, show makeName83 [0x4E] 0 ≠ 0xE5 by decide⟩,
      newDirent_upperName (by decide) 0x20 first _⟩
  obtain ⟨⟨e', hfind, -⟩, -, -⟩ := hstored htrue
  exact almostFull_path_not_read hfilled (hfilled.fills.reliable hr) (by omega)
    (.inr ⟨_, hfind⟩)

end FatFs

end HaoSys.Fs
