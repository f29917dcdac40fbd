import HaoSys.Fs.Fill
import HaoSys.Fs.History
import HaoSys.Fs.Lookup
import HaoSys.Fs.Mirror

/-!
# Changing an entry

`fat_set_file_meta` and `fat_delete_file` look a name up twice. First
`fat_resolve_parent` takes the entry from the list that `fat_read_dir` returns,
which leaves deleted slots out; then `dir_find_slot` looks for its place and
stops at the first slot that is free. So they get to the entry exactly when no
deleted slot stands before it (`FoundAt.finds_iff`).
-/

namespace HaoSys.Fs

open HaoSys.Lib Prog DirSlot

namespace DirSlot

/-- `t` is the first live slot of the name, behind the slots `pre`. -/
structure Leading (name : Name83) (pre : List DirSlot) (t : DirSlot) : Prop where
  isLive : t.entry.IsLive
  name_eq : t.entry.upperName = name
  before : ∀ s ∈ pre, s.entry 0 ≠ 0x00 ∧ (s.entry 0 ≠ 0xE5 → s.entry.upperName ≠ name)

variable {name : Name83} {pre post es : List DirSlot} {t : DirSlot}

/-- The first live entry of a name has its place. -/
theorem exists_leading (h : (live es).find? (fun t => t.entry.upperName = name) = some t) :
    ∃ pre post, es = pre ++ t :: post ∧ Leading name pre t := by
  induction es with
  | nil => cases h
  | cons s es ih =>
    rw [live_cons] at h
    split at h
    · cases h
    · next h0 =>
      split at h
      · next h5 =>
        obtain ⟨pre, post, rfl, hl⟩ := ih h
        refine ⟨s :: pre, post, rfl, hl.isLive, hl.name_eq, fun u hu => ?_⟩
        obtain rfl | hu := List.mem_cons.1 hu
        · exact ⟨h0, fun hne => absurd h5 hne⟩
        · exact hl.before u hu
      · next h5 =>
        by_cases hname : s.entry.upperName = name
        · rw [List.find?_cons_of_pos (by simpa using hname)] at h
          cases h
          exact ⟨[], es, rfl, ⟨h0, h5⟩, hname, nofun⟩
        · rw [List.find?_cons_of_neg (by simpa using hname)] at h
          obtain ⟨pre, post, rfl, hl⟩ := ih h
          refine ⟨s :: pre, post, rfl, hl.isLive, hl.name_eq, fun u hu => ?_⟩
          obtain rfl | hu := List.mem_cons.1 hu
          · exact ⟨h0, fun _ => hname⟩
          · exact hl.before u hu

/-- Its place is found where no deleted slot stands before it. -/
theorem Leading.findSlot_sameName (h : Leading name pre t) (hkept : ∀ s ∈ pre, s.entry 0 ≠ 0xE5) :
    findSlot name (pre ++ t :: post) = some (.sameName t.lba t.offset) := by
  have hnone : findSlot name pre = none := List.findSome?_eq_none_iff.2 fun s hs => by
    obtain ⟨h0, hname⟩ := h.before s hs
    unfold pick
    rw [if_neg (not_or.2 ⟨h0, hkept s hs⟩), if_neg (hname (hkept s hs))]
  have hpick : pick name t = some (.sameName t.lba t.offset) := by
    unfold pick
    rw [if_neg (not_or.2 h.isLive), if_pos h.name_eq]
  rw [findSlot_append, hnone, Option.none_or]
  unfold findSlot
  rw [List.findSome?_cons, hpick]

/-- Otherwise the first deleted slot is. -/
theorem Leading.findSlot_free (h : Leading name pre t) (hdel : ∃ s ∈ pre, s.entry 0 = 0xE5)
    (post : List DirSlot) :
    ∃ lba offset, findSlot name (pre ++ t :: post) = some (.free lba offset) := by
  induction pre with
  | nil =>
    obtain ⟨s, hs, -⟩ := hdel
    cases hs
  | cons s pre ih =>
    by_cases h5 : s.entry 0 = 0xE5
    · refine ⟨s.lba, s.offset, ?_⟩
      unfold findSlot
      rw [List.cons_append, List.findSome?_cons]
      unfold pick
      rw [if_pos (.inr h5)]
    · obtain ⟨h0, hname⟩ := h.before s List.mem_cons_self
      have hpick : pick name s = none := by
        unfold pick
        rw [if_neg (not_or.2 ⟨h0, h5⟩), if_neg (hname h5)]
      obtain ⟨u, hu, hu5⟩ := hdel
      have hu := (List.mem_cons.1 hu).resolve_left fun he => h5 (he ▸ hu5)
      obtain ⟨lba, offset, hfree⟩ := ih
        ⟨h.isLive, h.name_eq, fun x hx => h.before x (List.mem_cons_of_mem _ hx)⟩ ⟨u, hu, hu5⟩
      refine ⟨lba, offset, ?_⟩
      unfold findSlot at hfree ⊢
      rw [List.cons_append, List.findSome?_cons, hpick]
      exact hfree

end DirSlot

namespace FatFs

variable {fs : FatFs} {d : Disk} {path : List UInt8} {r : Resolved} {pre : List DirSlot}
  {t : DirSlot} {lba offset : UInt32} {fuel : Nat}

/-! ## The place of an entry -/

/-- A slot that a walk sees is in a sector that can be read. -/
theorem mem_seenTo {c : UInt32} {k : Nat} (h : t ∈ fs.seenTo d c k) :
    d.readable (fs.baseLba + t.lba) = true ∧ ∃ j, j < 16 ∧ t.offset = UInt32.ofNat (32 * j) ∧
      t.entry = (d.sector (fs.baseLba + t.lba)).dirent (32 * j) := by
  have hseen : ∀ c, t ∈ fs.seen d c → d.readable (fs.baseLba + t.lba) = true ∧
      ∃ j, j < 16 ∧ t.offset = UInt32.ofNat (32 * j) ∧
        t.entry = (d.sector (fs.baseLba + t.lba)).dirent (32 * j) := by
    intro c hs
    unfold seen at hs
    split at hs
    · cases hs
    · unfold slots sectorSlots Sector.slotsFrom at hs
      obtain ⟨l, hl, hs⟩ := List.mem_flatMap.1 hs
      obtain ⟨j, hj, rfl⟩ := List.mem_map.1 hs
      have hr := List.mem_takeWhile_imp hl
      have hj := List.mem_range'_1.1 hj
      exact ⟨hr, j, by omega, rfl, rfl⟩
  induction k generalizing c with
  | zero => exact hseen c h
  | succ k ih =>
    obtain h | h := List.mem_append.1 h
    · exact hseen c h
    · exact ih h

/-- For the path, the call finds the entry at `offset` of sector `lba` of the volume. -/
structure Finds (fs : FatFs) (d : Disk) (fuel : Nat) (path : List UInt8) (r : Resolved)
    (lba offset : UInt32) : Prop where
  resolve : Reads (fatResolveParent fuel fs (some path)) d r
  parent : r.parent ≠ 0xFFFFFFFF
  entry : r.entry ≠ none
  slot : Reads (dirFindSlot fuel fs r.parent r.name83) d (.sameName lba offset)

/-- The entry that is found. -/
def entryAt (fs : FatFs) (d : Disk) (lba offset : UInt32) : Dirent :=
  (d.sector (fs.baseLba + lba)).dirent offset.toNat

theorem dirFindSlot_mono (h : fs.bytesPerSector = 512) {fuel fuel' : Nat} (hle : fuel ≤ fuel')
    {dir : UInt32} {name : Name83} {slot : Slot} (hs : Reads (dirFindSlot fuel fs dir name) d slot) :
    Reads (dirFindSlot fuel' fs dir name) d slot := by
  obtain ⟨k, hk, hfirst, he⟩ := (findSlotClusters_iff h name).1 hs
  exact (findSlotClusters_iff h name).2 ⟨k, by omega, hfirst, he⟩

namespace Finds

theorem mono (hf : fs.Finds d fuel path r lba offset) (h : fs.bytesPerSector = 512) {fuel' : Nat}
    (hle : fuel ≤ fuel') : fs.Finds d fuel' path r lba offset :=
  ⟨fatResolveParent_mono h hle hf.resolve, hf.parent, hf.entry, dirFindSlot_mono h hle hf.slot⟩

/-- Its sector has been read. -/
theorem readable (hf : fs.Finds d fuel path r lba offset) (h : fs.bytesPerSector = 512) :
    d.readable (fs.baseLba + lba) = true ∧ offset.toNat + 32 ≤ 512 := by
  obtain ⟨k, -, -, hslot⟩ := (findSlotClusters_iff h r.name83).1 hf.slot
  cases hfind : DirSlot.findSlot r.name83 (fs.seenTo d (dirStart fs r.parent) k) with
  | none =>
    rw [hfind] at hslot
    cases hslot
  | some slot =>
    rw [hfind, Option.getD_some] at hslot
    obtain ⟨pre, t, post, hsplit, hpick, -⟩ := findSlot_eq_some hfind
    rw [← hslot] at hpick
    obtain ⟨-, rfl, rfl⟩ := pick_eq_sameName hpick
    obtain ⟨hr, j, hj, hoff, -⟩ := mem_seenTo (show t ∈ fs.seenTo d (dirStart fs r.parent) k by
      rw [hsplit]; simp)
    refine ⟨hr, ?_⟩
    rw [hoff, ofNat_slot hj]
    omega

theorem unique {fuel' : Nat} {r' : Resolved} {lba' offset' : UInt32}
    (hf : fs.Finds d fuel path r lba offset) (hf' : fs.Finds d fuel' path r' lba' offset')
    (h : fs.bytesPerSector = 512) : r' = r ∧ lba' = lba ∧ offset' = offset := by
  have hf := hf.mono h (le_max_left fuel fuel')
  have hf' := hf'.mono h (le_max_right fuel fuel')
  obtain rfl := hf'.resolve.unique hf.resolve
  cases hf'.slot.unique hf.slot
  exact ⟨rfl, rfl, rfl⟩

end Finds

/-! ## The two lookups -/

/-- The list for the path's last name has the entry of the slot `t`, which the walk comes to behind
the slots `pre`. -/
structure FoundAt (fs : FatFs) (d : Disk) (path : List UInt8) (r : Resolved)
    (pre : List DirSlot) (t : DirSlot) : Prop where
  resolve : ∃ fuel, Reads (fatResolveParent fuel fs (some path)) d r
  parent : r.parent ≠ 0xFFFFFFFF
  entry : r.entry = some t.entry
  leading : Leading r.name83 pre t
  seen : ∃ k post, First (fs.ReadStops d 128 0 (dirStart fs r.parent)) k ∧
    fs.seenTo d (dirStart fs r.parent) k = pre ++ t :: post

/-- What `fat_find_file` returns has its slot. -/
theorem exists_foundAt (h : fs.bytesPerSector = 512) (hi : fs.initialized = true) {e : Dirent}
    (hfind : Reads (fatFindFile fuel fs (some path)) d (some e)) :
    ∃ r pre t, fs.FoundAt d path r pre t ∧ t.entry = e := by
  obtain ⟨r, hres, hparent, hentry⟩ := fatFindFile_reads hfind
  have hname : Reads (dirFindName fuel fs r.parent r.name83) d (some e) := by
    have hres := hres
    rw [fatResolveParent, resolveParentLoop_eq _ fs path 0 (fun _ => 0) none] at hres
    obtain ⟨p, -, hl⟩ := hres.bind_inv (readOnly_walkDirs fuel fs _ _)
      fun p => readOnly_lookupLast fuel fs _ p
    cases p with
    | none =>
      rw [Reads.of_pure hl] at hparent
      exact absurd rfl hparent
    | some p =>
      cases hlast : (splitLoop path none).2 with
      | none =>
        rw [hlast] at hl
        rw [Reads.of_pure hl] at hparent
        exact absurd rfl hparent
      | some n =>
        rw [hlast] at hl
        obtain ⟨o, ho, hl⟩ := hl.bind_inv (readOnly_dirFindName fuel fs p.1 n) fun _ => .pure _
        rw [Reads.of_pure hl] at hentry ⊢
        rw [← hentry]
        exact ho
  obtain ⟨es, hes, he⟩ := dirFindName_iff.1 hname
  rw [fatReadDir, if_neg (by simp [hi])] at hes
  obtain ⟨k, -, hfirst, rfl⟩ := (readDirClusters_iff h 128 (Nat.zero_le _)).1 hes
  have hmap : ((live (fs.seenTo d (dirStart fs r.parent) k)).map DirSlot.entry).find?
      (fun e => e.upperName = r.name83) = some e := by
    have hprefix : (scan (128 : UInt32).toNat [] (fs.seenTo d (dirStart fs r.parent) k)).2 <+:
        (live (fs.seenTo d (dirStart fs r.parent) k)).map DirSlot.entry := List.take_prefix _ _
    obtain ⟨rest, hrest⟩ := hprefix
    rw [← hrest, List.find?_append, ← he, Option.some_or]
  rw [find?_map_entry, Option.map_eq_some_iff] at hmap
  obtain ⟨t, ht, rfl⟩ := hmap
  obtain ⟨pre, post, hsplit, hlead⟩ := exists_leading ht
  exact ⟨r, pre, t, ⟨⟨fuel, hres⟩, hparent, hentry, hlead, k, post, hfirst, hsplit⟩, rfl⟩

namespace FoundAt

/-- The search for the slot stops at the same cluster or before. -/
theorem slot_reads (hf : fs.FoundAt d path r pre t) (h : fs.bytesPerSector = 512)
    (hr : ∀ a, d.readable a = true) :
    ∃ f₀ post, ∀ fuel ≥ f₀, Reads (dirFindSlot fuel fs r.parent r.name83) d
      ((DirSlot.findSlot r.name83 (pre ++ t :: post)).getD .full) := by
  obtain ⟨k, post, hfirst, hseen⟩ := hf.seen
  have hfound : DirSlot.findSlot r.name83 (pre ++ t :: post) ≠ none := by
    by_cases hdel : ∃ s ∈ pre, s.entry 0 = 0xE5
    · obtain ⟨lba, offset, hfree⟩ := hf.leading.findSlot_free hdel post
      rw [hfree]
      nofun
    · rw [hf.leading.findSlot_sameName fun s hs h5 => hdel ⟨s, hs, h5⟩]
      nofun
  have hstop : fs.SlotStops d r.name83 (dirStart fs r.parent) k := .inl (hseen ▸ hfound)
  obtain ⟨j, hj⟩ := First.exists ⟨k, hstop⟩
  have hjk := hj.le hstop
  have hsame : DirSlot.findSlot r.name83 (fs.seenTo d (dirStart fs r.parent) j) =
      DirSlot.findSlot r.name83 (pre ++ t :: post) := by
    by_cases he : j = k
    · rw [he, hseen]
    · -- before cluster `k` the list does not stop, so the search stopped at a slot
      have hnone : DirSlot.findSlot r.name83 (fs.seenTo d (dirStart fs r.parent) j) ≠ none := by
        obtain hslot | hbroken | hlast := hj.1
        · exact hslot
        · exact absurd hbroken (not_broken hr _)
        · exact absurd (.inr hlast) (hfirst.2 j (by omega))
      obtain ⟨rest, hrest⟩ : fs.seenTo d (dirStart fs r.parent) j <+:
          fs.seenTo d (dirStart fs r.parent) k := seenTo_start _ hjk
      rw [← hseen, ← hrest, findSlot_append]
      cases hs : DirSlot.findSlot r.name83 (fs.seenTo d (dirStart fs r.parent) j) with
      | none => exact absurd hs hnone
      | some slot => rfl
  refine ⟨j + 1, post, fun fuel hfuel => ?_⟩
  exact (findSlotClusters_iff h r.name83).2 ⟨j, by omega, hj, by rw [hsame]⟩

/-- Where no deleted slot stands before it, the entry's place is found. -/
theorem finds (hf : fs.FoundAt d path r pre t) (h : fs.bytesPerSector = 512)
    (hr : ∀ a, d.readable a = true) (hkept : ∀ s ∈ pre, s.entry 0 ≠ 0xE5) :
    ∃ f₀, ∀ fuel ≥ f₀, fs.Finds d fuel path r t.lba t.offset := by
  obtain ⟨f₀, post, hslot⟩ := hf.slot_reads h hr
  obtain ⟨f₁, hres⟩ := hf.resolve
  rw [hf.leading.findSlot_sameName hkept, Option.getD_some] at hslot
  exact ⟨max f₀ f₁, fun fuel hfuel => ⟨fatResolveParent_mono h (by omega) hres, hf.parent,
    by rw [hf.entry]; nofun, hslot fuel (by omega)⟩⟩

/-- **Only there.** -/
theorem kept_of_finds (hf : fs.FoundAt d path r pre t) (h : fs.bytesPerSector = 512)
    (hr : ∀ a, d.readable a = true) {r' : Resolved}
    (hfinds : fs.Finds d fuel path r' lba offset) : ∀ s ∈ pre, s.entry 0 ≠ 0xE5 := by
  intro s hs h5
  obtain ⟨f₀, post, hslot⟩ := hf.slot_reads h hr
  obtain ⟨f₁, hres⟩ := hf.resolve
  obtain ⟨lba', offset', hfree⟩ := hf.leading.findSlot_free ⟨s, hs, h5⟩ post
  rw [hfree, Option.getD_some] at hslot
  have hfinds := hfinds.mono h (show fuel ≤ max (max fuel f₀) f₁ by omega)
  obtain rfl := hfinds.resolve.unique (fatResolveParent_mono h (by omega) hres)
  cases hfinds.slot.unique (hslot _ (by omega))

/-- The slot that is found holds the entry. -/
theorem entryAt_eq (hf : fs.FoundAt d path r pre t) :
    fs.entryAt d t.lba t.offset = t.entry ∧ t.offset.toNat + 32 ≤ 512 := by
  obtain ⟨k, post, -, hseen⟩ := hf.seen
  obtain ⟨-, j, hj, hoff, he⟩ := mem_seenTo (show t ∈ fs.seenTo d (dirStart fs r.parent) k by
    rw [hseen]; simp)
  unfold entryAt
  rw [he, hoff, ofNat_slot hj]
  exact ⟨rfl, by omega⟩

end FoundAt

/-! ## The calls -/

/-- The sector with the new metadata in the entry that is found. -/
def metaSector (fs : FatFs) (d : Disk) (lba offset : UInt32) (m : UnixMeta) : Sector :=
  (d.sector (fs.baseLba + lba)).setDirent offset.toNat ((fs.entryAt d lba offset).setUnixMeta m)

theorem Finds.fatSetFileMeta_run (hf : fs.Finds d fuel path r lba offset)
    (h : fs.bytesPerSector = 512) (hi : fs.initialized = true) (m : UnixMeta) (b : Sector) :
    fatSetFileMeta fuel fs (some path) m ⟨b, d⟩ = .ok (d.wrote (fs.baseLba + lba),
      ⟨fs.metaSector d lba offset m,
        d.write (fs.baseLba + lba) (fs.metaSector d lba offset m)⟩) := by
  obtain ⟨hr, hoff⟩ := hf.readable h
  obtain ⟨⟨b1, d1⟩, h1, hd1⟩ := hf.resolve ⟨b, d⟩ rfl
  obtain rfl : d1 = d := hd1
  obtain ⟨⟨b2, d2⟩, h2, hd2⟩ := hf.slot ⟨b1, d1⟩ rfl
  obtain rfl : d2 = d1 := hd2
  unfold fatSetFileMeta
  rw [if_neg (by simp [hi]), bind_of_ok h1, if_neg (not_or.2 ⟨hf.parent, hf.entry⟩), bind_of_ok h2]
  simp only
  rw [bind_of_ok (fatDevRead_of_readable hr)]
  simp only [if_true]
  rw [bind_of_ok (bufWrite_run hoff _ _), fatDevWrite_run]
  rfl

theorem finds_of_setMeta {m : UnixMeta} {s u : FatState}
    (hrun : fatSetFileMeta fuel fs (some path) m s = .ok (true, u)) :
    ∃ r lba offset, fs.Finds s.disk fuel path r lba offset := by
  unfold fatSetFileMeta at hrun
  split at hrun
  · cases hrun
  · obtain ⟨r, s1, h1, hrun⟩ := bind_eq_ok.1 hrun
    obtain ⟨hres, hd1⟩ := (readOnly_fatResolveParent fuel fs _).of_ok h1
    split at hrun
    · cases hrun
    · next hcond =>
      obtain ⟨hparent, hentry⟩ := not_or.1 hcond
      obtain ⟨slot, s2, h2, hrun⟩ := bind_eq_ok.1 hrun
      obtain ⟨hslot, -⟩ := (readOnly_dirFindSlot fuel fs _ _).of_ok h2
      rw [hd1] at hslot
      cases slot with
      | full => cases hrun
      | free lba offset => cases hrun
      | sameName lba offset => exact ⟨r, lba, offset, hres, hparent, hentry, hslot⟩

theorem readOnly_dirContents (fuel : Nat) (fs : FatFs) (e : Dirent) :
    ReadOnly (dirContents fuel fs e) :=
  .ite (fun _ => readOnly_fatReadDir fuel fs _ _) fun _ => .pure _

/-- Deleting ends with the freeing of the chain. -/
theorem Finds.fatDeleteFile_eq [BehindBuffer] (hf : fs.Finds d fuel path r lba offset)
    (h : fs.bytesPerSector = 512) (hi : fs.initialized = true) {es : List Dirent}
    (hc : Reads (dirContents fuel fs (fs.entryAt d lba offset)) d es)
    (hdots : ∀ f ∈ es, f 0 = 0x2E) (hw : d.wrote (fs.baseLba + lba) = true) (b : Sector) :
    ∃ s, fatDeleteFile fuel fs (some path) ⟨b, d⟩ = (do
          freeChainFrom fs (fs.entryAt d lba offset).firstCluster
          pure true) s ∧
      s.disk = d.write (fs.baseLba + lba)
        ((d.sector (fs.baseLba + lba)).set offset.toNat 0xE5) := by
  obtain ⟨hr, hoff⟩ := hf.readable h
  obtain ⟨⟨b1, d1⟩, h1, hd1⟩ := hf.resolve ⟨b, d⟩ rfl
  obtain rfl : d1 = d := hd1
  obtain ⟨⟨b2, d2⟩, h2, hd2⟩ := hf.slot ⟨b1, d1⟩ rfl
  obtain rfl : d2 = d1 := hd2
  obtain ⟨⟨b3, d3⟩, h3, hd3⟩ := hc ⟨d2.sector (fs.baseLba + lba), d2⟩ rfl
  obtain rfl : d3 = d2 := hd3
  have hany : ¬ (es.any fun f => f 0 ≠ 0x2E) = true := by
    rw [List.any_eq_true]
    rintro ⟨f, hmem, hne⟩
    exact of_decide_eq_true hne (hdots f hmem)
  refine ⟨⟨(d3.sector (fs.baseLba + lba)).set offset.toNat 0xE5, d3.write (fs.baseLba + lba)
    ((d3.sector (fs.baseLba + lba)).set offset.toNat 0xE5)⟩, ?_, rfl⟩
  unfold fatDeleteFile
  rw [if_neg (by simp [hi]), bind_of_ok h1, if_neg (not_or.2 ⟨hf.parent, hf.entry⟩), bind_of_ok h2]
  simp only
  rw [bind_of_ok (fatDevRead_of_readable hr)]
  simp only [if_true]
  rw [bind_of_ok (bufRead_run hoff _ _)]
  refine (bind_of_ok h3).trans ?_
  rw [if_neg hany, bind_of_ok (fatDevRead_of_readable hr)]
  simp only [if_true]
  rw [bind_of_ok (bufWrite_run (by omega) _ _), bind_of_ok (fatDevWrite_run _ _ _)]
  simp only [hw, if_true]
  rfl

theorem Finds.fatDeleteFile_run (hf : fs.Finds d fuel path r lba offset)
    (h : fs.bytesPerSector = 512) (hi : fs.initialized = true) {es : List Dirent}
    (hc : Reads (dirContents fuel fs (fs.entryAt d lba offset)) d es)
    (hdots : ∀ f ∈ es, f 0 = 0x2E) (hw : d.wrote (fs.baseLba + lba) = true) (b : Sector) :
    ∃ s u, fatDeleteFile fuel fs (some path) ⟨b, d⟩ = .ok (true, u) ∧
      freeChainFrom fs (fs.entryAt d lba offset).firstCluster s = .ok ((), u) ∧
      s.disk = d.write (fs.baseLba + lba)
        ((d.sector (fs.baseLba + lba)).set offset.toNat 0xE5) := by
  obtain ⟨s, hrun, hs⟩ := hf.fatDeleteFile_eq h hi hc hdots hw b
  obtain ⟨⟨⟩, u, hfree, -⟩ := (total_freeChainFrom h (total_writeFatEntry h)
    (fs.entryAt d lba offset).firstCluster).run s
  exact ⟨s, u, hrun.trans (bind_of_ok hfree), hfree, hs⟩

/-- What a successful deletion has found. -/
theorem finds_of_delete {s u : FatState}
    (hrun : fatDeleteFile fuel fs (some path) s = .ok (true, u)) :
    ∃ r lba offset, fs.Finds s.disk fuel path r lba offset ∧
      ∃ es, Reads (dirContents fuel fs (fs.entryAt s.disk lba offset)) s.disk es ∧
        ∀ f ∈ es, f 0 = 0x2E := by
  unfold fatDeleteFile at hrun
  split at hrun
  · cases hrun
  · obtain ⟨r, s1, h1, hrun⟩ := bind_eq_ok.1 hrun
    obtain ⟨hres, hd1⟩ := (readOnly_fatResolveParent fuel fs _).of_ok h1
    split at hrun
    · cases hrun
    · next hcond =>
      obtain ⟨hparent, hentry⟩ := not_or.1 hcond
      obtain ⟨slot, s2, h2, hrun⟩ := bind_eq_ok.1 hrun
      obtain ⟨hslot, hd2⟩ := (readOnly_dirFindSlot fuel fs _ _).of_ok h2
      rw [hd1] at hslot hd2
      cases slot with
      | full => cases hrun
      | free lba offset => cases hrun
      | sameName lba offset =>
        refine ⟨r, lba, offset, ⟨hres, hparent, hentry, hslot⟩, ?_⟩
        simp only at hrun
        by_cases hr : s2.disk.readable (fs.baseLba + lba) = true
        · rw [bind_of_ok (fatDevRead_of_readable hr)] at hrun
          simp only [if_true] at hrun
          obtain ⟨e, s3, h3, hrun⟩ := bind_eq_ok.1 hrun
          obtain ⟨es, s4, h4, hrun⟩ := bind_eq_ok.1 hrun
          have he : e = fs.entryAt s.disk lba offset ∧ s3.disk = s.disk := by
            rw [bufRead] at h3
            split at h3
            · cases h3
              unfold entryAt
              simp only [hd2, and_self]
            · cases h3
          obtain ⟨rfl, hd3⟩ := he
          refine ⟨es, hd3 ▸ ((readOnly_dirContents fuel fs _).of_ok h4).1, ?_⟩
          split at hrun
          · cases hrun
          · next hany =>
            intro f hmem
            by_contra hne
            exact hany (List.any_eq_true.2 ⟨f, hmem, by simpa using hne⟩)
        · rw [bind_of_ok (fatDevRead_of_not hr)] at hrun
          cases hrun

/-! ## Freeing beside the directory -/

/-- Freeing up to `n` clusters from `c` on leaves sector `a` of the device alone: no number it comes
to has its entry in the FAT, or the mirror of that entry, in this sector. -/
def Spares (fs : FatFs) (a : UInt32) : Nat → UInt32 → Disk → Prop
  | 0, _, _ => True
  | n + 1, c, d => 2 ≤ c → c < endOfChain →
      fs.Covers (· ≠ a) (fs.writeIndex c) ∧
      (fs.fsType = .fat12 → fs.writeOffset c = 511 → fs.Covers (· ≠ a) (fs.writeIndex c + 1)) ∧
      ∀ b u, writeFatEntry fs c 0 ⟨b, d⟩ = .ok ((), u) → Spares fs a n (fs.next d c) u.disk

/-- Nothing is freed from a number that no cluster has. -/
theorem Spares.of_lt {a c : UInt32} (hc : ¬ 2 ≤ c) (n : Nat) (d : Disk) : fs.Spares a n c d := by
  cases n with
  | zero => trivial
  | succ n => exact fun h2 => absurd h2 hc

theorem Spares.freeChainLoop (h : fs.Sized) {a : UInt32} {n : Nat} {c : UInt32} {s u : FatState}
    (hs : fs.Spares a n c s.disk) (hrun : freeChainLoop fs n c s = .ok ((), u)) :
    u.disk.sector a = s.disk.sector a := by
  induction n generalizing c s with
  | zero =>
    cases hrun
    rfl
  | succ n ih =>
    unfold Fs.freeChainLoop at hrun
    split at hrun
    · next hc =>
      obtain ⟨hcov, hcov', hrest⟩ := hs hc.1 hc.2
      obtain ⟨⟨b1, d1⟩, h1, hd1⟩ := next_reads h.sector c s rfl
      obtain rfl : d1 = s.disk := hd1
      rw [bind_of_ok h1] at hrun
      obtain ⟨⟨⟩, u1, h2, -, hkeeps⟩ :=
        (within_writeFatEntry h hcov hcov' 0).run (⟨b1, s.disk⟩ : FatState)
      rw [bind_of_ok h2] at hrun
      have hsame := hkeeps a (by simp)
      split at hrun
      · cases hrun
        exact hsame
      · exact (ih (hrest _ _ h2) hrun).trans hsame
    · cases hrun
      rfl

/-! ## What can be found can be changed -/

/-- With enough fuel, `fat_set_file_meta` returns true for all values. -/
def CanSetMeta (fs : FatFs) (d : Disk) (path : List UInt8) : Prop :=
  ∀ m, ∃ f₀, ∀ fuel ≥ f₀, ∀ b, ∃ u, fatSetFileMeta fuel fs (some path) m ⟨b, d⟩ = .ok (true, u)

/-- With enough fuel, `fat_delete_file` returns true and the slot `t` is deleted. -/
def CanDelete (fs : FatFs) (d : Disk) (path : List UInt8) (t : DirSlot) : Prop :=
  ∃ f₀, ∀ fuel ≥ f₀, ∀ b, ∃ u, fatDeleteFile fuel fs (some path) ⟨b, d⟩ = .ok (true, u) ∧
    fs.entryAt u.disk t.lba t.offset 0 = 0xE5

/-- The device with the first byte of an entry overwritten by the mark of a deleted one. -/
def marked (fs : FatFs) (d : Disk) (t : DirSlot) : Disk :=
  d.write (fs.baseLba + t.lba) ((d.sector (fs.baseLba + t.lba)).set t.offset.toNat 0xE5)

theorem FoundAt.canSetMeta_iff (hf : fs.FoundAt d path r pre t) (h : fs.bytesPerSector = 512)
    (hi : fs.initialized = true) (hd : d.Reliable) :
    fs.CanSetMeta d path ↔ ∀ s ∈ pre, s.entry 0 ≠ 0xE5 := by
  constructor
  · intro hset
    obtain ⟨f₀, hset⟩ := hset ⟨0, 0, 0⟩
    obtain ⟨u, hrun⟩ := hset f₀ le_rfl Sector.zero
    obtain ⟨r', lba, offset, hfinds⟩ := finds_of_setMeta hrun
    exact hf.kept_of_finds h hd.readable hfinds
  · intro hkept m
    obtain ⟨f₀, hfinds⟩ := hf.finds h hd.readable hkept
    refine ⟨f₀, fun fuel hfuel b => ?_⟩
    have hrun := (hfinds fuel hfuel).fatSetFileMeta_run h hi m b
    have hw : d.wrote (fs.baseLba + t.lba) = true := hd.writable _ _
    rw [hw] at hrun
    exact ⟨_, hrun⟩

theorem FoundAt.canDelete_iff (hf : fs.FoundAt d path r pre t) (h : fs.Sized)
    (hi : fs.initialized = true) (hd : d.Reliable) (hfile : t.entry.isDir = false)
    (hspares : fs.Spares (fs.baseLba + t.lba) 65536 t.entry.firstCluster (fs.marked d t)) :
    fs.CanDelete d path t ↔ ∀ s ∈ pre, s.entry 0 ≠ 0xE5 := by
  constructor
  · rintro ⟨f₀, hdel⟩
    obtain ⟨u, hrun, -⟩ := hdel f₀ le_rfl Sector.zero
    obtain ⟨r', lba, offset, hfinds, -⟩ := finds_of_delete hrun
    exact hf.kept_of_finds h.sector hd.readable hfinds
  · intro hkept
    obtain ⟨f₀, hfinds⟩ := hf.finds h.sector hd.readable hkept
    obtain ⟨hentry, hoff⟩ := hf.entryAt_eq
    refine ⟨f₀, fun fuel hfuel b => ?_⟩
    have hw : d.wrote (fs.baseLba + t.lba) = true := hd.writable _ _
    have hcontents : Reads (dirContents fuel fs (fs.entryAt d t.lba t.offset)) d [] := by
      rw [hentry, dirContents, if_neg (by simp [hfile])]
      exact .pure _
    obtain ⟨s, u, hrun, hfree, hs⟩ :=
      (hfinds fuel hfuel).fatDeleteFile_run h.sector hi hcontents nofun hw b
    refine ⟨u, hrun, ?_⟩
    have hsector : u.disk.sector (fs.baseLba + t.lba) = s.disk.sector (fs.baseLba + t.lba) := by
      rw [hentry] at hfree
      unfold freeChainFrom at hfree
      split at hfree
      · exact Spares.freeChainLoop h (hs ▸ hspares) hfree
      · cases hfree
        rfl
    have hself : fs.baseLba + t.lba = fs.baseLba + t.lba ∧ d.wrote (fs.baseLba + t.lba) = true :=
      ⟨rfl, hw⟩
    unfold entryAt Sector.dirent
    rw [hsector, hs, Disk.write_sector, if_pos hself]
    unfold Sector.get Sector.set
    rw [dif_pos (by simp; omega)]
    exact if_pos rfl

/-- **Files that are found can be changed** on every volume the operations lead to, exactly when no
deleted slot stands before their entry. -/
theorem found_can_be_changed_iff (hs : fs.Sound) {d₀ : Disk} (hd₀ : d₀.Reliable)
    (hreach : fs.Reachable d₀ d) {e : Dirent}
    (hfind : Reads (fatFindFile fuel fs (some path)) d (some e)) (hfile : e.isDir = false) :
    ∃ r pre t, fs.FoundAt d path r pre t ∧ t.entry = e ∧
      (fs.CanSetMeta d path ↔ ∀ s ∈ pre, s.entry 0 ≠ 0xE5) ∧
      (fs.Spares (fs.baseLba + t.lba) 65536 e.firstCluster (fs.marked d t) →
        (fs.CanDelete d path t ↔ ∀ s ∈ pre, s.entry 0 ≠ 0xE5)) := by
  have hd := hreach.reliable hd₀
  obtain ⟨r, pre, t, hf, rfl⟩ := exists_foundAt hs.sized.sector hs.initialized hfind
  exact ⟨r, pre, t, hf, rfl, hf.canSetMeta_iff hs.sized.sector hs.initialized hd,
    fun hspares => hf.canDelete_iff hs.sized hs.initialized hd hfile hspares⟩

/-- The root region holds the empty files A and B. -/
def twoFiles : Disk := ⟨fun a => if a = 3 then Sector.ofDirents
  [newDirent (makeName83 [0x41]) 0x20 0 0, newDirent (makeName83 [0x42]) 0x20 0 0] else
  Sector.zero, fun _ => true, fun _ _ => true, 0⟩

/-- The file B there, which has no cluster. -/
theorem found_can_be_changed_iff_second :
    ∃ r pre t, sampleFs.FoundAt twoFiles [0x42] r pre t ∧
      t.entry = newDirent (makeName83 [0x42]) 0x20 0 0 ∧
      (sampleFs.CanSetMeta twoFiles [0x42] ↔ ∀ s ∈ pre, s.entry 0 ≠ 0xE5) ∧
      (sampleFs.CanDelete twoFiles [0x42] t ↔ ∀ s ∈ pre, s.entry 0 ≠ 0xE5) := by
  obtain ⟨r, pre, t, hf, he, hset, hdelete⟩ := found_can_be_changed_iff sampleFs_sound
    (show twoFiles.Reliable from ⟨fun _ => rfl, fun _ _ => rfl⟩) .start
    (reads_of_evalOn (readOnly_fatFindFile 1 sampleFs (some [0x42]))
      (show evalOn _ twoFiles = some (some (newDirent (makeName83 [0x42]) 0x20 0 0)) by
        decide +kernel)) (by decide)
  exact ⟨r, pre, t, hf, he, hset, hdelete (.of_lt (by decide) _ _)⟩

/-- What the deletion of A leaves. -/
def firstDeleted : Disk :=
  match fatDeleteFile 1 sampleFs (some [0x41]) ⟨Sector.zero, twoFiles⟩ with
  | .ok (_, u) => u.disk
  | .error _ => twoFiles

theorem firstDeleted_reachable : sampleFs.Reachable twoFiles firstDeleted := by
  unfold firstDeleted
  split
  · next ok u hrun => exact .delete .start hrun
  · exact .start

/-- B is found there, and can neither be changed nor deleted. -/
theorem second_file_not_changeable : ¬ ∀ (fs : FatFs) (d₀ d : Disk) (path : List UInt8)
    (e : Dirent) (fuel : Nat), fs.Sound → d₀.Reliable → fs.Reachable d₀ d →
      Reads (fatFindFile fuel fs (some path)) d (some e) → e.isDir = false →
      fs.CanSetMeta d path ∧ ∃ t, fs.CanDelete d path t := by
  intro h
  have hr : twoFiles.Reliable := ⟨fun _ => rfl, fun _ _ => rfl⟩
  have hres : Reads (fatResolveParent 1 sampleFs (some [0x42])) firstDeleted
      ⟨0, makeName83 [0x42], some (newDirent (makeName83 [0x42]) 0x20 0 0)⟩ :=
    reads_of_evalOn (readOnly_fatResolveParent _ _ _) (by decide +kernel)
  have hslot : Reads (dirFindSlot 1 sampleFs 0 (makeName83 [0x42])) firstDeleted (.free 3 0) :=
    reads_of_evalOn (readOnly_dirFindSlot _ _ _ _) (by decide +kernel)
  obtain ⟨hset, -⟩ := h sampleFs twoFiles firstDeleted [0x42] _ 1 sampleFs_sound hr
    firstDeleted_reachable
    (reads_of_evalOn (readOnly_fatFindFile 1 sampleFs _)
      (show evalOn _ firstDeleted = some (some (newDirent (makeName83 [0x42]) 0x20 0 0)) by
        decide +kernel))
    (by decide)
  obtain ⟨f₀, hset⟩ := hset ⟨0, 0, 0⟩
  obtain ⟨u, hrun⟩ := hset f₀ le_rfl Sector.zero
  obtain ⟨r, lba, offset, hfinds⟩ := finds_of_setMeta hrun
  have hfinds := hfinds.mono rfl (le_max_left f₀ 1)
  have hr := hfinds.resolve.unique (fatResolveParent_mono rfl (le_max_right f₀ 1) hres)
  have hname := hfinds.slot
  rw [hr] at hname
  cases hname.unique (dirFindSlot_mono rfl (le_max_right f₀ 1) hslot)

end FatFs

end HaoSys.Fs
