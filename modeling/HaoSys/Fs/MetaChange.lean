import HaoSys.Fs.Change
import HaoSys.Fs.Mkdir

/-!
# Reading changed metadata back

`fat_set_file_meta` changes seven bytes of one entry, the one that
`fat_find_file` returns for the path. No directory looks different for it but
in these bytes, so the path is followed to the entry again wherever the
listings on the way still end. Behind a directory without an end marker they
take the driver's end mark for one more cluster, and then the seven bytes may
be read as a link.
-/

namespace HaoSys.Fs

open HaoSys.Lib Prog DirSlot

/-- `fat_get_file_meta`. -/
def fatGetFileMeta (fuel : Nat) (fs : FatFs) (filename : Option (List UInt8)) :
    FatM (Option UnixMeta) :=
  if !fs.initialized ∨ filename = none then pure none
  else do
    match ← fatFindFile fuel fs filename with
    | none => pure none
    | some e => pure (some e.unixMeta)

/-! ## One entry with other metadata -/

/-- Bytes that hold no metadata stay. -/
theorem Dirent.setUnixMeta_apply (e : Dirent) (m : UnixMeta) {j : Fin 32}
    (hj : j.val < 13 ∨ 20 ≤ j.val) : e.setUnixMeta m j = e j := by
  unfold Dirent.setUnixMeta
  split <;> first | omega | rfl

theorem Dirent.setUnixMeta_isDir (e : Dirent) (m : UnixMeta) : (e.setUnixMeta m).isDir = e.isDir := by
  unfold Dirent.isDir Dirent.attributes
  rw [Dirent.setUnixMeta_apply e m (.inl (by decide))]

theorem Dirent.setUnixMeta_firstCluster (e : Dirent) (m : UnixMeta) :
    (e.setUnixMeta m).firstCluster = e.firstCluster := by
  unfold Dirent.firstCluster
  rw [Dirent.setUnixMeta_apply e m (.inr (by decide)), Dirent.setUnixMeta_apply e m (.inr (by decide)),
    Dirent.setUnixMeta_apply e m (.inr (by decide)), Dirent.setUnixMeta_apply e m (.inr (by decide))]

theorem Dirent.setUnixMeta_zero (e : Dirent) (m : UnixMeta) : e.setUnixMeta m 0 = e 0 :=
  e.setUnixMeta_apply m (.inl (by decide))

namespace DirSlot

/-- The slot with other metadata, if it is at the place. -/
def remeta (lba offset : UInt32) (m : UnixMeta) (s : DirSlot) : DirSlot :=
  if s.lba = lba ∧ s.offset = offset then { s with entry := s.entry.setUnixMeta m } else s

variable {lba offset : UInt32} {m : UnixMeta} {s : DirSlot} {es : List DirSlot}

theorem remeta_cases (lba offset : UInt32) (m : UnixMeta) (s : DirSlot) :
    (remeta lba offset m s).entry = s.entry ∨
      (remeta lba offset m s).entry = s.entry.setUnixMeta m := by
  unfold remeta
  split
  · exact .inr rfl
  · exact .inl rfl

@[simp] theorem remeta_zero : (remeta lba offset m s).entry 0 = s.entry 0 := by
  rcases remeta_cases lba offset m s with h | h <;> rw [h]
  exact s.entry.setUnixMeta_zero m

@[simp] theorem remeta_upperName :
    (remeta lba offset m s).entry.upperName = s.entry.upperName := by
  rcases remeta_cases lba offset m s with h | h <;> rw [h]
  exact setUnixMeta_upperName s.entry m

@[simp] theorem remeta_isDir : (remeta lba offset m s).entry.isDir = s.entry.isDir := by
  rcases remeta_cases lba offset m s with h | h <;> rw [h]
  exact s.entry.setUnixMeta_isDir m

@[simp] theorem remeta_firstCluster :
    (remeta lba offset m s).entry.firstCluster = s.entry.firstCluster := by
  rcases remeta_cases lba offset m s with h | h <;> rw [h]
  exact s.entry.setUnixMeta_firstCluster m

theorem live_remeta (es : List DirSlot) :
    live (es.map (remeta lba offset m)) = (live es).map (remeta lba offset m) := by
  unfold live
  rw [List.takeWhile_map, List.filter_map]
  simp only [Function.comp_def, remeta_zero]

/-- The first slot of a name is the same one. -/
theorem find?_remeta (es : List DirSlot) (name : Name83) :
    ((live (es.map (remeta lba offset m))).take 128).find? (fun t => t.entry.upperName = name) =
      (((live es).take 128).find? fun t => t.entry.upperName = name).map (remeta lba offset m) := by
  rw [live_remeta, ← List.map_take, List.find?_map]
  simp only [Function.comp_def, remeta_upperName]

end DirSlot

namespace FatFs

variable {fs : FatFs} {d : Disk} {path : List UInt8} {r : Resolved} {pre : List DirSlot}
  {t : DirSlot} {lba offset z dir : UInt32} {cs : List UInt32} {fuel : Nat} {m : UnixMeta}

/-- The device with the new metadata in the entry. -/
def withMeta (fs : FatFs) (d : Disk) (lba offset : UInt32) (m : UnixMeta) : Disk :=
  d.write (fs.baseLba + lba) (fs.metaSector d lba offset m)

/-- Byte `k` of sector `a` of the device is one of the seven metadata bytes of the entry. -/
def MetaByte (fs : FatFs) (lba offset a : UInt32) (k : Fin 512) : Prop :=
  a = fs.baseLba + lba ∧ offset.toNat + 13 ≤ k.val ∧ k.val < offset.toNat + 20

/-- No other byte of the device is changed. -/
theorem withMeta_sector {a : UInt32} {k : Fin 512} (h : ¬ fs.MetaByte lba offset a k) :
    (fs.withMeta d lba offset m).sector a k = d.sector a k := by
  unfold withMeta
  rw [Disk.write_sector]
  split
  · next ha =>
    obtain ⟨rfl, -⟩ := ha
    unfold metaSector Sector.setDirent
    split
    · next hk =>
      rw [Dirent.setUnixMeta_apply]
      · unfold entryAt Sector.dirent Sector.get
        rw [dif_pos (by simp only; omega)]
        congr 1
        exact Fin.ext (by simp only; omega)
      · by_contra hj
        exact h ⟨rfl, by simp only at hj; omega, by simp only at hj; omega⟩
    · rfl
  · rfl

/-- The entry itself. -/
theorem entryAt_withMeta (hd : d.Reliable) (hoff : offset.toNat + 32 ≤ 512) :
    fs.entryAt (fs.withMeta d lba offset m) lba offset =
      (fs.entryAt d lba offset).setUnixMeta m := by
  have hw : d.wrote (fs.baseLba + lba) = true := hd.writable _ _
  unfold entryAt withMeta
  rw [Disk.write_sector, if_pos ⟨rfl, hw⟩]
  funext j
  have hlt : offset.toNat + j.val < 512 := by omega
  unfold metaSector Sector.dirent Sector.get Sector.setDirent
  rw [dif_pos hlt, dif_pos ⟨by simp, by simp⟩]
  congr 1
  exact Fin.ext (by simp)

/-! ## Directories on the two devices -/

/-- A directory: its number, the places it lies in and the last entry of its chain. -/
structure DirPlace where
  dir : UInt32
  places : List UInt32
  last : UInt32

/-- A listing of 128 entries of the directory ends: it stays in the directory, or stops somewhere
behind it. -/
def ListingEnds (fs : FatFs) (d : Disk) (p : DirPlace) : Prop :=
  fs.StaysIn d 128 p.dir p.places p.last ∨
    ∃ k, fs.ReadStops d 128 (min (live (fs.dirSlots d p.places)).length 128) p.last k

/-- The directory lies in places of the volume, and there the name is found in the slot `t`. -/
structure NameAt (fs : FatFs) (d : Disk) (name : Name83) (p : DirPlace) (t : DirSlot) :
    Prop where
  walk : fs.DirAt d p.dir p.places p.last
  places : ∀ c ∈ p.places, fs.Place c
  found : ((live (fs.dirSlots d p.places)).take 128).find?
    (fun t => t.entry.upperName = name) = some t

variable {name : Name83} {p : DirPlace}

namespace NameAt

theorem sectors (h : fs.NameAt d name p t) :
    DirSectors fs d p.dir (p.places.flatMap fs.regionSectors) := by
  obtain ⟨h0, hp⟩ | ⟨hw, hne⟩ := h.walk
  · rw [hp, List.flatMap_singleton]
    exact .root h0
  · exact .chain hw hne

/-- The directory does not have the number that stands for failure. -/
theorem dir_ne (h : fs.NameAt d name p t) : p.dir ≠ 0xFFFFFFFF := by
  intro he
  obtain ⟨h0, -⟩ | ⟨hw, hne⟩ := h.walk
  · rw [he] at h0
    exact absurd (dir_zero h0) (by decide)
  · obtain ⟨x, cs, hcs⟩ := List.exists_cons_of_ne_nil hne
    rw [hcs, he, show dirStart fs 0xFFFFFFFF = 0xFFFFFFFF from
      if_neg fun h => absurd h.1 (by decide)] at hw
    have hx := (hw.valid x List.mem_cons_self).2.1
    rw [← hw.tail.1] at hx
    exact absurd hx (by decide)

theorem mem (h : fs.NameAt d name p t) : t ∈ fs.dirSlots d p.places := by
  have hlive := List.mem_of_mem_take (List.mem_of_find?_eq_some h.found)
  exact List.takeWhile_subset _ (List.mem_of_mem_filter hlive)

variable (hs : fs.Sound) (hr : ∀ a, d.readable a = true)

include hs hr

theorem findName (h : fs.NameAt d name p t) (hends : fs.ListingEnds d p) :
    ∃ f₀, ∀ fuel ≥ f₀, Reads (dirFindName fuel fs p.dir name) d (some t.entry) := by
  obtain ⟨f₀, hread⟩ := (h.walk.readDir_ends_iff hs.sized hs.initialized hr
    (show (128 : UInt32) ≠ 0 by decide)).2 hends
  refine ⟨f₀, fun fuel hfuel => ?_⟩
  obtain ⟨es, hes⟩ := hread fuel hfuel
  have hfind := (dirFindName_iff (n := name)).2 ⟨es, hes, rfl⟩
  have hstart := (h.sectors.findName hs.sized hs.initialized hr hfind).1 t.entry (by
    rw [← dirSlots_eq, ← List.map_take, find?_map_entry, h.found]
    rfl)
  rwa [hstart] at hfind

/-- Whatever is returned, the listing has ended, and it is the entry of the slot. -/
theorem of_findName (h : fs.NameAt d name p t) {o : Option Dirent}
    (ho : Reads (dirFindName fuel fs p.dir name) d o) : fs.ListingEnds d p ∧ o = some t.entry := by
  have hends : fs.ListingEnds d p := by
    obtain ⟨es, hes, -⟩ := dirFindName_iff.1 ho
    exact (h.walk.readDir_ends_iff hs.sized hs.initialized hr
      (show (128 : UInt32) ≠ 0 by decide)).1
      ⟨fuel, fun fuel' hfuel => ⟨es, fatReadDir_mono hs.sized.sector hfuel hes⟩⟩
  obtain ⟨f₀, hf⟩ := h.findName hs hr hends
  exact ⟨hends, (dirFindName_mono hs.sized.sector (le_max_left fuel f₀) ho).unique
    (hf _ (le_max_right fuel f₀))⟩

end NameAt

/-- `dir_find_slot` comes to the slot of the name, unless a deleted one stands before it. -/
theorem NameAt.slot (h : fs.NameAt d name p t) (hs : fs.Sound) (hr : ∀ a, d.readable a = true)
    (hslot : Reads (dirFindSlot fuel fs p.dir name) d (.sameName lba offset)) :
    t.lba = lba ∧ t.offset = offset := by
  have hfound : (live (fs.dirSlots d p.places)).find? (fun t => t.entry.upperName = name) =
      some t := by
    rw [← List.take_append_drop 128 (live _), List.find?_append, h.found, Option.some_or]
  obtain ⟨pre, post, hsplit, hlead⟩ := exists_leading hfound
  by_cases hdel : ∃ s ∈ pre, s.entry 0 = 0xE5
  · obtain ⟨l, o, hfree⟩ := hlead.findSlot_free hdel post
    rw [← hsplit, dirSlots_eq] at hfree
    cases h.sectors.findSlot hs.sized hr hfree hslot
  · have hsame : DirSlot.findSlot name (pre ++ t :: post) = _ :=
      hlead.findSlot_sameName fun s hs h5 => hdel ⟨s, hs, h5⟩
    rw [← hsplit, dirSlots_eq] at hsame
    cases h.sectors.findSlot hs.sized hr hsame hslot
    exact ⟨rfl, rfl⟩

/-! ## Paths -/

/-- From the directory `dir` the names lead through the directories `ps` to `dir'`. -/
inductive Trail (fs : FatFs) (d : Disk) (dir' : UInt32) :
    List Name83 → UInt32 → List DirPlace → Prop
  | here : Trail fs d dir' [] dir' []
  | step {n : Name83} {ns : List Name83} {p : DirPlace} {ps : List DirPlace} {t : DirSlot}
      (at_name : fs.NameAt d n p t) (isDir : t.entry.isDir = true)
      (rest : Trail fs d dir' ns t.entry.firstCluster ps) : Trail fs d dir' (n :: ns) p.dir (p :: ps)

variable {ns : List Name83} {ps : List DirPlace} {dir' : UInt32}

theorem Trail.walkDirs (h : fs.Trail d dir' ns dir ps) (hs : fs.Sound)
    (hr : ∀ a, d.readable a = true) (hends : ∀ p ∈ ps, fs.ListingEnds d p) (f : Dirent) :
    ∃ f₀ f', ∀ fuel ≥ f₀, Reads (walkDirs fuel fs ns (dir, f)) d (some (dir', f')) := by
  induction h generalizing f with
  | here => exact ⟨0, f, fun _ _ => .pure _⟩
  | @step n ns p ps t hat isDir _ ih =>
    obtain ⟨f₁, f', hrest⟩ := ih (fun q hq => hends q (List.mem_cons_of_mem _ hq)) t.entry
    obtain ⟨f₀, hread⟩ := hat.findName hs hr (hends p List.mem_cons_self)
    refine ⟨max f₀ f₁, f', fun fuel hfuel => (hread fuel (by omega)).bind ?_⟩
    simp only [isDir, if_true]
    exact hrest fuel (by omega)

theorem Trail.of_walkDirs (h : fs.Trail d dir' ns dir ps) (hs : fs.Sound)
    (hr : ∀ a, d.readable a = true) {f : Dirent} {q : Option (UInt32 × Dirent)}
    (hq : Reads (Fs.walkDirs fuel fs ns (dir, f)) d q) :
    (∀ p ∈ ps, fs.ListingEnds d p) ∧ ∃ f', q = some (dir', f') := by
  induction h generalizing f with
  | here => exact ⟨nofun, f, Reads.of_pure hq⟩
  | @step n ns p ps t hat isDir _ ih =>
    obtain ⟨o, ho, hrest⟩ := hq.bind_inv (readOnly_dirFindName fuel fs _ n) fun o => by
      cases o with
      | none => exact .pure _
      | some e => exact .ite (fun _ => readOnly_walkDirs fuel fs _ _) fun _ => .pure _
    obtain ⟨hends, rfl⟩ := hat.of_findName hs hr ho
    simp only [isDir, if_true] at hrest
    obtain ⟨hall, hlast⟩ := ih hrest
    refine ⟨fun q hq => ?_, hlast⟩
    obtain rfl | hq := List.mem_cons.1 hq
    · exact hends
    · exact hall q hq

/-- The path leads through the directories `ps` to the slot `t` in the directory `p`. -/
structure OnPath (fs : FatFs) (d : Disk) (path : List UInt8) (name : Name83)
    (ps : List DirPlace) (p : DirPlace) (t : DirSlot) : Prop where
  trail : fs.Trail d p.dir (splitPath path).1 0 ps
  last : (splitPath path).2 = some name
  found : fs.NameAt d name p t

/-- With enough fuel, `fat_get_file_meta` returns the values. -/
def GetsMeta (fs : FatFs) (d : Disk) (path : List UInt8) (m : UnixMeta) : Prop :=
  ∃ f₀, ∀ fuel ≥ f₀, Reads (fatGetFileMeta fuel fs (some path)) d (some m)

/-- The path is followed to its slot exactly where the listings on the way end. -/
theorem OnPath.getsMeta_iff (h : fs.OnPath d path name ps p t) (hs : fs.Sound)
    (hr : ∀ a, d.readable a = true) :
    fs.GetsMeta d path t.entry.unixMeta ↔ ∀ q ∈ ps ++ [p], fs.ListingEnds d q := by
  have hcond : ¬ ((!fs.initialized) = true ∨ some path = none) := by simp [hs.initialized]
  constructor
  · rintro ⟨f₀, hget⟩
    have hget := hget f₀ (Nat.le_refl _)
    unfold fatGetFileMeta at hget
    rw [if_neg hcond] at hget
    obtain ⟨o, ho, hget⟩ := hget.bind_inv (readOnly_fatFindFile f₀ fs _) fun o => by
      cases o with
      | none => exact .pure _
      | some e => exact .pure _
    cases o with
    | none => cases Reads.of_pure hget
    | some e =>
      obtain ⟨r, hres, hparent, -⟩ := fatFindFile_reads ho
      obtain ⟨f, hwalk, hname, hfind⟩ := fatResolveParent_reads (fun _ => 0) hres hparent
      obtain ⟨hends, f', hq⟩ := h.trail.of_walkDirs hs hr hwalk
      rw [h.last] at hname
      cases hname
      rw [(Prod.mk.inj (Option.some.inj hq)).1] at hfind
      intro q hq
      obtain hq | hq := List.mem_append.1 hq
      · exact hends q hq
      · rw [List.mem_singleton.1 hq]
        exact (h.found.of_findName hs hr hfind).1
  · intro hends
    obtain ⟨f₁, f', hwalk⟩ := h.trail.walkDirs hs hr
      (fun q hq => hends q (List.mem_append_left _ hq)) fun _ => 0
    obtain ⟨f₂, hfind⟩ := h.found.findName hs hr (hends p (by simp))
    refine ⟨max f₁ f₂, fun fuel hfuel => ?_⟩
    have hres := reads_fatResolveParent (hwalk fuel (by omega)) h.last (hfind fuel (by omega))
    unfold fatGetFileMeta fatFindFile
    rw [if_neg hcond]
    refine Gives.bind (a := some t.entry) ?_ (.pure _)
    rw [if_neg (by simp [hs.initialized])]
    refine hres.bind ?_
    rw [if_neg h.found.dir_ne]
    exact .pure _

/-! ## The path behind the change -/

section Changed

variable {c : UInt32} (hs : fs.Sound) (hd : d.Reliable) (hc : fs.Place c)
  (hl : lba ∈ fs.regionSectors c)

include hs hd hc hl

theorem dirSlots_withMeta {j : Nat} (hj : j < 16) (hoff : offset = UInt32.ofNat (32 * j))
    (hcs : ∀ c ∈ cs, fs.Place c) :
    fs.dirSlots (fs.withMeta d lba offset m) cs =
      (fs.dirSlots d cs).map (remeta lba offset m) := by
  have hfills : fs.Fills (fun _ => False) (fun _ => False) lba offset
      ((fs.entryAt d lba offset).setUnixMeta m) d (fs.withMeta d lba offset m) :=
    (ChangesIn.refl fs _ _ d).fills hs hd hc hl
  rw [hfills.dirSlots hs (fun _ h => h.elim) hj hoff fun c hc => ⟨hcs c hc, id⟩, put]
  refine List.map_congr_left fun s hmem => ?_
  unfold remeta
  split
  · next hat =>
    obtain ⟨x, -, -, i, hi, hso, he⟩ := mem_dirSlots hmem
    rw [he, ← ofNat_slot hi, ← hso, hat.1, hat.2]
    rfl
  · rfl

theorem NameAt.withMeta (h : fs.NameAt d name p t) {j : Nat} (hj : j < 16)
    (hoff : offset = UInt32.ofNat (32 * j)) :
    fs.NameAt (fs.withMeta d lba offset m) name p (remeta lba offset m t) := by
  have hfat : fs.table (fs.withMeta d lba offset m) = fs.table d :=
    funext fun x => (hs.within_write (d := d) hc hl _).table x id
  refine ⟨h.walk.imp_right fun hw => ⟨⟨?_, hw.1.valid⟩, hw.2⟩, h.places, ?_⟩
  · rw [hfat]
    exact hw.1.follows
  · rw [dirSlots_withMeta hs hd hc hl hj hoff h.places, find?_remeta, h.found]
    rfl

theorem Trail.withMeta (h : fs.Trail d dir' ns dir ps) {j : Nat} (hj : j < 16)
    (hoff : offset = UInt32.ofNat (32 * j)) :
    fs.Trail (fs.withMeta d lba offset m) dir' ns dir ps := by
  induction h with
  | here => exact .here
  | @step n ns p ps t hat isDir _ ih =>
    refine .step (hat.withMeta hs hd hc hl hj hoff) (by rwa [remeta_isDir]) ?_
    rw [remeta_firstCluster]
    exact ih

end Changed

/-- The slot that the path leads to is the one that `fat_set_file_meta` has found. -/
theorem OnPath.finds (h : fs.OnPath d path name ps p t) (hs : fs.Sound)
    (hr : ∀ a, d.readable a = true) (hf : fs.Finds d fuel path r lba offset) :
    t.lba = lba ∧ t.offset = offset := by
  obtain ⟨f, hwalk, hname, -⟩ := fatResolveParent_reads (fun _ => 0) hf.resolve hf.parent
  obtain ⟨-, f', hq⟩ := h.trail.of_walkDirs hs hr hwalk
  rw [h.last] at hname
  cases hname
  have hslot := hf.slot
  rw [(Prod.mk.inj (Option.some.inj hq)).1] at hslot
  exact h.found.slot hs hr hslot

/-- Behind the change the path is followed to the new metadata exactly where the listings end. -/
theorem OnPath.getsMeta_withMeta_iff (h : fs.OnPath d path name ps p t) (hs : fs.Sound)
    (hd : d.Reliable) (m : UnixMeta) :
    fs.GetsMeta (fs.withMeta d t.lba t.offset m) path m ↔
      ∀ q ∈ ps ++ [p], fs.ListingEnds (fs.withMeta d t.lba t.offset m) q := by
  obtain ⟨c, hc, hl, j, hj, hoff, -⟩ := mem_dirSlots h.found.mem
  have hc := h.found.places c hc
  have hnew : fs.OnPath (fs.withMeta d t.lba t.offset m) path name ps p
      (remeta t.lba t.offset m t) :=
    ⟨h.trail.withMeta hs hd hc hl hj hoff, h.last, h.found.withMeta hs hd hc hl hj hoff⟩
  have hmeta : (remeta t.lba t.offset m t).entry.unixMeta = m := by
    unfold remeta
    rw [if_pos ⟨rfl, rfl⟩]
    exact t.entry.unixMeta_setUnixMeta m
  have hiff := hnew.getsMeta_iff hs (by exact hd.readable)
  rwa [hmeta] at hiff

/-! ## The call -/

/-- What a successful call has done: the entry at the slot is the one that `fat_find_file` returns
for the path, and its metadata are all that is new on the device. -/
structure SetsMeta (fs : FatFs) (d d' : Disk) (path : List UInt8) (m : UnixMeta) (t : DirSlot) :
    Prop where
  found : ∃ r pre, fs.FoundAt d path r pre t
  device : d' = fs.withMeta d t.lba t.offset m
  entry : fs.entryAt d' t.lba t.offset = t.entry.setUnixMeta m
  fields : ∀ j : Fin 32, j.val < 13 ∨ 20 ≤ j.val → t.entry.setUnixMeta m j = t.entry j
  bytes : ∀ a k, ¬ fs.MetaByte t.lba t.offset a k → d'.sector a k = d.sector a k

theorem setsMeta_of_run (hs : fs.Sound) (hd : d.Reliable) {b : Sector} {u : FatState}
    (hset : fatSetFileMeta fuel fs (some path) m ⟨b, d⟩ = .ok (true, u)) :
    ∃ t, fs.SetsMeta d u.disk path m t ∧ ∃ r, fs.Finds d fuel path r t.lba t.offset := by
  obtain ⟨r, lba, offset, hf⟩ := finds_of_setMeta hset
  have hw : d.wrote (fs.baseLba + lba) = true := hd.writable _ _
  have hrun := hf.fatSetFileMeta_run hs.sized.sector hs.initialized m b
  rw [hw, hset] at hrun
  cases hrun
  obtain ⟨e, he⟩ := Option.ne_none_iff_exists'.1 hf.entry
  have hfind : Reads (fatFindFile fuel fs (some path)) d (some e) := by
    unfold fatFindFile
    rw [if_neg (by simp [hs.initialized])]
    refine hf.resolve.bind ?_
    rw [if_neg hf.parent, he]
    exact .pure _
  obtain ⟨r', pre, t, hfound, rfl⟩ := exists_foundAt hs.sized.sector hs.initialized hfind
  obtain ⟨f₀, hfinds⟩ := hfound.finds hs.sized.sector hd.readable
    (hfound.kept_of_finds hs.sized.sector hd.readable hf)
  obtain ⟨rfl, rfl, rfl⟩ := (hfinds f₀ (Nat.le_refl _)).unique hf hs.sized.sector
  obtain ⟨hentry, hoff⟩ := hfound.entryAt_eq
  refine ⟨t, ⟨⟨_, pre, hfound⟩, rfl, ?_, fun j hj => t.entry.setUnixMeta_apply m hj,
    fun a k hk => withMeta_sector hk⟩, _, hf⟩
  rw [← hentry]
  exact entryAt_withMeta hd hoff

/-- **Metadata set and read back**: a successful call changes the seven bytes of the entry found and
nothing else, and `fat_get_file_meta` returns them for the path exactly where the listings of the
directories on it end on the device as it is now. -/
theorem fat_set_file_meta_read_back (hs : fs.Sound) (hd : d.Reliable) {b : Sector} {u : FatState}
    (hset : fatSetFileMeta fuel fs (some path) m ⟨b, d⟩ = .ok (true, u)) :
    ∃ t, fs.SetsMeta d u.disk path m t ∧
      ∀ name ps p s, fs.OnPath d path name ps p s →
        (fs.GetsMeta u.disk path m ↔
          ∀ q ∈ ps ++ [p], fs.ListingEnds (fs.withMeta d s.lba s.offset m) q) := by
  obtain ⟨t, hsets, r, hf⟩ := setsMeta_of_run hs hd hset
  refine ⟨t, hsets, fun name ps p s hon => ?_⟩
  obtain ⟨hlba, hoff⟩ := hon.finds hs hd.readable hf
  rw [hsets.device, ← hlba, ← hoff]
  exact hon.getsMeta_withMeta_iff hs hd m

/-- The file A of the volume with two files. -/
theorem twoFiles_finds : sampleFs.Finds twoFiles 1 [0x41]
    ⟨0, makeName83 [0x41], some (newDirent (makeName83 [0x41]) 0x20 0 0)⟩ 3 0 :=
  ⟨reads_of_evalOn (readOnly_fatResolveParent _ _ _) (by decide +kernel), by decide, by decide,
    reads_of_evalOn (readOnly_dirFindSlot _ _ _ _) (by decide +kernel)⟩

theorem fat_set_file_meta_read_back_first :
    ∃ t, sampleFs.SetsMeta twoFiles (sampleFs.withMeta twoFiles 3 0 ⟨0o100600, 5, 6⟩) [0x41]
        ⟨0o100600, 5, 6⟩ t ∧
      ∀ name ps p s, sampleFs.OnPath twoFiles [0x41] name ps p s →
        (sampleFs.GetsMeta (sampleFs.withMeta twoFiles 3 0 ⟨0o100600, 5, 6⟩) [0x41]
            ⟨0o100600, 5, 6⟩ ↔
          ∀ q ∈ ps ++ [p], sampleFs.ListingEnds
            (sampleFs.withMeta twoFiles s.lba s.offset ⟨0o100600, 5, 6⟩) q) :=
  fat_set_file_meta_read_back sampleFs_sound ⟨fun _ => rfl, fun _ _ => rfl⟩
    (twoFiles_finds.fatSetFileMeta_run rfl rfl ⟨0o100600, 5, 6⟩ Sector.zero)

/-! ## A link made of metadata -/

/-- A FAT16 volume with 254 clusters of one sector and FATs of one sector. -/
def flatFs : FatFs := ⟨0, 1, 2, 1, 1, 4, 258, 1, 512, .fat16, 0, true⟩

theorem flatFs_sound : flatFs.Sound := by
  refine ⟨⟨rfl, by decide, by decide⟩, rfl, by decide, rfl, rfl, by decide, by decide,
    by decide, fun c hc => ?_, by decide, by decide⟩
  have hlim : flatFs.clusterLimit.toNat = 256 := by decide
  rw [hlim] at hc
  change c * 2 + 2 ≤ 1 * 512
  omega

/-- The last entry of D is F. -/
def lastFile : Dirent := newDirent (makeName83 [0x46]) 0x20 0 0

/-- Cluster 254 is the directory D, full and with the driver's end mark. The bytes of uid in its
last entry are where the entry of cluster 0xFFF8 would lie, and the sector of that cluster, behind
the volume, has no end marker. -/
def fullD : Disk := ⟨fun a =>
  if a = 1 ∨ a = 2 then Sector.zero.set16 508 0xFFF8
  else if a = 3 then Sector.ofDirents [newDirent (makeName83 [0x44]) 0x10 254 0]
  else if a = 256 then Sector.ofDirents ((List.range 15).map (fun k =>
    newDirent (makeName83 [0x41, UInt8.ofNat (0x41 + k)]) 0x20 0 0) ++ [lastFile])
  else if a = 65530 then fun _ => 0x41
  else Sector.zero, fun _ => true, fun _ _ => true, 0⟩

theorem fullD_finds : flatFs.Finds fullD 3 [0x44, 0x2F, 0x46]
    ⟨254, makeName83 [0x46], some lastFile⟩ 256 480 :=
  ⟨reads_of_evalOn (readOnly_fatResolveParent _ _ _) (by decide +kernel), by decide, by decide,
    reads_of_evalOn (readOnly_dirFindSlot _ _ _ _) (by decide +kernel)⟩

/-- D/F is the last file of the directory's own cluster. -/
theorem fullD_onPath : flatFs.OnPath fullD [0x44, 0x2F, 0x46] (makeName83 [0x46]) [⟨0, [0], 0⟩]
    ⟨254, [254], 0xFFF8⟩ ⟨256, 480, lastFile⟩ := by
  have hsplit : (splitPath [0x44, 0x2F, 0x46]).1 = [makeName83 [0x44]] := rfl
  have hroot : flatFs.NameAt fullD (makeName83 [0x44]) ⟨0, [0], 0⟩
      ⟨3, 0, newDirent (makeName83 [0x44]) 0x10 254 0⟩ :=
    ⟨.inl ⟨by decide, rfl⟩, fun _ hx => .inl (List.mem_singleton.1 hx), by decide +kernel⟩
  refine ⟨?_, rfl, .inr ⟨⟨by decide +kernel, fun x hx => ?_⟩, by simp⟩, fun x hx => ?_,
    by decide +kernel⟩
  · rw [hsplit]
    refine .step hroot (newDirent_isDir (makeName83 [0x44]) 254 0) ?_
    rw [newDirent_firstCluster]
    exact .here
  · rw [List.mem_singleton.1 hx]
    exact ⟨by decide, by decide, by decide⟩
  · rw [List.mem_singleton.1 hx]
    exact .inr ⟨by decide, by decide⟩

/-- With the uid 0xFFF8 the cluster behind the directory leads to itself. -/
theorem fullD_not_ends : ¬ flatFs.ListingEnds
    (flatFs.withMeta fullD 256 480 ⟨0o100644, 0xFFF8, 0⟩) ⟨254, [254], 0xFFF8⟩ := by
  rintro (h | ⟨k, hk⟩)
  · revert h
    unfold StaysIn
    decide +kernel
  · exact not_readStops_of_self (by decide +kernel) (by decide +kernel) (by decide +kernel) _ _ k hk

/-- **The call succeeds, and the file is not found again.** -/
theorem meta_not_read_back : ¬ ∀ (fs : FatFs) (d : Disk) (path : List UInt8) (name : Name83)
    (ps : List DirPlace) (p : DirPlace) (t : DirSlot) (m : UnixMeta) (fuel : Nat) (b : Sector)
    (u : FatState), fs.Sound → d.Reliable → fs.OnPath d path name ps p t →
      fatSetFileMeta fuel fs (some path) m ⟨b, d⟩ = .ok (true, u) → fs.GetsMeta u.disk path m := by
  intro h
  have hd : fullD.Reliable := ⟨fun _ => rfl, fun _ _ => rfl⟩
  have hget := h flatFs fullD _ _ _ _ _ ⟨0o100644, 0xFFF8, 0⟩ 3 Sector.zero _ flatFs_sound hd
    fullD_onPath (fullD_finds.fatSetFileMeta_run rfl rfl ⟨0o100644, 0xFFF8, 0⟩ Sector.zero)
  exact fullD_not_ends ((fullD_onPath.getsMeta_withMeta_iff flatFs_sound hd _).1 hget _ (by simp))

end FatFs

end HaoSys.Fs
