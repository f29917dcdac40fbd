import HaoSys.Fs.Refill

/-!
# Finding what was written

`Spot` is the slot that `fat_write_file` takes in the directory of a path, and
`Route` the directories on the way there. An entry put into the slot is the one
that the path leads to afterwards, whether the slot was behind the last entry, a
deleted one before the old entry, or the old entry's own (`Refilled`).
-/

namespace HaoSys.Fs

open HaoSys.Lib Prog DirSlot

namespace FatFs

variable {fs : FatFs} {d d' : Disk} {fc ps : List UInt32} {p q : DirPlace} {name n : Name83}
  {pre post : List DirSlot} {t : DirSlot} {e : Dirent} {dir dir' : UInt32} {sub : List UInt8}

/-! ## The slot -/

/-- The place of the name in its directory: the first slot that is free or has the name. Fewer than
128 entries are live there, an end marker comes behind the slot, and `fc` shares no cluster with
the directory. -/
structure Spot (fs : FatFs) (d : Disk) (fc : List UInt32) (p : DirPlace) (name : Name83)
    (pre : List DirSlot) (t : DirSlot) (post : List DirSlot) : Prop where
  order : fs.InOrder d p
  apart : ∀ c ∈ p.places, c ∉ fc
  split : fs.dirSlots d p.places = pre ++ t :: post
  before : ∀ s ∈ pre, pick name s = none
  here : pick name t ≠ none
  marker : ended post = true
  few : (live (fs.dirSlots d p.places)).length < 128

namespace Spot

theorem isLive (h : fs.Spot d fc p name pre t post) : ∀ s ∈ pre, s.entry.IsLive :=
  fun s hs => (pick_eq_none (h.before s hs)).1

theorem others (h : fs.Spot d fc p name pre t post) : ∀ s ∈ pre, s.entry.upperName ≠ name :=
  fun s hs => (pick_eq_none (h.before s hs)).2

theorem length_lt (h : fs.Spot d fc p name pre t post) : pre.length < 128 := by
  have hfew := h.few
  rw [h.split, live_append_of_isLive h.isLive, List.length_append] at hfew
  omega

/-- What the slot is. -/
theorem cases (h : fs.Spot d fc p name pre t post) :
    (t.entry 0 = 0x00 ∨ t.entry 0 = 0xE5) ∧ pick name t = some (.free t.lba t.offset) ∨
      (t.entry.IsLive ∧ t.entry.upperName = name) ∧
        pick name t = some (.sameName t.lba t.offset) := by
  have hhere := h.here
  unfold pick at hhere ⊢
  by_cases hfree : t.entry 0 = 0x00 ∨ t.entry 0 = 0xE5
  · rw [if_pos hfree]
    exact .inl ⟨hfree, rfl⟩
  · rw [if_neg hfree] at hhere ⊢
    by_cases hname : t.entry.upperName = name
    · rw [if_pos hname]
      exact .inr ⟨⟨not_or.1 hfree, hname⟩, rfl⟩
    · rw [if_neg hname] at hhere
      exact absurd rfl hhere

theorem place (h : fs.Spot d fc p name pre t post) :
    (∃ c ∈ p.places, t.lba ∈ fs.regionSectors c) ∧
      ∃ j, j < 16 ∧ t.offset = UInt32.ofNat (32 * j) ∧
        t.entry = (d.sector (fs.baseLba + t.lba)).dirent (32 * j) := by
  obtain ⟨c, hc, hl, j, hj, hoff, he⟩ := mem_dirSlots (show t ∈ fs.dirSlots d p.places by
    rw [h.split]
    simp)
  exact ⟨⟨c, hc, hl⟩, j, hj, hoff, he⟩

theorem entryAt_eq (h : fs.Spot d fc p name pre t post) :
    fs.entryAt d t.lba t.offset = t.entry ∧ t.offset.toNat + 32 ≤ 512 := by
  obtain ⟨-, j, hj, hoff, he⟩ := h.place
  unfold entryAt
  rw [he, hoff, ofNat_slot hj]
  exact ⟨rfl, by omega⟩

/-- The search for the name ends there. -/
theorem slotIs (h : fs.Spot d fc p name pre t post) (hv : fs.FullFats d) {slot : Slot}
    (hslot : pick name t = some slot) : fs.SlotIs d p.dir name slot := by
  have hfind : DirSlot.findSlot name (fs.dirSlots d p.places) = some slot := by
    have hnone : DirSlot.findSlot name pre = none := List.findSome?_eq_none_iff.2 h.before
    rw [h.split, findSlot_append, hnone, Option.none_or]
    unfold DirSlot.findSlot
    rw [List.findSome?_cons, hslot]
  exact ⟨p.places.length, fun fuel hfuel =>
    h.order.walk.findSlot hv.sound.sized hv.reliable.readable hfind hfuel⟩

/-- A lookup in the directory goes through its own slots only. -/
theorem findName (h : fs.Spot d fc p name pre t post) (hv : fs.FullFats d) (n : Name83) :
    Settles (fun fuel => dirFindName fuel fs p.dir n) d
      (((live (fs.dirSlots d p.places)).find? fun t => t.entry.upperName = n).map
        DirSlot.entry) := by
  have hended : ended (fs.dirSlots d p.places) = true := by
    rw [h.split, ended_append, ended_cons, h.marker, Bool.or_true, Bool.or_true]
  refine ⟨p.places.length, fun fuel hfuel => ?_⟩
  have hread := h.order.walk.lookup (.inr (.inl ⟨hended, h.few⟩)) hv.sound hv.reliable.readable n
    hfuel
  rwa [List.take_of_length_le (Nat.le_of_lt h.few)] at hread

end Spot

/-! ## The way there -/

/-- From `dir` the names lead to `dir'` through directories in order. These share no cluster with
`fc`, and with `ps` none or all of them. -/
inductive Route (fs : FatFs) (d : Disk) (fc ps : List UInt32) (dir' : UInt32) :
    List Name83 → UInt32 → Prop
  | here : Route fs d fc ps dir' [] dir'
  | step {n : Name83} {ns : List Name83} {q : DirPlace} {t : DirSlot} (order : fs.InOrder d q)
      (apart : ∀ c ∈ q.places, c ∉ fc) (beside : Beside ps q.places)
      (found : ((live (fs.dirSlots d q.places)).take 128).find?
        (fun t => t.entry.upperName = n) = some t)
      (isDir : t.entry.isDir = true) (rest : Route fs d fc ps dir' ns t.entry.firstCluster) :
      Route fs d fc ps dir' (n :: ns) q.dir

/-- A name among the first 128 is found, wherever the listing ends. -/
theorem InOrder.findName (h : fs.InOrder d q) (hv : fs.FullFats d)
    (hfound : ((live (fs.dirSlots d q.places)).take 128).find?
      (fun t => t.entry.upperName = n) = some t) :
    Settles (fun fuel => dirFindName fuel fs q.dir n) d (some t.entry) :=
  (show fs.NameAt d n q t from ⟨h.walk, h.places, hfound⟩).findName hv.sound
    hv.reliable.readable (h.listingEnds hv)

theorem Route.walkDirs {ns : List Name83} (h : fs.Route d fc ps dir' ns dir)
    (hv : fs.FullFats d) (f : Dirent) :
    ∃ f', Settles (fun fuel => walkDirs fuel fs ns (dir, f)) d (some (dir', f')) := by
  induction h generalizing f with
  | here => exact ⟨f, 0, fun _ _ => .pure _⟩
  | @step n ns q t order _ _ found isDir _ ih =>
    obtain ⟨f', f₁, hrest⟩ := ih t.entry
    obtain ⟨f₀, hread⟩ := order.findName hv found
    refine ⟨f', max f₀ f₁, fun fuel hfuel => (hread fuel (by omega)).bind ?_⟩
    simp only [isDir, if_true]
    exact hrest fuel (by omega)

/-- The path of a route and a name. -/
structure PathTo (fs : FatFs) (d : Disk) (fc : List UInt32) (sub : List UInt8) (p : DirPlace)
    (name : Name83) : Prop where
  route : fs.Route d fc p.places p.dir (splitPath sub).1 0
  last : (splitPath sub).2 = some name

theorem PathTo.resolvesTo (h : fs.PathTo d fc sub p name) (hv : fs.FullFats d) {o : Option Dirent}
    (hfind : Settles (fun fuel => dirFindName fuel fs p.dir name) d o) :
    fs.ResolvesTo d sub ⟨p.dir, name, o⟩ := by
  obtain ⟨f', f₀, hwalk⟩ := h.route.walkDirs hv fun _ => 0
  obtain ⟨f₁, hread⟩ := hfind
  refine ⟨max f₀ f₁, fun fuel hfuel => ?_⟩
  exact reads_fatResolveParent (hwalk fuel (by omega)) h.last (hread fuel (by omega))

theorem ResolvesTo.locates {r : Resolved} (h : fs.ResolvesTo d sub r)
    (hi : fs.initialized = true) (hr : r.parent ≠ 0xFFFFFFFF) : fs.Locates d sub r.entry := by
  obtain ⟨f₀, hres⟩ := h
  exact ⟨f₀, fun fuel hfuel => reads_fatFindFile hi (hres fuel hfuel) hr⟩

/-! ## The entry in the slot -/

/-- From `d` to `d'` the entry `e` of the name was put into the slot, and besides that free clusters
and the chain `fc` may have changed. -/
structure Refilled (fs : FatFs) (d d' : Disk) (fc : List UInt32) (name : Name83) (t : DirSlot)
    (e : Dirent) : Prop where
  fills : fs.Fills (fs.Loose d fc) (fs.Free d) t.lba t.offset e d d'
  isLive : e.IsLive
  named : e.upperName = name

section After

variable (h : fs.Refilled d d' fc name t e) (hv : fs.FullFats d) (hfc : ∀ c ∈ fc, fs.Cluster c)

include h in
theorem Refilled.table (hq : fs.InOrder d q) (hapart : ∀ c ∈ q.places, c ∉ fc) :
    ∀ c ∈ q.places, fs.table d' c = fs.table d c := fun c hc =>
  h.fills.table c fun hl => hl.elim (hq.not_free c hc).2 (hapart c hc)

include h in
theorem Refilled.inOrder (hq : fs.InOrder d q) (hapart : ∀ c ∈ q.places, c ∉ fc) :
    fs.InOrder d' q := by
  have htable := h.table hq hapart
  refine ⟨hq.walk.imp_right fun ⟨hw, hne⟩ => ⟨⟨hw.follows.congr htable, hw.valid⟩, hne⟩,
    hq.places, fun c hc => ?_, hq.ends⟩
  rw [htable c hc]
  exact hq.used c hc

include h hv hfc in
theorem Refilled.fullFats : fs.FullFats d' := by
  refine ⟨hv.sound, hv.fat16, h.fills.reliable hv.reliable, hv.covers, fun c hc hlim => ?_⟩
  have hno : ¬ fs.Cluster c := fun hcl => UInt32.not_lt.2 hlim hcl.2
  rw [h.fills.table c fun hl => hno (hl.elim (·.1) (hfc c))]
  exact hv.behind c hc hlim

include h hv in
theorem Refilled.dirSlots (hspot : fs.Spot d fc p name pre t post) (hq : fs.InOrder d q) :
    fs.dirSlots d' q.places = put t.lba t.offset e (fs.dirSlots d q.places) := by
  obtain ⟨-, j, hj, hoff, -⟩ := hspot.place
  exact h.fills.dirSlots hv.sound (fun _ hc => hc.1) hj hoff hq.not_free

variable (hspot : fs.Spot d fc p name pre t post)

include h hv hspot

/-- A directory elsewhere shows what it did. -/
theorem Refilled.dirSlots_other (hq : fs.InOrder d q) (hne : ∀ c ∈ q.places, c ∉ p.places) :
    fs.dirSlots d' q.places = fs.dirSlots d q.places := by
  rw [h.dirSlots hv hspot hq, put_of_not_mem]
  rintro u hu ⟨hlba, -⟩
  obtain ⟨⟨c', hc', hl'⟩, -⟩ := hspot.place
  obtain ⟨c, hc, hl, -⟩ := mem_dirSlots hu
  rw [hlba] at hl
  have := hv.sound.region_inj (hq.places c hc) (hspot.order.places c' hc') hl hl'
  exact hne c hc (this ▸ hc')

/-- The directory of the slot. -/
theorem Refilled.dirSlots_self :
    fs.dirSlots d' p.places = pre ++ ⟨t.lba, t.offset, e⟩ :: post := by
  have hapart := hv.sound.apart (d := d) hspot.order.places hspot.order.nodup
  rw [hspot.split] at hapart
  rw [h.dirSlots hv hspot hspot.order, hspot.split, put_split hapart]

/-- The new entry is the first of its name. -/
theorem Refilled.found : ((live (fs.dirSlots d' p.places)).take 128).find?
    (fun t => t.entry.upperName = name) = some ⟨t.lba, t.offset, e⟩ := by
  rw [h.dirSlots_self hv hspot]
  exact find?_filled_self hspot.isLive hspot.others hspot.length_lt h.isLive h.named post

/-- Other names are found where they were. -/
theorem Refilled.still_found (hq : fs.InOrder d q) (hbeside : Beside p.places q.places)
    {u : DirSlot} (hu : ((live (fs.dirSlots d q.places)).take 128).find?
      (fun t => t.entry.upperName = n) = some u) (hne : q.places = p.places → name ≠ n) :
    ((live (fs.dirSlots d' q.places)).take 128).find? (fun t => t.entry.upperName = n) =
      some u := by
  obtain hsame | hother := hbeside
  · have hfew := hspot.few
    rw [hsame, hspot.split] at hu
    rw [hspot.split] at hfew
    rw [hsame, h.dirSlots_self hv hspot]
    exact find?_filled_other hspot.isLive (hspot.cases.imp (·.1) (·.1)) hfew h.isLive h.named
      (hne hsame) hu
  · rwa [h.dirSlots_other hv hspot hq hother]

include hfc

theorem Refilled.findName :
    Settles (fun fuel => dirFindName fuel fs p.dir name) d' (some e) :=
  (h.inOrder hspot.order hspot.apart).findName (h.fullFats hv hfc) (h.found hv hspot)

theorem Refilled.slotIs : fs.SlotIs d' p.dir name (.sameName t.lba t.offset) := by
  have hv' := h.fullFats hv hfc
  have hfind : DirSlot.findSlot name (fs.dirSlots d' p.places) =
      some (.sameName t.lba t.offset) := by
    rw [h.dirSlots_self hv hspot]
    exact findSlot_fill hspot.before
      (show (DirSlot.mk t.lba t.offset e).entry.IsLive from h.isLive) h.named
  exact ⟨p.places.length, fun fuel hfuel => (h.inOrder hspot.order hspot.apart).walk.findSlot
    hv'.sound.sized hv'.reliable.readable hfind hfuel⟩

end After

/-! ## The path behind the call -/

/-- The path of a call: on the way and in its directory everything is in order, and it leads to a
regular file with the chain `fc` or, where `o` is `none`, to nothing. -/
structure Site (fs : FatFs) (d : Disk) (sub : List UInt8) (o : Option Dirent) (fc : List UInt32)
    (p : DirPlace) (name : Name83) (pre : List DirSlot) (t : DirSlot) (post : List DirSlot) :
    Prop where
  volume : fs.FullFats d
  path : fs.PathTo d fc sub p name
  spot : fs.Spot d fc p name pre t post
  entry : ((live (fs.dirSlots d p.places)).find? fun t => t.entry.upperName = name).map
    DirSlot.entry = o
  file : ∀ e, o = some e → e.isDir = false ∧ ∃ z, fs.FileChain d e.firstCluster fc z
  new : o = none → fc = []

namespace Site

variable {o : Option Dirent} (h : fs.Site d sub o fc p name pre t post)

include h

theorem clusters : ∀ c ∈ fc, fs.Cluster c := by
  cases ho : o with
  | none =>
    rw [h.new ho]
    nofun
  | some e =>
    obtain ⟨-, z, hchain⟩ := h.file e ho
    exact hchain.clusters

/-- A new entry of the name is a live one, and has the name. -/
theorem newDirent_spec (hstring : (0x00 : UInt8) ∉ sub) (hproper : name 0 ≠ 0xE5) (a : UInt8)
    (c n : UInt32) : (newDirent name a c n).IsLive ∧ (newDirent name a c n).upperName = name := by
  have hmem : name ∈ pathNames sub := by
    rw [pathNames, h.path.last]
    simp
  obtain ⟨hupper, h0⟩ := pathNames_spec hstring hmem
  exact ⟨⟨h0, hproper⟩, newDirent_upperName hupper a c n⟩

theorem resolvesTo : fs.ResolvesTo d sub ⟨p.dir, name, o⟩ := by
  have hfind := h.spot.findName h.volume name
  rw [h.entry] at hfind
  exact h.path.resolvesTo h.volume hfind

theorem locates : fs.Locates d sub o :=
  h.resolvesTo.locates h.volume.sound.initialized h.spot.order.walk.ne_fail

/-- The slot of the file itself holds its entry. -/
theorem entry_of_same (ht : t.entry.IsLive ∧ t.entry.upperName = name) : o = some t.entry := by
  have hnone : pre.find? (fun t => decide (t.entry.upperName = name)) = none :=
    List.find?_eq_none.2 fun s hmem => by simpa using h.spot.others s hmem
  rw [← h.entry, h.spot.split, live_filled h.spot.isLive ht.1, List.find?_append, hnone,
    Option.none_or, List.find?_cons_of_pos (by simpa using ht.2)]
  rfl

/-- No directory of the path has the name of the file and its place. -/
theorem route_name {u : DirSlot} {q : DirPlace} (hq : q.places = p.places)
    (hu : ((live (fs.dirSlots d q.places)).take 128).find? (fun t => t.entry.upperName = n) =
      some u) (hdir : u.entry.isDir = true) : name ≠ n := by
  rintro rfl
  have hentry := h.entry
  rw [hq, List.take_of_length_le (Nat.le_of_lt h.spot.few)] at hu
  rw [hu] at hentry
  have hfile := (h.file u.entry hentry.symm).1
  rw [hdir] at hfile
  cases hfile

/-- **A successful `fat_write_file`** has put the new entry into the slot. -/
theorem fatWriteFileImpl {s u : FatState} (hs : s.disk = d) (hstring : (0x00 : UInt8) ∉ sub)
    (hproper : name 0 ≠ 0xE5) {data : List UInt8} (hlen : data.length ≤ 65536)
    {fuel k : Nat} (hrun : fatWriteFileImpl fuel fs (some sub) data s = .ok ((true, k), u)) :
    ∃ first, fs.Refilled d u.disk fc name t
      (newDirent name 0x20 first (UInt32.ofNat data.length)) := by
  subst hs
  obtain ⟨⟨c, hc, hl⟩, j, hj, hoff, -⟩ := h.spot.place
  have hplace : ∃ c, fs.Place c ∧ t.lba ∈ fs.regionSectors c :=
    ⟨c, h.spot.order.places c hc, hl⟩
  have hne := h.spot.order.walk.ne_fail
  obtain ⟨-, hpick⟩ | ⟨hsame, hpick⟩ := h.spot.cases
  · -- a free slot: the chain of the old entry stays
    obtain ⟨first, hfills⟩ := h.volume.fatWriteFileImpl_fills h.resolvesTo hne
      (h.spot.slotIs h.volume hpick) (.inl ⟨rfl, rfl⟩) hplace ⟨j, hj, hoff⟩ hlen hrun
    obtain ⟨hlive, hname⟩ := h.newDirent_spec hstring hproper 0x20 first (UInt32.ofNat data.length)
    refine ⟨first, ⟨fun c hc => hfills.table c fun hl => hc ?_, hfills.sector, hfills.readable,
      hfills.writable⟩, hlive, hname⟩
    exact .inl (hl.resolve_right List.not_mem_nil)
  · have ho := h.entry_of_same hsame
    have hchain : ∃ z, fs.FileChain s.disk (fs.entryAt s.disk t.lba t.offset).firstCluster fc z := by
      rw [h.spot.entryAt_eq.1]
      exact (h.file _ ho).2
    obtain ⟨first, hfills⟩ := h.volume.fatWriteFileImpl_fills h.resolvesTo hne
      (h.spot.slotIs h.volume hpick) (.inr ⟨rfl, hchain⟩) hplace ⟨j, hj, hoff⟩ hlen hrun
    obtain ⟨hlive, hname⟩ := h.newDirent_spec hstring hproper 0x20 first (UInt32.ofNat data.length)
    exact ⟨first, hfills, hlive, hname⟩

end Site

section Behind

variable {o : Option Dirent} (hsite : fs.Site d sub o fc p name pre t post)
  (h : fs.Refilled d d' fc name t e)

include hsite h

theorem Refilled.route {ns : List Name83} (hr : fs.Route d fc p.places dir' ns dir) :
    fs.Route d' fc p.places dir' ns dir := by
  induction hr with
  | here => exact .here
  | @step n ns q u order apart beside found isDir _ ih =>
    refine .step (h.inOrder order apart) apart beside ?_ isDir ih
    exact h.still_found hsite.volume hsite.spot order beside found fun hq =>
      hsite.route_name hq found isDir

/-- The path leads to the new entry. -/
theorem Refilled.resolvesTo : fs.ResolvesTo d' sub ⟨p.dir, name, some e⟩ := by
  have hpath : fs.PathTo d' fc sub p name := ⟨h.route hsite hsite.path.route, hsite.path.last⟩
  exact hpath.resolvesTo (h.fullFats hsite.volume hsite.clusters)
    (h.findName hsite.volume hsite.clusters hsite.spot)

theorem Refilled.locates : fs.Locates d' sub (some e) :=
  (h.resolvesTo hsite).locates hsite.volume.sound.initialized hsite.spot.order.walk.ne_fail

theorem Refilled.stored : d'.sector (fs.baseLba + t.lba) =
    (d.sector (fs.baseLba + t.lba)).setDirent t.offset.toNat e := by
  obtain ⟨⟨c, hc, hl⟩, -⟩ := hsite.spot.place
  obtain ⟨hplace, hfree⟩ := hsite.spot.order.not_free c hc
  have hsec := h.fills.sector (fs.baseLba + t.lba) (hsite.volume.sound.offFat hplace hl)
    fun c' hc' l' hl' he => by
      obtain rfl : t.lba = l' := UInt32.add_right_inj _ |>.1 he
      exact hfree (hsite.volume.sound.region_inj hplace (.inr hc'.1) hl hl' ▸ hc')
  rwa [if_pos rfl] at hsec

/-- Writing the slot once more puts another entry of the name there. -/
theorem Refilled.restore {e' : Dirent} (hlive : e'.IsLive) (hname : e'.upperName = name) :
    fs.Refilled d (d'.write (fs.baseLba + t.lba)
      ((d'.sector (fs.baseLba + t.lba)).setDirent t.offset.toNat e')) fc name t e' := by
  obtain ⟨⟨c, hc, hl⟩, -⟩ := hsite.spot.place
  have hw := hsite.volume.sound.within_write (d := d') (hsite.spot.order.places c hc) hl
    ((d'.sector (fs.baseLba + t.lba)).setDirent t.offset.toNat e')
  have hok : d'.wrote (fs.baseLba + t.lba) = true :=
    (h.fills.reliable hsite.volume.reliable).writable _ _
  refine ⟨⟨?_, ?_, h.fills.readable, h.fills.writable⟩, hlive, hname⟩
  · exact fun x hx => (hw.table x (by simp)).trans (h.fills.table x hx)
  · intro a ha hsec
    rw [Disk.write_sector]
    by_cases he : a = fs.baseLba + t.lba
    · rw [if_pos ⟨he, hok⟩, if_pos he, h.stored hsite, Sector.setDirent_setDirent, he]
    · have := h.fills.sector a ha hsec
      rw [if_neg he] at this
      rw [if_neg (fun h => he h.1), if_neg he, this]

/-- **`fat_set_file_meta`** gets to the new entry. -/
theorem Refilled.fatSetFileMeta {s u : FatState} (hs : s.disk = d') {m : UnixMeta} {fuel : Nat}
    {b : Bool} (hrun : fatSetFileMeta fuel fs (some sub) m s = .ok (b, u)) :
    fs.Refilled d u.disk fc name t (e.setUnixMeta m) := by
  subst hs
  have hv := h.fullFats hsite.volume hsite.clusters
  have hb := hv.sound.sized.sector
  have hslotIs := h.slotIs hsite.volume hsite.clusters hsite.spot
  have hoff := hsite.spot.entryAt_eq.2
  obtain ⟨-, j, hj, hjoff, -⟩ := hsite.spot.place
  have hentry : fs.entryAt s.disk t.lba t.offset = e := by
    unfold entryAt
    rw [h.stored hsite, hjoff, ofNat_slot hj, Sector.dirent_setDirent hj hj, if_pos rfl]
  have hrun' := hrun
  unfold Fs.fatSetFileMeta at hrun'
  rw [if_neg (by simp [hv.sound.initialized])] at hrun'
  obtain ⟨r, ⟨b1, d1⟩, h1, hrun'⟩ := bind_eq_ok.1 hrun'
  obtain ⟨rfl, hd1, hres⟩ := (h.resolvesTo hsite).of_ok hb h1
  obtain rfl : d1 = s.disk := hd1
  rw [if_neg (by simp [hsite.spot.order.walk.ne_fail])] at hrun'
  obtain ⟨slot, ⟨b2, d2⟩, h2, -⟩ := bind_eq_ok.1 hrun'
  obtain ⟨rfl, -, hslot⟩ := SlotIs.of_ok (s := ⟨b1, s.disk⟩) hb hslotIs h2
  have hfinds : fs.Finds s.disk fuel sub ⟨p.dir, name, some e⟩ t.lba t.offset :=
    ⟨hres, hsite.spot.order.walk.ne_fail, nofun, hslot⟩
  have hset := hfinds.fatSetFileMeta_run hb hv.sound.initialized m s.buf
  rw [show (⟨s.buf, s.disk⟩ : FatState) = s from rfl, hrun] at hset
  cases hset
  have hrest := h.restore hsite (show (e.setUnixMeta m).IsLive from
    ⟨e.setUnixMeta_zero m ▸ h.isLive.1, e.setUnixMeta_zero m ▸ h.isLive.2⟩)
    (by rw [setUnixMeta_upperName, h.named])
  unfold metaSector
  rw [hentry]
  exact hrest

end Behind

end FatFs

end HaoSys.Fs
