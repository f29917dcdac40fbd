import HaoSys.Fs.Change
import HaoSys.Fs.Extend
import HaoSys.Fs.MetaChange
import HaoSys.Fs.Refill

/-!
# Creating a name

On a path that is `Ready` for its last name, because the directory has a vacancy
or is full and can get one more cluster, `fat_write_file` and `fat_mkdir` that
return true have put an entry of the name into a vacancy (`Stands`). The path
leads to it, `fat_set_file_meta` gets to it as well, and with other metadata it
still stands there.
-/

namespace HaoSys.Fs

open HaoSys.Lib Prog DirSlot

namespace FatFs

variable {fs : FatFs} {d d' : Disk} {fuel : Nat} {sub : List UInt8} {dir z : UInt32}
  {ps cs : List UInt32} {name : Name83} {pre post : List DirSlot} {t : DirSlot} {e : Dirent}
  {s u : FatState}

/-! ## Paths to a new name -/

/-- The directories of the path lead to `dir`, and its last name is `name`, which does not begin
like a deleted entry. -/
structure Aims (fs : FatFs) (d : Disk) (sub : List UInt8) (dir : UInt32) (name : Name83)
    (ps : List UInt32) : Prop where
  passes : fs.Passes d ps dir (splitPath sub).1 0
  last : (splitPath sub).2 = some name
  string : (0x00 : UInt8) ∉ sub
  proper : name 0 ≠ 0xE5

/-- The directory has a vacancy for the name, in the slot `t`. -/
inductive Vacant (fs : FatFs) (d : Disk) (sub : List UInt8) (dir : UInt32) (name : Name83)
    (t : DirSlot) : Prop
  | intro {ps : List UInt32} {z : UInt32} {pre post : List DirSlot}
      (aims : fs.Aims d sub dir name ps) (vacancy : fs.Vacancy d dir ps z name pre t post)
      (room : Vacancy.Room fs dir z pre post)

/-- The directory has a vacancy for the name, or it is full and can get a cluster. -/
inductive Ready (fs : FatFs) (d : Disk) (sub : List UInt8) (dir : UInt32) (name : Name83) : Prop
  | vacant {t : DirSlot} (h : fs.Vacant d sub dir name t)
  | full {ps : List UInt32} {z : UInt32} (aims : fs.Aims d sub dir name ps)
      (crammed : fs.Crammed d dir ps z name)

theorem Aims.mem_names (h : fs.Aims d sub dir name ps) : name ∈ pathNames sub := by
  rw [pathNames_of_last_some h.last]
  simp

theorem Aims.isLive (h : fs.Aims d sub dir name ps) (a : UInt8) (c n : UInt32) :
    (newDirent name a c n).IsLive := ⟨(pathNames_spec h.string h.mem_names).2, h.proper⟩

theorem Aims.named (h : fs.Aims d sub dir name ps) (a : UInt8) (c n : UInt32) :
    (newDirent name a c n).upperName = name :=
  newDirent_upperName (pathNames_spec h.string h.mem_names).1 a c n

/-! ### Changes in free clusters -/

theorem Sits.grows (h : fs.Sits d dir cs z) (hs : fs.Sound) (hg : fs.Grows d d') :
    fs.Sits d' dir cs z ∧ fs.dirSlots d' cs = fs.dirSlots d cs :=
  h.changes hg hs (fun _ hc => hc.1) fun x hx => ⟨(h.not_free x hx).2, (h.not_free x hx).2⟩

theorem Passes.grows {ns : List Name83} {start : UInt32} (h : fs.Passes d ps dir ns start)
    (hs : fs.Sound) (hg : fs.Grows d d') : fs.Passes d' ps dir ns start := by
  induction h with
  | here => exact .here
  | step sits beside found isDir _ ih =>
    obtain ⟨sits', hsame⟩ := sits.grows hs hg
    exact .step sits' beside (by rwa [hsame]) isDir ih

theorem Vacancy.grows (h : fs.Vacancy d dir ps z name pre t post) (hs : fs.Sound)
    (hg : fs.Grows d d') : fs.Vacancy d' dir ps z name pre t post := by
  obtain ⟨sits, hsame⟩ := h.sits.grows hs hg
  exact ⟨sits, h.nodup, by rw [hsame, h.split], h.before, h.free, h.near, by rw [hsame]; exact h.new⟩

theorem Crammed.grows (h : fs.Crammed d dir ps z name) (hs : fs.Sound) (hg : fs.Grows d d') :
    fs.Crammed d' dir ps z name := by
  obtain ⟨sits, hsame⟩ := h.sits.grows hs hg
  have hchain : DirWalk fs d' dir ps z :=
    ⟨h.chain.follows.congr fun x hx => hg.table x (h.sits.not_free x hx).2, h.chain.valid⟩
  refine ⟨sits, hchain, h.ends, h.nodup, ?_, ?_, ?_⟩ <;> rw [hsame]
  · exact h.full
  · exact h.few
  · exact h.new

theorem Aims.grows (h : fs.Aims d sub dir name ps) (hs : fs.Sound) (hg : fs.Grows d d') :
    fs.Aims d' sub dir name ps :=
  ⟨h.passes.grows hs hg, h.last, h.string, h.proper⟩

theorem Ready.grows (h : fs.Ready d sub dir name) (hs : fs.Sound) (hg : fs.Grows d d') :
    fs.Ready d' sub dir name := by
  obtain ⟨aims, vacancy, room⟩ | ⟨aims, crammed⟩ := h
  · exact .vacant (.intro (aims.grows hs hg) (vacancy.grows hs hg) room)
  · exact .full (aims.grows hs hg) (crammed.grows hs hg)

/-! ### The lookups -/

/-- No slot of a full directory is free or has the name. -/
theorem Crammed.findSlot_none (h : fs.Crammed d dir ps z name) :
    DirSlot.findSlot name (fs.dirSlots d ps) = none := by
  refine List.findSome?_eq_none_iff.2 fun s hs => ?_
  unfold pick
  rw [if_neg (not_or.2 (h.full s hs)), if_neg (h.new s hs)]

/-- The search comes to the mark at the end of the chain. -/
theorem findSlotClusters_full (h : fs.Sized) (hr : ∀ a, d.readable a = true) {c : UInt32}
    (hw : DirWalk fs d c cs z) (hne : cs ≠ []) (hz : z ≥ endOfChain)
    (hnone : DirSlot.findSlot name (fs.dirSlots d cs) = none) (hfuel : cs.length ≤ fuel) :
    Reads (findSlotClusters fs name fuel c) d .full := by
  induction cs generalizing c fuel with
  | nil => exact absurd rfl hne
  | cons x cs ih =>
    obtain ⟨rfl, htail⟩ := hw.tail
    obtain ⟨fuel, rfl⟩ : ∃ f, fuel = f + 1 := ⟨fuel - 1, by simp at hfuel; omega⟩
    rw [findSlotClusters_turn h hr name fuel (hw.valid c List.mem_cons_self)]
    rw [dirSlots_cons, findSlot_append, Option.or_eq_none_iff] at hnone
    rw [hnone.1]
    simp only
    cases cs with
    | nil =>
      rw [follows_nil.1 htail.follows, if_pos hz]
      trivial
    | cons y cs =>
      have hlt : ¬ fs.table d c ≥ endOfChain := by
        rw [htail.tail.1, ge_iff_le, UInt32.not_le]
        exact (htail.valid y List.mem_cons_self).2.1
      rw [if_neg hlt]
      exact ih htail (List.cons_ne_nil _ _) hnone.2 (by simp at hfuel ⊢; omega)

theorem Crammed.slotIs (h : fs.Crammed d dir ps z name) (hs : fs.Sound)
    (hr : ∀ a, d.readable a = true) : fs.SlotIs d dir name .full := by
  refine ⟨ps.length, fun fuel hfuel => ?_⟩
  have hstart : dirStart fs dir = dir := if_neg fun h0 => h.dir_ne_zero h0.1
  unfold dirFindSlot
  rw [hstart]
  exact findSlotClusters_full hs.sized hr h.chain h.ne_nil h.ends h.findSlot_none hfuel

theorem Vacancy.slotIs (h : fs.Vacancy d dir ps z name pre t post) (hs : fs.Sound)
    (hr : ∀ a, d.readable a = true) : fs.SlotIs d dir name (.free t.lba t.offset) :=
  ⟨ps.length, fun _ hfuel => h.sits.walk.findSlot hs.sized hr h.findSlot hfuel⟩

/-- The name is not found in a full directory. -/
theorem Crammed.findName (h : fs.Crammed d dir ps z name) (hs : fs.Sound)
    (hr : ∀ a, d.readable a = true) (hfuel : ps.length < fuel) :
    Reads (dirFindName fuel fs dir name) d none := by
  have hnone : ((live (fs.dirSlots d ps)).take 128).find?
      (fun t => decide (t.entry.upperName = name)) = none := by
    rw [live_of_full h.full]
    exact List.find?_eq_none.2 fun s hmem => by simpa using h.new s (List.mem_of_mem_take hmem)
  have hfind := h.sits.walk.lookup_stays h.sits.stays hs hr name hfuel
  rwa [hnone] at hfind

/-- A path to a name resolves to its directory and what the directory has of that name. -/
theorem Aims.resolvesTo (h : fs.Aims d sub dir name ps) (hs : fs.Sound)
    (hr : ∀ a, d.readable a = true) {o : Option Dirent}
    (hname : ∀ fuel, ps.length < fuel → Reads (dirFindName fuel fs dir name) d o) :
    fs.ResolvesTo d sub ⟨dir, name, o⟩ := by
  obtain ⟨f₀, f, hwalk⟩ := h.passes.walkDirs hs hr fun _ => 0
  refine ⟨max f₀ (ps.length + 1), fun fuel hfuel => ?_⟩
  exact reads_fatResolveParent (hwalk fuel (by omega)) h.last (hname fuel (by omega))

theorem Ready.resolvesTo (h : fs.Ready d sub dir name) (hs : fs.Sound)
    (hr : ∀ a, d.readable a = true) : fs.ResolvesTo d sub ⟨dir, name, none⟩ := by
  obtain ⟨aims, vacancy, -⟩ | ⟨aims, crammed⟩ := h
  · exact aims.resolvesTo hs hr fun _ hfuel => vacancy.findName hs hr hfuel
  · exact aims.resolvesTo hs hr fun _ hfuel => crammed.findName hs hr hfuel

theorem Ready.ne_fail (h : fs.Ready d sub dir name) : dir ≠ 0xFFFFFFFF := by
  obtain ⟨-, vacancy, -⟩ | ⟨-, crammed⟩ := h
  · exact vacancy.sits.walk.ne_fail
  · exact crammed.sits.walk.ne_fail

/-- The path leads nowhere. -/
theorem Ready.locates (h : fs.Ready d sub dir name) (hs : fs.Sound)
    (hr : ∀ a, d.readable a = true) : fs.Locates d sub none := by
  obtain ⟨f₀, hres⟩ := h.resolvesTo hs hr
  exact ⟨f₀, fun fuel hfuel => reads_fatFindFile hs.initialized (hres fuel hfuel) h.ne_fail⟩

/-! ## The entry -/

/-- Since the device `d`, where the path led to the vacant slot `t`, the entry `e` was put into
that slot. -/
structure Stands (fs : FatFs) (d d' : Disk) (sub : List UInt8) (dir : UInt32) (name : Name83)
    (t : DirSlot) (e : Dirent) : Prop where
  reliable : d.Reliable
  vacant : fs.Vacant d sub dir name t
  filled : fs.Filled d d' name t e

namespace Stands

variable (h : fs.Stands d d' sub dir name t e)

include h

theorem place : (∃ c, fs.Place c ∧ ¬ fs.Free d c ∧ t.lba ∈ fs.regionSectors c) ∧
    ∃ j, j < 16 ∧ t.offset = UInt32.ofNat (32 * j) := by
  obtain ⟨-, vacancy, -⟩ := h.vacant
  obtain ⟨⟨c, hc, hl⟩, hoff⟩ := vacancy.place
  obtain ⟨hplace, hused⟩ := vacancy.sits.not_free c hc
  exact ⟨⟨c, hplace, hused, hl⟩, hoff⟩

theorem reliable_after : d'.Reliable := h.filled.fills.reliable h.reliable

variable (hs : fs.Sound)

include hs

theorem sector_eq : d'.sector (fs.baseLba + t.lba) =
    (d.sector (fs.baseLba + t.lba)).setDirent t.offset.toNat e := by
  obtain ⟨⟨c, hc, hused, hl⟩, -⟩ := h.place
  have hsec := h.filled.fills.sector (fs.baseLba + t.lba) (hs.offFat hc hl) fun c' hc' l' hl' he => by
    obtain rfl : t.lba = l' := UInt32.add_right_inj _ |>.1 he
    exact hused (hs.region_inj hc (.inr hc'.1) hl hl' ▸ hc')
  rwa [if_pos rfl] at hsec

theorem entryAt_eq : fs.entryAt d' t.lba t.offset = e := by
  obtain ⟨-, j, hj, hoff⟩ := h.place
  unfold entryAt
  rw [h.sector_eq hs, hoff, ofNat_slot hj, Sector.dirent_setDirent hj hj, if_pos rfl]

/-- Other metadata are put into the entry. -/
theorem withMeta (m : UnixMeta) :
    fs.Stands d (fs.withMeta d' t.lba t.offset m) sub dir name t (e.setUnixMeta m) := by
  obtain ⟨⟨c, hc, -, hl⟩, -⟩ := h.place
  have hw := hs.within_write (d := d') hc hl (fs.metaSector d' t.lba t.offset m)
  have hok : d'.wrote (fs.baseLba + t.lba) = true := h.reliable_after.writable _ _
  have hfills := h.filled.fills
  refine ⟨h.reliable, h.vacant, ⟨fun x hx => ?_, fun a ha hsec => ?_, hfills.readable,
    hfills.writable⟩, h.filled.isLive, by rw [setUnixMeta_upperName, h.filled.named]⟩
  · exact (hw.table x (by simp)).trans (hfills.table x hx)
  · unfold FatFs.withMeta
    rw [Disk.write_sector]
    have hold := hfills.sector a ha hsec
    by_cases he : a = fs.baseLba + t.lba
    · rw [if_pos ⟨he, hok⟩, if_pos he, metaSector, h.entryAt_eq hs, h.sector_eq hs,
        Sector.setDirent_setDirent, he]
    · rw [if_neg he] at hold
      rw [if_neg fun h => he h.1, if_neg he, hold]

omit h in
/-- How much fuel the lookups take does not depend on the entry that is put into the vacancy. -/
theorem finds_of_vacant (hv : fs.Vacant d sub dir name t) :
    ∃ f₀, ∀ d' e, fs.Stands d d' sub dir name t e →
      ∀ fuel ≥ f₀, fs.Finds d' fuel sub ⟨dir, name, some e⟩ t.lba t.offset := by
  obtain ⟨aims, vacancy, room⟩ := hv
  obtain ⟨f₀, hwalk⟩ := aims.passes.walkDirs_filled vacancy hs room
  rename_i ps z pre post
  refine ⟨max f₀ (ps.length + 1), fun d' e h fuel hfuel => ?_⟩
  have hr := h.reliable_after.readable
  obtain ⟨f, hwalk⟩ := hwalk d' e h.filled hr fun _ => 0
  have hname := h.filled.findName vacancy hs room hr (show ps.length < fuel by omega)
  refine ⟨reads_fatResolveParent (hwalk fuel (by omega)) aims.last hname,
    vacancy.sits.walk.ne_fail, Option.some_ne_none e, ?_⟩
  refine (h.filled.dirAt vacancy.sits).findSlot hs.sized hr ?_ (show ps.length ≤ fuel by omega)
  rw [h.filled.parent_slots vacancy hs]
  refine findSlot_fill (fun s hmem => ?_) h.filled.isLive h.filled.named
  unfold pick
  rw [if_neg (not_or.2 (vacancy.before s hmem)), if_neg (vacancy.names s hmem)]

/-- **The path leads to the entry**, and the second lookup of a call to its slot. -/
theorem finds : ∃ f₀, ∀ fuel ≥ f₀, fs.Finds d' fuel sub ⟨dir, name, some e⟩ t.lba t.offset := by
  obtain ⟨f₀, hf⟩ := finds_of_vacant hs h.vacant
  exact ⟨f₀, hf d' e h⟩

theorem locates : fs.Locates d' sub (some e) := by
  obtain ⟨f₀, hf⟩ := h.finds hs
  exact ⟨f₀, fun fuel hfuel =>
    reads_fatFindFile hs.initialized (hf fuel hfuel).resolve (hf fuel hfuel).parent⟩

end Stands

/-- A call of `fat_set_file_meta` that has returned, with whatever fuel, has found what more fuel
finds. -/
theorem Finds.of_ok {fuel' : Nat} {r : Resolved} {lba offset : UInt32} {m : UnixMeta} {ok : Bool}
    (hf : fs.Finds s.disk fuel' sub r lba offset) (hb : fs.bytesPerSector = 512)
    (hi : fs.initialized = true)
    (hrun : fatSetFileMeta fuel fs (some sub) m s = .ok (ok, u)) :
    fs.Finds s.disk fuel sub r lba offset := by
  unfold fatSetFileMeta at hrun
  rw [if_neg (by simp [hi])] at hrun
  obtain ⟨r', s1, h1, hrun⟩ := bind_eq_ok.1 hrun
  obtain ⟨hres, hd1⟩ := (readOnly_fatResolveParent fuel fs _).of_ok h1
  have hmax := hf.mono hb (le_max_left fuel' fuel)
  obtain rfl := (fatResolveParent_mono hb (le_max_right fuel' fuel) hres).unique hmax.resolve
  rw [if_neg (not_or.2 ⟨hf.parent, hf.entry⟩)] at hrun
  obtain ⟨slot, s2, h2, hrun⟩ := bind_eq_ok.1 hrun
  obtain ⟨hslot, -⟩ := (readOnly_dirFindSlot fuel fs _ _).of_ok h2
  rw [hd1] at hslot
  obtain rfl := (dirFindSlot_mono hb (le_max_right fuel' fuel) hslot).unique hmax.slot
  exact ⟨hres, hf.parent, hf.entry, hslot⟩

/-- An entry of the name that is put into the vacancy stands there. -/
theorem Vacant.stands (h : fs.Vacant d sub dir name t) (hr : d.Reliable) {a : UInt8}
    {c n : UInt32} (hfills : fs.Fills (fs.Free d) (fs.Free d) t.lba t.offset (newDirent name a c n)
      d d') : fs.Stands d d' sub dir name t (newDirent name a c n) := by
  obtain ⟨aims, -, -⟩ := id h
  exact ⟨hr, h, ⟨hfills, aims.isLive a c n, aims.named a c n⟩⟩

section Calls

variable (hs : fs.Sound)

include hs

end Calls

end FatFs

end HaoSys.Fs
