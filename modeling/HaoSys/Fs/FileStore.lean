import HaoSys.Fs.Shelf
import HaoSys.Fs.Store

/-!
# Writing and reading files

What `fat_write_file` was given under a path is what `fat_find_file` and
`fat_load_file` return for it, and every other file is as it was; a write that
is refused changes no file. This is so on a FAT16 volume with FATs for every
number, for files in directories with room (`Shelf.read`, `Shelf.save`).
-/

namespace HaoSys.Fs

open HaoSys.Lib Prog DirSlot

namespace FatFs

variable {κ : Type} {fs : FatFs} {d d' : Disk} {fuel n : Nat} {D : DirPlace → Prop}
  {files : κ → FilePath} {fc : κ → List UInt32} {m : κ → Option (List UInt8)} {k : κ}
  {p : FilePath} {cs : List UInt32} {v : Option (List UInt8)} {data : List UInt8}

/-! ## Reading a file -/

/-- `fat_find_file`, and `fat_load_file` of all of the file that it found. -/
def readFile (fuel : Nat) (fs : FatFs) (path : List UInt8) : FatM (Option (List UInt8)) := do
  match ← fatFindFile fuel fs (some path) with
  | none => pure none
  | some e =>
    let bytes ← fatLoadFile fuel fs e 0xFFFFFFFF
    pure (some bytes)

/-- The clusters of a file are in use. -/
theorem Content.used (h : fs.Content d p cs v) : ∀ c ∈ cs, fs.Cluster c ∧ ¬ fs.Free d c := by
  cases h with
  | absent _ => nofun
  | file _ _ chain _ => exact fun c hc => ⟨chain.clusters c hc, fun hf => chain.used c hc hf.2⟩

/-- **What is read of a file are its contents.** -/
theorem Shelf.read (h : fs.Shelf D files n fc d m) (hfuel : Fueled D fuel) (hplan : Plan D files)
    (k : κ) : Reads (readFile fuel fs (files k).path) d (m k) := by
  have hfind := h.find hfuel hplan k
  have hcontent := h.content k
  unfold readFile
  generalize m k = w at hcontent ⊢
  generalize fc k = cs at hcontent
  cases hcontent with
  | absent found =>
    rw [found] at hfind
    exact hfind.bind (.pure _)
  | @file t cs z found regular chain size =>
    have hv := h.volume
    have hlt := chain.length_lt hv
    have hbound := t.entry.fileSize.toNat_lt
    rw [found] at hfind
    have hfile : fs.FileAt d fuel t.entry cs :=
      ⟨⟨z, chain.follows⟩, chain.clusters, size, Nat.lt_trans hlt hfuel.chains⟩
    have hload := hfile.load hv.sound hv.reliable.readable 0xFFFFFFFF
    rw [List.take_of_length_le (by
      rw [contents, List.length_take, show (0xFFFFFFFF : UInt32).toNat = 4294967295 from rfl]
      omega)] at hload
    exact hfind.bind (hload.bind (.pure _))

/-! ## What a call leaves -/

/-- A file whose entry, links and sectors stay has the same contents. -/
theorem Content.congr (h : fs.Content d p cs v) (hslot : fs.slotOf d' p = fs.slotOf d p)
    (htable : ∀ c ∈ cs, fs.table d' c = fs.table d c)
    (hregion : ∀ c ∈ cs, ∀ l ∈ fs.regionSectors c,
      d'.sector (fs.baseLba + l) = d.sector (fs.baseLba + l)) : fs.Content d' p cs v := by
  cases h with
  | absent found => exact .absent (hslot.trans found)
  | @file t cs z found regular chain size =>
    have hchain : fs.FileChain d' t.entry.firstCluster cs z :=
      ⟨chain.follows.congr htable, chain.clusters,
        fun c hc => by rw [htable c hc]; exact chain.used c hc, chain.ends, chain.number⟩
    have hsame : fs.contents d' t.entry cs = fs.contents d t.entry cs := by
      unfold contents
      rw [clusterBytes_congr hregion]
    rw [← hsame]
    exact .file (hslot.trans found) regular hchain size

theorem Way.congr {dir dir' : UInt32} {ns : List Name83} (h : fs.Way d D dir' ns dir)
    (hslots : ∀ q, D q → fs.dirSlots d' q.places = fs.dirSlots d q.places) :
    fs.Way d' D dir' ns dir := by
  induction h with
  | here => exact .here
  | step mem found isDir _ ih => exact .step mem (by rw [hslots _ mem]; exact found) isDir ih

/-- Where only free clusters have changed, the files are as before. -/
theorem Shelf.grows (h : fs.Shelf D files n fc d m) (hplan : Plan D files) (hg : fs.Grows d d') :
    fs.Shelf D files n fc d' m := by
  have hs := h.volume.sound
  have hslots : ∀ q, D q → fs.dirSlots d' q.places = fs.dirSlots d q.places := fun q hq =>
    hg.dirSlots hs (fun _ hc => hc.1) (h.order q hq).not_free
  refine ⟨h.volume.changesIn hg fun c hc => hc.1, fun q hq => ?_, fun q hq => ?_,
    fun k => (h.way k).congr hslots, fun k => ?_, fun k => ?_, h.apart, h.disjoint⟩
  · have hq := h.order q hq
    have htable : ∀ c ∈ q.places, fs.table d' c = fs.table d c := fun c hc =>
      hg.table c (hq.not_free c hc).2
    refine ⟨hq.walk.imp_right fun ⟨hw, hne⟩ => ⟨⟨hw.follows.congr htable, hw.valid⟩, hne⟩,
      hq.places, fun c hc => ?_, hq.ends⟩
    rw [htable c hc]
    exact hq.used c hc
  · rw [hslots q hq]
    exact h.listed q hq
  · rw [hslots _ (hplan.dir k)]
    exact h.room k
  · have hused := (h.content k).used
    refine (h.content k).congr ?_ (fun c hc => hg.table c (hused c hc).2) fun c hc l hl => ?_
    · unfold slotOf
      rw [hslots _ (hplan.dir k)]
    · exact hg.region hs (fun _ hc => hc.1) (.inr (hused c hc).1) (hused c hc).2 hl

/-- Room for fewer names. -/
theorem Shelf.mono {n' : Nat} (h : fs.Shelf D files n fc d m) (hn : n' ≤ n) :
    fs.Shelf D files n' fc d m := by
  refine ⟨h.volume, h.order, h.listed, h.way, fun k => ?_, h.content, h.apart, h.disjoint⟩
  obtain ⟨hclean, hmarks, hfew⟩ := h.room k
  exact ⟨hclean, by omega, by omega⟩

/-! ## A save -/

theorem Saves.mono {fc fc' cs : List UInt32} {lba offset first : UInt32} {name : Name83}
    (h : fs.Saves d d' fc lba offset name data first cs) (hfc : ∀ c ∈ fc, c ∈ fc') :
    fs.Saves d d' fc' lba offset name data first cs :=
  ⟨h.fills.mono (fun c hc => hc.imp_right (hfc c)) fun _ => id, h.free, h.chain, h.length, h.bytes⟩

/-- A save of the file `k`, as the directories and the other files see it: `e` stands in the slot. -/
structure Saving (fs : FatFs) (D : DirPlace → Prop) (files : κ → FilePath) (k : κ) (n : Nat)
    (fc : κ → List UInt32) (m : κ → Option (List UInt8)) (d d' : Disk) (pre : List DirSlot)
    (t : DirSlot) (post : List DirSlot) (e : Dirent) : Prop where
  plan : Plan D files
  shelf : fs.Shelf D files (n + 1) fc d m
  spot : fs.Spot d (fc k) (files k).dir (files k).name pre t post
  refilled : fs.Refilled d d' (fc k) (files k).name t e

namespace Saving

variable {pre post : List DirSlot} {t : DirSlot} {e : Dirent} {q : DirPlace} {nm : Name83}
  (h : fs.Saving D files k n fc m d d' pre t post e)

include h

theorem refills : Refills (files k).name pre t ⟨t.lba, t.offset, e⟩ :=
  ⟨h.spot.before, h.spot.cases.imp (·.1) (·.1), h.refilled.isLive, h.refilled.named⟩

/-- The directory of the file shows the entry, every other one what it did. -/
theorem dirSlots_cases (hq : D q) :
    (q.places = (files k).dir.places ∧ fs.dirSlots d q.places = pre ++ t :: post ∧
        fs.dirSlots d' q.places = pre ++ ⟨t.lba, t.offset, e⟩ :: post) ∨
      fs.dirSlots d' q.places = fs.dirSlots d q.places := by
  have hv := h.shelf.volume
  obtain hsame | hother := h.plan.beside _ _ (h.plan.dir k) hq
  · refine .inl ⟨hsame, hsame ▸ h.spot.split, ?_⟩
    rw [hsame]
    exact h.refilled.dirSlots_self hv h.spot
  · exact .inr (h.refilled.dirSlots_other hv h.spot (h.shelf.order q hq) hother)

/-- Every other name is found where it was, or is not there as before. -/
theorem find?_other (hq : D q) (hne : q.places = (files k).dir.places → (files k).name ≠ nm) :
    (live (fs.dirSlots d' q.places)).find? (fun t => t.entry.upperName = nm) =
      (live (fs.dirSlots d q.places)).find? (fun t => t.entry.upperName = nm) := by
  obtain ⟨hsame, hbefore, hafter⟩ | heq := h.dirSlots_cases hq
  · have hclean := (h.shelf.listed q hq).clean
    rw [hbefore] at hclean ⊢
    rw [hafter]
    exact h.refills.find?_other hclean (hne hsame)
  · rw [heq]

theorem room {l : Nat} (hq : D q) (hl : l ≤ n) (hroom : Room l (fs.dirSlots d q.places)) :
    Room l (fs.dirSlots d' q.places) := by
  obtain ⟨-, -, hafter⟩ | heq := h.dirSlots_cases hq
  · have hspot := h.shelf.room k
    rw [h.spot.split] at hspot
    obtain ⟨hclean, hmarks, hfew⟩ := h.refills.room hspot
    rw [hafter]
    exact ⟨hclean, by omega, by omega⟩
  · rwa [heq]

/-- No directory on the way to a file has the name of the file and its place. -/
theorem way {dir dir' : UInt32} {ns : List Name83} (hw : fs.Way d D dir' ns dir) :
    fs.Way d' D dir' ns dir := by
  induction hw with
  | here => exact .here
  | @step nm ns q u mem found isDir _ ih =>
    refine .step mem ?_ isDir ih
    rw [h.find?_other mem ?_]
    · exact found
    · rintro hsame rfl
      have hslot : fs.slotOf d (files k) = some u := by
        unfold slotOf
        rw [← hsame]
        exact found
      have hcontent := h.shelf.content k
      generalize m k = w at hcontent
      generalize fc k = cs at hcontent
      cases hcontent with
      | absent hnone =>
        rw [hslot] at hnone
        cases hnone
      | file hfound regular _ _ =>
        cases hslot.symm.trans hfound
        rw [isDir] at regular
        cases regular

/-- A file of another name or directory is as it was. -/
theorem content_other {j : κ} (hj : j ≠ k) : fs.Content d' (files j) (fc j) (m j) := by
  have hs := h.shelf.volume.sound
  have hused := (h.shelf.content j).used
  refine (h.shelf.content j).congr ?_ (fun c hc => ?_) fun c hc l hl => ?_
  · exact h.find?_other (h.plan.dir j) fun hsame hname => hj (h.plan.distinct j k hsame hname.symm)
  · exact h.refilled.fills.table c fun hloose =>
      hloose.elim (hused c hc).2 (h.shelf.disjoint j k hj c hc)
  · have hplace : fs.Place c := .inr (hused c hc).1
    rw [h.refilled.fills.sector _ (hs.offFat hplace hl) fun x hx l' hl' he => ?_, if_neg fun he => ?_]
    · -- the slot is in a directory
      obtain ⟨⟨x, hx, hl'⟩, -⟩ := h.spot.place
      obtain rfl : l = t.lba := UInt32.add_right_inj _ |>.1 he
      have hcx := hs.region_inj hplace (h.spot.order.places x hx) hl hl'
      exact h.shelf.apart j _ (h.plan.dir k) x hx (hcx ▸ hc)
    · obtain rfl : l = l' := UInt32.add_right_inj _ |>.1 he
      exact (hused c hc).2 (hs.region_inj hplace (.inr hx.1) hl hl' ▸ hx)

/-- The file that is written has the data. -/
theorem content_self {first : UInt32} {cs : List UInt32} (hlen : data.length ≤ 65536)
    (he : e = newDirent (files k).name 0x20 first (UInt32.ofNat data.length))
    (hsave : fs.Saves d d' (fc k) t.lba t.offset (files k).name data first cs) :
    fs.Content d' (files k) cs (some data) := by
  have hsize : e.fileSize.toNat = data.length := by
    rw [he, newDirent_fileSize, UInt32.toNat_ofNat']
    omega
  have hregular : e.isDir = false := by
    rw [he]
    exact show ((0x20 : UInt8) &&& 0x10 != 0) = false by decide
  obtain ⟨hfit, -⟩ := clustersFor_spec h.shelf.volume.sound.sized data.length
  obtain ⟨z, hchain⟩ := hsave.chain
  have hbytes : fs.contents d' e cs = data := by
    unfold contents
    rw [hsize, hsave.bytes]
  have hslot : fs.slotOf d' (files k) = some ⟨t.lba, t.offset, e⟩ := by
    unfold slotOf
    rw [h.refilled.dirSlots_self h.shelf.volume h.spot]
    exact h.refills.find?_self post
  have hfirst : e.firstCluster = first := by rw [he, newDirent_firstCluster]
  have hfile : fs.Content d' (files k) cs (some (fs.contents d' e cs)) :=
    .file hslot hregular (by rw [hfirst]; exact hchain) (by rw [hsize, hsave.length]; exact hfit)
  rwa [hbytes] at hfile

/-- **After a save** the file has the data, and the other files are as they were. -/
theorem shelf' [DecidableEq κ] {first : UInt32} {cs : List UInt32} (hlen : data.length ≤ 65536)
    (he : e = newDirent (files k).name 0x20 first (UInt32.ofNat data.length))
    (hsave : fs.Saves d d' (fc k) t.lba t.offset (files k).name data first cs) :
    fs.Shelf D files n (Function.update fc k cs) d' (Function.update m k (some data)) := by
  have hfree : ∀ q, D q → ∀ c ∈ q.places, c ∉ cs := fun q hq c hc hcs =>
    ((h.shelf.order q hq).not_free c hc).2 (hsave.free c hcs)
  refine ⟨h.refilled.fullFats h.shelf.volume fun c hc => ((h.shelf.content k).used c hc).1,
    fun q hq => h.refilled.inOrder (h.shelf.order q hq) (h.shelf.apart k q hq),
    fun q hq => h.room hq (Nat.zero_le n) (h.shelf.listed q hq), fun j => h.way (h.shelf.way j),
    fun j => h.room (h.plan.dir j) (Nat.le_refl n) ((h.shelf.mono (Nat.le_succ n)).room j),
    fun j => ?_, fun j q hq => ?_, fun i j hij => ?_⟩
  · obtain rfl | hj := eq_or_ne j k
    · rw [Function.update_self, Function.update_self]
      exact h.content_self hlen he hsave
    · rw [Function.update_of_ne hj, Function.update_of_ne hj]
      exact h.content_other hj
  · obtain rfl | hj := eq_or_ne j k
    · rw [Function.update_self]
      exact hfree q hq
    · rw [Function.update_of_ne hj]
      exact h.shelf.apart j q hq
  · obtain rfl | hi := eq_or_ne i k
    · rw [Function.update_self, Function.update_of_ne hij.symm]
      exact fun c hc hcj => ((h.shelf.content j).used c hcj).2 (hsave.free c hc)
    · rw [Function.update_of_ne hi]
      obtain rfl | hj := eq_or_ne j k
      · rw [Function.update_self]
        exact fun c hc hcs => ((h.shelf.content i).used c hc).2 (hsave.free c hcs)
      · rw [Function.update_of_ne hj]
        exact h.shelf.disjoint i j hij

end Saving

theorem Spot.findSlot {pre post : List DirSlot} {t : DirSlot} {slot : Slot} {cs : List UInt32}
    {q : DirPlace} {name : Name83} (h : fs.Spot d cs q name pre t post) (hv : fs.FullFats d)
    (hslot : pick name t = some slot) (hfuel : q.places.length ≤ fuel) :
    Reads (dirFindSlot fuel fs q.dir name) d slot := by
  refine h.order.walk.findSlot hv.sound.sized hv.reliable.readable ?_ hfuel
  have hnone : DirSlot.findSlot name pre = none := List.findSome?_eq_none_iff.2 h.before
  rw [h.split, findSlot_append, hnone, Option.none_or]
  unfold DirSlot.findSlot
  rw [List.findSome?_cons, hslot]

/-- An entry for a file of the plan is a live one, and has its name. -/
theorem Plan.newDirent (h : Plan D files) (k : κ) (a : UInt8) (c s : UInt32) :
    (newDirent (files k).name a c s).IsLive ∧
      (newDirent (files k).name a c s).upperName = (files k).name := by
  have hmem : (files k).name ∈ pathNames (files k).path := by
    rw [pathNames, h.last k]
    simp
  obtain ⟨hupper, h0⟩ := pathNames_spec (h.string k) hmem
  exact ⟨⟨h0, h.proper k⟩, newDirent_upperName hupper a c s⟩

/-- **`fat_write_file`** returns true if the free clusters hold the data, and then the file has it;
otherwise no file has changed. -/
theorem Shelf.save [DecidableEq κ] (h : fs.Shelf D files (n + 1) fc d m) (hfuel : Fueled D fuel)
    (hplan : Plan D files) (hlen : data.length ≤ 65536) (k : κ) (b : Sector) :
    ∃ ok u fc', fatWriteFile fuel fs (some (files k).path) data ⟨b, d⟩ = .ok (ok, u) ∧
      (ok = true ↔ fs.clustersFor data.length ≤ fs.freeCount d) ∧
      fs.Shelf D files n fc' u.disk (if ok = true then Function.update m k (some data) else m) := by
  have hq := hplan.dir k
  obtain ⟨pre, t, post, hspot⟩ := h.spot hplan k
  obtain ⟨slot, cs', hpick, hopen, hcs'⟩ := hspot.open (h.content k)
  obtain ⟨⟨c, hc, hl⟩, j, hj, hoff, -⟩ := hspot.place
  obtain ⟨ok, taken, u, hrun, hok, hrefused, hsaved⟩ := h.volume.fatWriteFileImpl_run
    (h.resolves hfuel hplan k) hspot.order.walk.ne_fail
    (hspot.findSlot h.volume hpick (hfuel.dirs _ hq)) hopen (hspot.order.not_free c hc) hl
    ⟨j, hj, hoff⟩ hlen b
  have hrun' : fatWriteFile fuel fs (some (files k).path) data ⟨b, d⟩ = .ok (ok, u) := by
    unfold fatWriteFile
    rw [bind_of_ok hrun]
    rfl
  cases ok with
  | false =>
    refine ⟨false, u, fc, hrun', hok, ?_⟩
    rw [if_neg Bool.false_ne_true]
    exact (h.grows hplan (hrefused rfl)).mono (Nat.le_succ n)
  | true =>
    obtain ⟨first, cs, hsave⟩ := hsaved rfl
    have hsave := hsave.mono hcs'
    obtain ⟨hlive, hname⟩ := hplan.newDirent k 0x20 first (UInt32.ofNat data.length)
    have hsaving : fs.Saving D files k n fc m d u.disk pre t post
        (Fs.newDirent (files k).name 0x20 first (UInt32.ofNat data.length)) :=
      ⟨hplan, h, hspot, hsave.fills, hlive, hname⟩
    refine ⟨true, u, Function.update fc k cs, hrun', hok, ?_⟩
    rw [if_pos rfl]
    exact hsaving.shelf' hlen rfl hsave

end FatFs

end HaoSys.Fs
