import HaoSys.Fs.File
import HaoSys.Fs.Saves

/-!
# Files in directories with room

A family of files, each with a path, in directories that have room for new
names: fewer than 128 live entries, and nothing but end markers behind them
(`Room`). Each of the files is either not there, or has a chain of its own whose
bytes are its contents (`Shelf`). Every path leads to the file it stands for,
and what is read there are the contents.
-/

namespace HaoSys.Fs

open HaoSys.Lib Prog DirSlot

namespace DirSlot

variable {n : Nat} {pre post : List DirSlot} {t t' : DirSlot} {name m : Name83}

/-- Room for `n` new names and an end marker behind them. -/
structure Room (n : Nat) (es : List DirSlot) : Prop where
  clean : Clean es
  marks : n < marks es
  few : (live es).length + n < 128

theorem Room.ended {es : List DirSlot} (h : Room n es) : ended es = true :=
  ended_of_marks (Nat.zero_lt_of_lt h.marks)

/-- The slot that is free or has the name, filled with an entry of the name. -/
structure Refills (name : Name83) (pre : List DirSlot) (t t' : DirSlot) : Prop where
  before : ∀ s ∈ pre, pick name s = none
  here : (t.entry 0 = 0x00 ∨ t.entry 0 = 0xE5) ∨ t.entry.IsLive ∧ t.entry.upperName = name
  isLive : t'.entry.IsLive
  named : t'.entry.upperName = name

namespace Refills

variable (h : Refills name pre t t')

include h

theorem preLive : ∀ s ∈ pre, s.entry.IsLive := fun s hs => (pick_eq_none (h.before s hs)).1

/-- Every other name is found where it was, or is not there as before. -/
theorem find?_other (hclean : Clean (pre ++ t :: post)) (hne : name ≠ m) :
    (live (pre ++ t' :: post)).find? (fun t => t.entry.upperName = m) =
      (live (pre ++ t :: post)).find? (fun t => t.entry.upperName = m) := by
  obtain hfree | ⟨hlive, hname⟩ := h.here
  · exact find?_fill hclean hfree h.isLive (by simpa [h.named] using hne)
  · rw [live_filled h.preLive h.isLive, live_filled h.preLive hlive, List.find?_append,
      List.find?_append, List.find?_cons_of_neg (by simpa [h.named] using hne),
      List.find?_cons_of_neg (by simpa [hname] using hne)]

/-- The name is found in the slot. -/
theorem find?_self (post : List DirSlot) :
    (live (pre ++ t' :: post)).find? (fun t => t.entry.upperName = name) = some t' := by
  have hnone : pre.find? (fun t => decide (t.entry.upperName = name)) = none :=
    List.find?_eq_none.2 fun s hs => by simpa using (pick_eq_none (h.before s hs)).2
  rw [live_filled h.preLive h.isLive, List.find?_append, hnone, Option.none_or,
    List.find?_cons_of_pos (by simpa using h.named)]

/-- One of the places for new names is gone at most. -/
theorem room (hroom : Room (n + 1) (pre ++ t :: post)) : Room n (pre ++ t' :: post) := by
  obtain ⟨hclean, hmarks, hfew⟩ := hroom
  refine ⟨?_, by have := marks_fill pre post t t'; omega, ?_⟩
  · obtain ⟨hpre, hpost, -⟩ := List.pairwise_append.1 hclean
    refine List.pairwise_append.2 ⟨hpre, List.pairwise_cons.2 ⟨?_, (List.pairwise_cons.1 hpost).2⟩,
      fun a ha _ _ h0 => absurd h0 (h.preLive a ha).1⟩
    exact fun _ _ h0 => absurd h0 h.isLive.1
  · obtain hfree | ⟨hlive, -⟩ := h.here
    · have := length_live_fill hclean hfree h.isLive
      omega
    · rw [live_filled h.preLive hlive] at hfew
      rw [live_filled h.preLive h.isLive]
      simp only [List.length_append, List.length_cons] at hfew ⊢
      omega

end Refills

/-- Where there is room the search for a name ends at a slot, and there is room behind it. -/
theorem Room.findSlot {es : List DirSlot} (h : Room (n + 1) es) (name : Name83) :
    ∃ pre t post, es = pre ++ t :: post ∧ (∀ s ∈ pre, pick name s = none) ∧
      pick name t ≠ none ∧ DirSlot.ended post = true := by
  have hsome : (DirSlot.findSlot name es).isSome := by
    obtain ⟨t, ht, h0⟩ := List.countP_pos_iff.1 (Nat.zero_lt_of_lt h.marks)
    refine List.findSome?_isSome_iff.2 ⟨t, ht, ?_⟩
    unfold pick
    rw [if_pos (.inl (by simpa using h0))]
    rfl
  obtain ⟨slot, hslot⟩ := Option.isSome_iff_exists.1 hsome
  obtain ⟨pre, t, post, rfl, hpick, hpre⟩ := findSlot_eq_some hslot
  refine ⟨pre, t, post, rfl, hpre, by simp [hpick], ended_of_marks ?_⟩
  -- there is no end marker before the slot
  have hzero : pre.countP (fun t => t.entry 0 = 0x00) = 0 :=
    List.countP_eq_zero.2 fun s hs => by simpa using (pick_eq_none (hpre s hs)).1.1
  have hmarks := h.marks
  unfold DirSlot.marks at hmarks ⊢
  rw [List.countP_append, List.countP_cons, hzero] at hmarks
  split at hmarks <;> omega

end DirSlot

namespace FatFs

variable {κ : Type} {fs : FatFs} {d d' : Disk} {fuel n : Nat} {D : DirPlace → Prop}

/-! ## Paths -/

/-- A file as a caller names it: its path, and the directory and the name this comes down to. -/
structure FilePath where
  path : List UInt8
  dir : DirPlace
  name : Name83

/-- From `dir` the names lead to `dir'` through directories of `D`. -/
inductive Way (fs : FatFs) (d : Disk) (D : DirPlace → Prop) (dir' : UInt32) :
    List Name83 → UInt32 → Prop
  | here : Way fs d D dir' [] dir'
  | step {n : Name83} {ns : List Name83} {q : DirPlace} {t : DirSlot} (mem : D q)
      (found : (live (fs.dirSlots d q.places)).find? (fun t => t.entry.upperName = n) = some t)
      (isDir : t.entry.isDir = true) (rest : Way fs d D dir' ns t.entry.firstCluster) :
      Way fs d D dir' (n :: ns) q.dir

/-- What the paths of the files are: names for different entries, in directories of `D`. -/
structure Plan (D : DirPlace → Prop) (files : κ → FilePath) : Prop where
  dir : ∀ k, D (files k).dir
  string : ∀ k, (0x00 : UInt8) ∉ (files k).path
  last : ∀ k, (splitPath (files k).path).2 = some (files k).name
  proper : ∀ k, (files k).name 0 ≠ 0xE5
  beside : ∀ p q, D p → D q → Beside p.places q.places
  distinct : ∀ j k, (files j).dir.places = (files k).dir.places →
    (files j).name = (files k).name → j = k

/-- The slot of a directory that the name is found in. -/
def slotOf (fs : FatFs) (d : Disk) (p : FilePath) : Option DirSlot :=
  (live (fs.dirSlots d p.dir.places)).find? fun t => t.entry.upperName = p.name

/-- The file is not there, or is a regular file with the chain `cs` and these contents. -/
inductive Content (fs : FatFs) (d : Disk) (p : FilePath) :
    List UInt32 → Option (List UInt8) → Prop
  | absent (found : fs.slotOf d p = none) : Content fs d p [] none
  | file {t : DirSlot} {cs : List UInt32} {z : UInt32} (found : fs.slotOf d p = some t)
      (regular : t.entry.isDir = false) (chain : fs.FileChain d t.entry.firstCluster cs z)
      (size : t.entry.fileSize.toNat ≤ 512 * fs.sectorsPerCluster.toNat * cs.length) :
      Content fs d p cs (some (fs.contents d t.entry cs))

/-- The files have the contents `m` and the chains `fc`, and there is room for `n` new names in each
of their directories. -/
structure Shelf (fs : FatFs) (D : DirPlace → Prop) (files : κ → FilePath) (n : Nat)
    (fc : κ → List UInt32) (d : Disk) (m : κ → Option (List UInt8)) : Prop where
  volume : fs.FullFats d
  order : ∀ q, D q → fs.InOrder d q
  listed : ∀ q, D q → Room 0 (fs.dirSlots d q.places)
  way : ∀ k, fs.Way d D (files k).dir.dir (splitPath (files k).path).1 0
  room : ∀ k, Room n (fs.dirSlots d (files k).dir.places)
  content : ∀ k, fs.Content d (files k) (fc k) (m k)
  apart : ∀ k q, D q → ∀ c ∈ q.places, c ∉ fc k
  disjoint : ∀ j k, j ≠ k → ∀ c ∈ fc j, c ∉ fc k

/-- The length of every directory is in the fuel, and the length of any chain. -/
structure Fueled (D : DirPlace → Prop) (fuel : Nat) : Prop where
  dirs : ∀ q, D q → q.places.length ≤ fuel
  chains : 65536 < fuel

variable {files : κ → FilePath} {fc : κ → List UInt32} {m : κ → Option (List UInt8)} {k : κ}

/-! ## Reading -/

theorem InOrder.lookup {q : DirPlace} (hq : fs.InOrder d q) (hlisted : Room 0 (fs.dirSlots d q.places))
    (hv : fs.FullFats d) (hfuel : q.places.length ≤ fuel) (name : Name83) :
    Reads (dirFindName fuel fs q.dir name) d
      (((live (fs.dirSlots d q.places)).find? fun t => t.entry.upperName = name).map
        DirSlot.entry) := by
  have hread := hq.walk.lookup (.inr (.inl ⟨hlisted.ended, hlisted.few⟩)) hv.sound
    hv.reliable.readable name hfuel
  rwa [List.take_of_length_le (Nat.le_of_lt hlisted.few)] at hread

theorem FileChain.length_lt {first z : UInt32} {cs : List UInt32} (hv : fs.FullFats d)
    (h : fs.FileChain d first cs z) : cs.length < 65536 := by
  have hlimit := hv.clusterLimit_le
  have hnodup : (cs.map UInt32.toNat).Nodup :=
    (h.follows.nodup fun hz => h.ends (h.clusters z hz)).map fun _ _ => UInt32.toNat_inj.1
  have hsub : cs.map UInt32.toNat ⊆ List.range 65535 := by
    intro x hx
    obtain ⟨c, hc, rfl⟩ := List.mem_map.1 hx
    have := UInt32.lt_iff_toNat_lt.1 (h.clusters c hc).2
    exact List.mem_range.2 (by omega)
  have hle := (List.subperm_of_subset hnodup hsub).length_le
  rw [List.length_map, List.length_range] at hle
  omega

namespace Shelf

variable (h : fs.Shelf D files n fc d m) (hfuel : Fueled D fuel)

include h hfuel

theorem walkDirs {dir dir' : UInt32} {ns : List Name83} (hw : fs.Way d D dir' ns dir) (e : Dirent) :
    ∃ e', Reads (walkDirs fuel fs ns (dir, e)) d (some (dir', e')) := by
  induction hw generalizing e with
  | here => exact ⟨e, .pure _⟩
  | @step nm ns q t mem found isDir _ ih =>
    obtain ⟨e', hrest⟩ := ih t.entry
    have hread := (h.order q mem).lookup (h.listed q mem) h.volume (hfuel.dirs q mem) nm
    rw [found] at hread
    refine ⟨e', hread.bind ?_⟩
    simp only [Option.map_some, isDir, if_true]
    exact hrest

variable (hplan : Plan D files)

include hplan

/-- The path resolves to the directory and the name. -/
theorem resolves (k : κ) : Reads (fatResolveParent fuel fs (some (files k).path)) d
    ⟨(files k).dir.dir, (files k).name, (fs.slotOf d (files k)).map DirSlot.entry⟩ := by
  obtain ⟨e, hwalk⟩ := h.walkDirs hfuel (h.way k) fun _ => 0
  have hq := hplan.dir k
  exact reads_fatResolveParent hwalk (hplan.last k)
    ((h.order _ hq).lookup (h.listed _ hq) h.volume (hfuel.dirs _ hq) _)

theorem find (k : κ) : Reads (fatFindFile fuel fs (some (files k).path)) d
    ((fs.slotOf d (files k)).map DirSlot.entry) :=
  reads_fatFindFile h.volume.sound.initialized (h.resolves hfuel hplan k)
    (h.order _ (hplan.dir k)).walk.ne_fail

end Shelf

/-! ## The slot of a name -/

namespace Shelf

variable (h : fs.Shelf D files (n + 1) fc d m) (hplan : Plan D files)

include h hplan

theorem spot (k : κ) :
    ∃ pre t post, fs.Spot d (fc k) (files k).dir (files k).name pre t post := by
  have hroom := h.room k
  obtain ⟨pre, t, post, hsplit, hpre, hpick, hended⟩ := hroom.findSlot (files k).name
  have hfew := hroom.few
  exact ⟨pre, t, post, h.order _ (hplan.dir k), h.apart k _ (hplan.dir k), hsplit, hpre, hpick,
    hended, by omega⟩

end Shelf

/-- The slot is free, or the file's own. -/
theorem Spot.open {p : FilePath} {cs : List UInt32} {v : Option (List UInt8)} {pre post : List DirSlot}
    {t : DirSlot} (h : fs.Spot d cs p.dir p.name pre t post) (hv : fs.Content d p cs v) :
    ∃ slot cs', pick p.name t = some slot ∧ fs.Open d slot t.lba t.offset cs' ∧
      ∀ c ∈ cs', c ∈ cs := by
  obtain ⟨-, hpick⟩ | ⟨⟨hlive, hname⟩, hpick⟩ := h.cases
  · exact ⟨_, [], hpick, .inl ⟨rfl, rfl⟩, nofun⟩
  · have hslot : fs.slotOf d p = some t := by
      have hnone : pre.find? (fun t => decide (t.entry.upperName = p.name)) = none :=
        List.find?_eq_none.2 fun s hs => by simpa using h.others s hs
      unfold slotOf
      rw [h.split, live_filled h.isLive hlive, List.find?_append, hnone, Option.none_or,
        List.find?_cons_of_pos (by simpa using hname)]
    refine ⟨_, cs, hpick, .inr ⟨rfl, ?_⟩, fun c hc => hc⟩
    rw [h.entryAt_eq.1]
    cases hv with
    | absent found =>
      rw [hslot] at found
      cases found
    | file found regular chain _ =>
      cases hslot.symm.trans found
      exact ⟨regular, _, chain⟩

end FatFs

end HaoSys.Fs
