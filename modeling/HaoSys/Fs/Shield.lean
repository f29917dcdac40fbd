import HaoSys.Fs.File
import HaoSys.Fs.Fill

/-!
# Sectors that a reader does not see

`Shields` says of a set of sectors that neither a directory of the volume nor
a file that passes a test lies in it. On two devices that differ in these
sectors only, every lookup finds the same and such a file has the same
contents. In an orderly volume the data of one file are shielded from everyone
who may not read it.
-/

namespace HaoSys.Fs

open HaoSys.Lib Prog DirSlot

/-- `d'` is `d` up to the contents of the sectors in `A`. -/
structure Disk.SameOff (A : UInt32 → Prop) (d d' : Disk) : Prop where
  sector : ∀ a, ¬ A a → d'.sector a = d.sector a
  readable : d'.readable = d.readable

namespace FatFs

/-- The directory `dir` lies in the places `cs`, the fixed root region or a chain of clusters with
an end marker, and a lookup gets through it. -/
structure Listed (fs : FatFs) (d : Disk) (fuel : Nat) (dir : UInt32) (cs : List UInt32) :
    Prop where
  walk : dirStart fs dir = 0 ∧ cs = [0] ∨
    (∃ z, DirWalk fs d (dirStart fs dir) cs z) ∧ ended (fs.dirSlots d cs) = true
  few : (live (fs.dirSlots d cs)).length < 128
  fuel : cs.length ≤ fuel

/-- The directories of the volume's tree, with their places, and the files in them that pass the
test `ok` keep off the sectors in `A`. -/
structure Shields (fs : FatFs) (d : Disk) (fuel : Nat) (ok : Dirent → Bool) (A : UInt32 → Prop)
    (dirs : UInt32 → List UInt32 → Prop) : Prop where
  sound : fs.Sound
  readable : ∀ a, d.readable a = true
  fat : ∀ i, i < 2 * fs.fatSize.toNat → ¬ A (fs.fatSector i)
  root : ∃ cs, dirs 0 cs
  listed : ∀ n cs, dirs n cs → fs.Listed d fuel n cs
  off : ∀ n cs, dirs n cs → ∀ c ∈ cs, ∀ l ∈ fs.regionSectors c, ¬ A (fs.baseLba + l)
  down : ∀ n cs, dirs n cs → ∀ t ∈ live (fs.dirSlots d cs), t.entry.isDir = true →
    ∃ cs', dirs t.entry.firstCluster cs'
  files : ∀ n cs, dirs n cs → ∀ t ∈ live (fs.dirSlots d cs), ok t.entry = true →
    ∃ fc, fs.FileAt d fuel t.entry fc ∧ ∀ c ∈ fc, ∀ l ∈ fs.regionSectors c, ¬ A (fs.baseLba + l)

variable {fs : FatFs} {d d' : Disk} {fuel : Nat} {ok : Dirent → Bool} {A : UInt32 → Prop}
  {dirs : UInt32 → List UInt32 → Prop} {dir n : UInt32} {cs : List UInt32}

theorem dirSlots_root (fs : FatFs) (d : Disk) :
    fs.dirSlots d [0] = fs.slots d (fs.regionSectors 0) :=
  List.append_nil _

/-- `dir_find_name` on a directory that is read completely. -/
theorem Listed.findName (h : fs.Listed d fuel dir cs) (hs : fs.Sound)
    (hr : ∀ a, d.readable a = true) (name : Name83) :
    Reads (dirFindName fuel fs dir name) d
      (((live (fs.dirSlots d cs)).map DirSlot.entry).find? fun e => e.upperName = name) := by
  obtain ⟨hstart, rfl⟩ | ⟨⟨z, hw⟩, hend⟩ := h.walk
  · have hfuel := h.fuel
    obtain ⟨fuel, rfl⟩ : ∃ f, fuel = f + 1 := ⟨fuel - 1, by simp at hfuel; omega⟩
    have hfew := h.few
    refine Gives.bind (a := (live (fs.dirSlots d [0])).map DirSlot.entry) ?_ (.pure _)
    unfold fatReadDir
    rw [if_neg (by simp [hs.initialized]), hstart]
    have hread := readDirClusters_root hs.sized hr 128 fuel [] (by simp)
    rw [← dirSlots_root] at hread
    have hscan : (scan (128 : UInt32).toNat [] (fs.dirSlots d [0])).2 =
        (live (fs.dirSlots d [0])).map DirSlot.entry := by
      unfold scan
      rw [List.nil_append, List.take_of_length_le (by
        rw [List.length_map, show (128 : UInt32).toNat = 128 from rfl]
        omega)]
    rwa [hscan] at hread
  · exact hw.findName hs.sized hs.initialized hr hend h.few h.fuel name

section Same

variable (h : fs.Shields d fuel ok A dirs) (hd : Disk.SameOff A d d')

include h hd

theorem Shields.table_eq : fs.table d' = fs.table d := by
  funext c
  unfold table
  split
  · next hc =>
    refine entry_congr fun k hk => ?_
    have hlt := hc.2
    unfold fatByte
    rw [hd.sector _ (h.fat _ (by omega))]
  · rfl

theorem Shields.dirSlots_eq (hn : dirs n cs) : fs.dirSlots d' cs = fs.dirSlots d cs := by
  unfold dirSlots slots sectorSlots
  refine List.flatMap_congr fun c hc => List.flatMap_congr fun l hl => ?_
  rw [hd.sector _ (h.off n cs hn c hc l hl)]

theorem Shields.readable' : ∀ a, d'.readable a = true := by
  rw [hd.readable]
  exact h.readable

theorem Shields.listed' (hn : dirs n cs) : fs.Listed d' fuel n cs := by
  have hl := h.listed n cs hn
  refine ⟨?_, ?_, hl.fuel⟩
  · rw [h.dirSlots_eq hd hn]
    refine hl.walk.imp_right fun ⟨⟨z, hw⟩, hend⟩ => ⟨⟨z, ?_, hw.valid⟩, hend⟩
    rw [h.table_eq hd]
    exact hw.follows
  · rw [h.dirSlots_eq hd hn]
    exact hl.few

/-- A lookup in a directory finds the same on both devices. -/
theorem Shields.findName (hn : dirs n cs) (name : Name83) :
    ∃ r, Reads (dirFindName fuel fs n name) d r ∧ Reads (dirFindName fuel fs n name) d' r ∧
      ∀ e, r = some e → ∃ t ∈ live (fs.dirSlots d cs), t.entry = e := by
  have h1 := (h.listed n cs hn).findName h.sound h.readable name
  have h2 := (h.listed' hd hn).findName h.sound (h.readable' hd) name
  rw [h.dirSlots_eq hd hn] at h2
  refine ⟨_, h1, h2, fun e he => ?_⟩
  exact List.mem_map.1 (List.mem_of_find?_eq_some he)

/-- Following names leads to the same directory of the tree. -/
theorem Shields.walkDirs (ns : List Name83) (hn : dirs n cs) (f : Dirent) :
    ∃ r, Reads (walkDirs fuel fs ns (n, f)) d r ∧ Reads (walkDirs fuel fs ns (n, f)) d' r ∧
      ∀ q, r = some q → ∃ cs', dirs q.1 cs' := by
  induction ns generalizing n cs f with
  | nil =>
    refine ⟨some (n, f), .pure _, .pure _, ?_⟩
    rintro q ⟨⟩
    exact ⟨cs, hn⟩
  | cons m ns ih =>
    obtain ⟨r, h1, h2, hr⟩ := h.findName hd hn m
    cases r with
    | none => exact ⟨none, h1.bind (.pure _), h2.bind (.pure _), nofun⟩
    | some e =>
      by_cases hdir : e.isDir = true
      · obtain ⟨t, ht, rfl⟩ := hr e rfl
        obtain ⟨cs', hcs'⟩ := h.down n cs hn t ht hdir
        obtain ⟨r', h1', h2', hr'⟩ := ih hcs' t.entry
        refine ⟨r', h1.bind ?_, h2.bind ?_, hr'⟩
        · simp only [hdir, if_true]
          exact h1'
        · simp only [hdir, if_true]
          exact h2'
      · refine ⟨none, h1.bind ?_, h2.bind ?_, nofun⟩
        · simp only [hdir]
          exact .pure _
        · simp only [hdir]
          exact .pure _

/-- A path resolves to the same on both. -/
theorem Shields.resolveParent (path : Option (List UInt8)) :
    ∃ r, Reads (fatResolveParent fuel fs path) d r ∧ Reads (fatResolveParent fuel fs path) d' r ∧
      ∀ e, r.entry = some e →
        ∃ n cs t, dirs n cs ∧ t ∈ live (fs.dirSlots d cs) ∧ t.entry = e := by
  cases path with
  | none => exact ⟨.fail, .pure _, .pure _, nofun⟩
  | some path =>
    obtain ⟨cs, hroot⟩ := h.root
    obtain ⟨p, h1, h2, hp⟩ := h.walkDirs hd (splitPath path).1 hroot fun _ => 0
    have hloop : fatResolveParent fuel fs (some path) =
        Fs.walkDirs fuel fs (splitPath path).1 (0, fun _ => 0) >>=
          lookupLast fuel fs (splitPath path).2 := resolveParentLoop_eq fuel fs path 0 _ none
    rw [hloop]
    cases p with
    | none => exact ⟨.fail, h1.bind (.pure _), h2.bind (.pure _), nofun⟩
    | some q =>
      cases (splitPath path).2 with
      | none => exact ⟨.fail, h1.bind (.pure _), h2.bind (.pure _), nofun⟩
      | some name =>
        obtain ⟨cs', hq⟩ := hp q rfl
        obtain ⟨x, hx1, hx2, hx⟩ := h.findName hd hq name
        refine ⟨⟨q.1, name, x⟩, h1.bind (hx1.bind (.pure _)), h2.bind (hx2.bind (.pure _)), ?_⟩
        intro e he
        obtain ⟨t, ht, rfl⟩ := hx e he
        exact ⟨q.1, cs', t, hq, ht, rfl⟩

/-- `fat_find_file` finds the same entry of the tree. -/
theorem Shields.fatFindFile (path : Option (List UInt8)) :
    ∃ r, Reads (fatFindFile fuel fs path) d r ∧ Reads (fatFindFile fuel fs path) d' r ∧
      ∀ e, r = some e → ∃ n cs t, dirs n cs ∧ t ∈ live (fs.dirSlots d cs) ∧ t.entry = e := by
  obtain ⟨r, h1, h2, hr⟩ := h.resolveParent hd path
  unfold Fs.fatFindFile
  rw [if_neg (by simp [h.sound.initialized])]
  by_cases hfail : r.parent = 0xFFFFFFFF
  · refine ⟨none, h1.bind ?_, h2.bind ?_, nofun⟩
    · rw [if_pos hfail]
      exact .pure _
    · rw [if_pos hfail]
      exact .pure _
  · refine ⟨r.entry, h1.bind ?_, h2.bind ?_, hr⟩
    · rw [if_neg hfail]
      exact .pure _
    · rw [if_neg hfail]
      exact .pure _

/-- The contents of the files that pass are the same. -/
theorem Shields.contents {t : DirSlot} (hn : dirs n cs) (ht : t ∈ live (fs.dirSlots d cs))
    (hok : ok t.entry = true) :
    ∃ fc, fs.FileAt d fuel t.entry fc ∧ fs.FileAt d' fuel t.entry fc ∧
      fs.contents d' t.entry fc = fs.contents d t.entry fc := by
  obtain ⟨fc, hfile, hoff⟩ := h.files n cs hn t ht hok
  refine ⟨fc, hfile, ⟨?_, hfile.clusters, hfile.size, hfile.fuel⟩, ?_⟩
  · rw [h.table_eq hd]
    exact hfile.chain
  · unfold FatFs.contents
    rw [clusterBytes_congr fun c hc l hl => hd.sector _ (hoff c hc l hl)]

end Same

/-! ## Orderly volumes -/

/-- The volume's tree: its directories with their places, and the chain of every file in them. No
two of them share a cluster. -/
structure Orderly (fs : FatFs) (d : Disk) (fuel : Nat) (dirs : UInt32 → List UInt32 → Prop)
    (chain : DirSlot → List UInt32) : Prop where
  sound : fs.Sound
  readable : ∀ a, d.readable a = true
  root : ∃ cs, dirs 0 cs
  listed : ∀ n cs, dirs n cs → fs.Listed d fuel n cs
  places : ∀ n cs, dirs n cs → ∀ c ∈ cs, fs.Place c
  down : ∀ n cs, dirs n cs → ∀ t ∈ live (fs.dirSlots d cs), t.entry.isDir = true →
    t.entry.fileSize = 0 ∧ ∃ cs', dirs t.entry.firstCluster cs'
  file : ∀ n cs, dirs n cs → ∀ t ∈ live (fs.dirSlots d cs), t.entry.isDir = false →
    fs.FileAt d fuel t.entry (chain t)
  apart : ∀ n cs, dirs n cs → ∀ t ∈ live (fs.dirSlots d cs), t.entry.isDir = false →
    ∀ n' cs', dirs n' cs' → ∀ c ∈ chain t, c ∉ cs'
  unshared : ∀ n cs n' cs', dirs n cs → dirs n' cs' → ∀ t ∈ live (fs.dirSlots d cs),
    ∀ t' ∈ live (fs.dirSlots d cs'), t.entry.isDir = false → t'.entry.isDir = false → t ≠ t' →
      ∀ c ∈ chain t, c ∉ chain t'

variable {chain : DirSlot → List UInt32}

end FatFs

end HaoSys.Fs
