import HaoSys.Fs.Listing
import HaoSys.Fs.OpenDir

/-!
# Looking a name up

`fat_find_file` looks for the last name of a path in a list of 128 entries that
`fat_read_dir` has filled. It finds what stands in the directory exactly when
the name's first entry is among the first 128 live ones, and when the walk for
the list comes to an end and does not bring in a foreign entry of that name.
-/

namespace HaoSys.Fs

open HaoSys.Lib Prog DirSlot

/-- The first `m` elements of a list and of what was taken behind them. -/
theorem find?_take_append {α : Type} (p : α → Bool) (m : Nat) (xs ys : List α) :
    ((xs.take m ++ ys).take m).find? p = xs.find? p ↔
      (xs.take m).find? p = xs.find? p ∧
        (xs.find? p ≠ none ∨ (ys.take (m - xs.length)).find? p = none) := by
  have hsplit : (xs.take m ++ ys).take m = xs.take m ++ ys.take (m - xs.length) := by
    rw [List.take_append, List.take_take, Nat.min_self, List.length_take]
    congr 2
    omega
  rw [hsplit, List.find?_append]
  by_cases hlen : m ≤ xs.length
  · rw [show m - xs.length = 0 by omega, List.take_zero, List.find?_nil, Option.or_none]
    exact ⟨fun hx => ⟨hx, .inr rfl⟩, fun hx => hx.1⟩
  · rw [List.take_of_length_le (by omega)]
    cases xs.find? p with
    | none => simp
    | some x => simp

namespace FatFs

variable {fs : FatFs} {d : Disk} {dir z : UInt32} {cs : List UInt32}

/-! ## More fuel -/

theorem fatReadDir_mono (h : fs.bytesPerSector = 512) {m : UInt32} {fuel fuel' : Nat}
    (hle : fuel ≤ fuel') {es : List Dirent} (hes : Reads (fatReadDir fuel fs dir m) d es) :
    Reads (fatReadDir fuel' fs dir m) d es := by
  unfold fatReadDir at hes ⊢
  split at hes
  · next hnone =>
    rw [if_pos hnone]
    exact hes
  · next hsome =>
    rw [if_neg hsome]
    obtain ⟨k, hk, hfirst, he⟩ := (readDirClusters_iff h m (Nat.zero_le _)).1 hes
    exact (readDirClusters_iff h m (by simp)).2 ⟨k, by omega, hfirst, he⟩

/-- `dir_find_name` looks through what `fat_read_dir` returns. -/
theorem dirFindName_iff {fuel : Nat} {n : Name83} {r : Option Dirent} :
    Reads (dirFindName fuel fs dir n) d r ↔
      ∃ es, Reads (fatReadDir fuel fs dir 128) d es ∧ r = es.find? fun e => e.upperName = n := by
  constructor
  · intro hr
    obtain ⟨es, hes, he⟩ := hr.bind_inv (readOnly_fatReadDir fuel fs dir 128) fun _ => .pure _
    exact ⟨es, hes, Reads.of_pure he⟩
  · rintro ⟨es, hes, rfl⟩
    exact hes.bind (.pure _)

theorem dirFindName_mono (h : fs.bytesPerSector = 512) {fuel fuel' : Nat} (hle : fuel ≤ fuel')
    {n : Name83} {r : Option Dirent} (hr : Reads (dirFindName fuel fs dir n) d r) :
    Reads (dirFindName fuel' fs dir n) d r := by
  obtain ⟨es, hes, he⟩ := dirFindName_iff.1 hr
  exact dirFindName_iff.2 ⟨es, fatReadDir_mono h hle hes, he⟩

theorem walkDirs_mono (h : fs.bytesPerSector = 512) {fuel fuel' : Nat} (hle : fuel ≤ fuel')
    {ns : List Name83} {p : UInt32 × Dirent} {r : Option (UInt32 × Dirent)}
    (hr : Reads (walkDirs fuel fs ns p) d r) : Reads (walkDirs fuel' fs ns p) d r := by
  induction ns generalizing p with
  | nil => exact hr
  | cons n ns ih =>
    obtain ⟨o, ho, hrest⟩ := hr.bind_inv (readOnly_dirFindName fuel fs p.1 n) fun o => by
      cases o with
      | none => exact .pure _
      | some e => exact .ite (fun _ => readOnly_walkDirs fuel fs _ _) fun _ => .pure _
    refine (dirFindName_mono h hle ho).bind ?_
    cases o with
    | none => exact hrest
    | some e =>
      by_cases hdir : e.isDir = true
      · simp only [hdir, if_true] at hrest ⊢
        exact ih hrest
      · simp only [hdir] at hrest ⊢
        exact hrest

/-- More fuel does not change what a path resolves to. -/
theorem fatResolveParent_mono (h : fs.bytesPerSector = 512) {fuel fuel' : Nat}
    (hle : fuel ≤ fuel') {path : List UInt8} {r : Resolved}
    (hr : Reads (fatResolveParent fuel fs (some path)) d r) :
    Reads (fatResolveParent fuel' fs (some path)) d r := by
  rw [fatResolveParent, resolveParentLoop_eq _ fs path 0 (fun _ => 0) none] at hr ⊢
  obtain ⟨p, hp, hr⟩ := hr.bind_inv (readOnly_walkDirs fuel fs _ _)
    fun p => readOnly_lookupLast fuel fs _ p
  refine (walkDirs_mono h hle hp).bind ?_
  cases p with
  | none => exact hr
  | some p =>
    cases hlast : (splitLoop path none).2 with
    | none =>
      rw [hlast] at hr
      exact hr
    | some n =>
      rw [hlast] at hr
      obtain ⟨o, ho, hr⟩ := hr.bind_inv (readOnly_dirFindName fuel fs p.1 n) fun _ => .pure _
      exact (dirFindName_mono h hle ho).bind hr

theorem fatFindFile_mono (h : fs.bytesPerSector = 512) {fuel fuel' : Nat} (hle : fuel ≤ fuel')
    {path : List UInt8} {r : Option Dirent} (hr : Reads (fatFindFile fuel fs (some path)) d r) :
    Reads (fatFindFile fuel' fs (some path)) d r := by
  cases hi : fs.initialized with
  | false =>
    rw [fatFindFile, if_pos (by rw [hi]; rfl)] at hr ⊢
    exact hr
  | true =>
    rw [fatFindFile, if_neg (by simp [hi])] at hr ⊢
    obtain ⟨q, hq, hr⟩ := hr.bind_inv (readOnly_fatResolveParent fuel fs _) fun _ =>
      .ite (fun _ => .pure _) fun _ => .pure _
    exact (fatResolveParent_mono h hle hq).bind hr

/-! ## The lookup -/

/-- The first entry of the name `n` in the places `cs`. -/
def firstNamed (fs : FatFs) (d : Disk) (cs : List UInt32) (n : Name83) : Option Dirent :=
  ((live (fs.dirSlots d cs)).map DirSlot.entry).find? fun e => e.upperName = n

/-- With enough fuel, `fat_find_file` returns the first entry of the name `n` in the places
`cs`. -/
def FindsFirst (fs : FatFs) (d : Disk) (path : List UInt8) (cs : List UInt32) (n : Name83) : Prop :=
  ∃ f₀, ∀ fuel ≥ f₀, Reads (fatFindFile fuel fs (some path)) d (fs.firstNamed d cs n)

/-- The first entry of the name is among the first 128 live ones of the directory, if there is
one, and the walk stays in the directory, or ends behind it without having collected a foreign
entry for a name that the directory does not have. -/
def InReach (fs : FatFs) (d : Disk) (dir : UInt32) (cs : List UInt32) (z : UInt32) (n : Name83) :
    Prop :=
  (((live (fs.dirSlots d cs)).map DirSlot.entry).take 128).find? (fun e => e.upperName = n) =
      fs.firstNamed d cs n ∧
    (fs.StaysIn d 128 dir cs z ∨
      ∃ k, First (fs.ReadStops d 128 (min (live (fs.dirSlots d cs)).length 128) z) k ∧
        (fs.firstNamed d cs n ≠ none ∨
          (((live (fs.seenTo d z k)).map DirSlot.entry).take
            (128 - (live (fs.dirSlots d cs)).length)).find? (fun e => e.upperName = n) = none))

/-- A directory of the volume does not have the number that stands for failure. -/
theorem DirAt.ne_fail (hd : fs.DirAt d dir cs z) : dir ≠ 0xFFFFFFFF := by
  have hzero : dir = 0 ∨ dirStart fs dir = dir := by
    unfold dirStart
    by_cases h0 : dir = 0 ∧ fs.fsType = .fat32
    · exact .inl h0.1
    · exact .inr (if_neg h0)
  rintro rfl
  have hstart := hzero.resolve_left (by decide)
  rw [DirAt, hstart] at hd
  obtain ⟨h0, -⟩ | ⟨hw, hne⟩ := hd
  · exact absurd h0 (by decide)
  · cases cs with
    | nil => exact hne rfl
    | cons x cs =>
      have hlt := (hw.valid x List.mem_cons_self).2.1
      rw [← hw.tail.1] at hlt
      exact absurd hlt (by decide)

section Named

variable (h : fs.Sized) (hi : fs.initialized = true) (hr : ∀ a, d.readable a = true)
  (hd : fs.DirAt d dir cs z)

include h hi hr hd

/-- Where the list of 128 entries shows what the directory has. -/
theorem DirAt.findName_iff (n : Name83) :
    (∃ f₀, ∀ fuel ≥ f₀, Reads (dirFindName fuel fs dir n) d (fs.firstNamed d cs n)) ↔
      fs.InReach d dir cs z n := by
  have hm : (128 : UInt32) ≠ 0 := by decide
  have hin : fs.StaysIn d 128 dir cs z → ∀ fuel ≥ cs.length, Reads (fatReadDir fuel fs dir 128) d
      (((live (fs.dirSlots d cs)).map DirSlot.entry).take 128) :=
    fun hin fuel hfuel => hd.readDir_inside h hi hr hm hin hfuel
  by_cases hstays : fs.StaysIn d 128 dir cs z
  · constructor
    · rintro ⟨f₀, hf⟩
      obtain ⟨es, hes, he⟩ := dirFindName_iff.1 (hf (max f₀ cs.length) (le_max_left _ _))
      rw [hes.unique (hin hstays _ (le_max_right _ _))] at he
      exact ⟨he.symm, .inl hstays⟩
    · rintro ⟨hfirst, -⟩
      refine ⟨cs.length, fun fuel hfuel => dirFindName_iff.2 ⟨_, hin hstays fuel hfuel, ?_⟩⟩
      exact hfirst.symm
  · have hlist := fun k => find?_take_append (fun e : Dirent => decide (e.upperName = n)) 128
      ((live (fs.dirSlots d cs)).map DirSlot.entry) ((live (fs.seenTo d z k)).map DirSlot.entry)
    simp only [List.length_map] at hlist
    constructor
    · rintro ⟨f₀, hf⟩
      obtain ⟨es, hes, he⟩ := dirFindName_iff.1 (hf (cs.length + f₀) (Nat.le_add_left _ _))
      obtain ⟨k, -, hk, rfl⟩ := (hd.readDir_behind h hi hr hm hstays f₀).1 hes
      obtain ⟨hfirst, hforeign⟩ := (hlist k).1 he.symm
      exact ⟨hfirst, .inr ⟨k, hk, hforeign⟩⟩
    · rintro ⟨hfirst, hbehind⟩
      obtain ⟨k, hk, hforeign⟩ := hbehind.resolve_left hstays
      refine ⟨cs.length + (k + 1), fun fuel hfuel => ?_⟩
      obtain ⟨f, rfl⟩ : ∃ f, fuel = cs.length + f := ⟨fuel - cs.length, by omega⟩
      refine dirFindName_iff.2 ⟨_, (hd.readDir_behind h hi hr hm hstays f).2 ⟨k, by omega, hk, rfl⟩, ?_⟩
      exact ((hlist k).2 ⟨hfirst, hforeign⟩).symm

/-- **`fat_find_file` finds the first entry of a name** in the directory its path leads to exactly
when that entry is in reach of the list of 128 entries. -/
theorem fat_find_file_complete_iff {path : List UInt8} {n : Name83} {e : Dirent} {f₁ : Nat}
    (hwalk : Reads (walkDirs f₁ fs (splitPath path).1 (0, fun _ => 0)) d (some (dir, e)))
    (hlast : (splitPath path).2 = some n) :
    fs.FindsFirst d path cs n ↔ fs.InReach d dir cs z n := by
  have hfind : ∀ fuel ≥ f₁, ∀ r, Reads (fatFindFile fuel fs (some path)) d r ↔
      Reads (dirFindName fuel fs dir n) d r := by
    intro fuel hfuel r
    rw [fatFindFile_eq hi fuel path fun _ => 0,
      Reads.bind_iff (walkDirs_mono h.sector hfuel hwalk) (readOnly_findTail _ _), hlast]
    constructor
    · intro hx
      obtain ⟨q, hq, hx⟩ := hx.bind_inv (readOnly_lookupLast fuel fs _ _) fun _ =>
        .ite (fun _ => .pure _) fun _ => .pure _
      obtain ⟨o, ho, hq⟩ := hq.bind_inv (readOnly_dirFindName fuel fs dir n) fun _ => .pure _
      cases Reads.of_pure hq
      rw [if_neg hd.ne_fail] at hx
      rw [Reads.of_pure hx]
      exact ho
    · intro ho
      refine (ho.bind (.pure _) : Reads (lookupLast fuel fs (some n) (some (dir, e))) d
        ⟨dir, n, r⟩).bind ?_
      rw [if_neg hd.ne_fail]
      exact .pure _
  rw [← hd.findName_iff h hi hr n]
  constructor
  · rintro ⟨f₀, hf⟩
    exact ⟨max f₀ f₁, fun fuel hfuel => (hfind fuel (le_trans (le_max_right _ _) hfuel) _).1
      (hf fuel (le_trans (le_max_left _ _) hfuel))⟩
  · rintro ⟨f₀, hf⟩
    exact ⟨max f₀ f₁, fun fuel hfuel => (hfind fuel (le_trans (le_max_right _ _) hfuel) _).2
      (hf fuel (le_trans (le_max_left _ _) hfuel))⟩

end Named

/-- The name "D" in the root region of a volume with the directory D. -/
theorem fat_find_file_complete_iff_root :
    sampleFs.FindsFirst rootWithDir [0x44] [0] (makeName83 [0x44]) ↔
      sampleFs.InReach rootWithDir 0 [0] 0 (makeName83 [0x44]) :=
  fat_find_file_complete_iff ⟨rfl, by decide, by decide⟩ rfl (fun _ => rfl) (.inl ⟨rfl, rfl⟩)
    (show Reads (walkDirs 0 sampleFs (splitPath [0x44]).1 (0, fun _ => 0)) rootWithDir
      (some (0, fun _ => 0)) from .pure _) rfl

/-- A volume with a root region of nine sectors. -/
def crowdedRootFs : FatFs := ⟨0, 1, 2, 1, 9, 12, 48, 1, 512, .fat16, 0, true⟩

/-- The file P stands in the root region behind 128 others. -/
def crowdedRoot : Disk :=
  ⟨fun a => if a = 11 then Sector.ofDirents [newDirent (makeName83 [0x50]) 0x20 0 0]
    else if a < 3 then Sector.zero else fun _ => 0x41, fun _ => true, fun _ _ => true, 0⟩

/-- P is there and is not found. -/
theorem crowded_root_file_missed :
    crowdedRootFs.firstNamed crowdedRoot [0] (makeName83 [0x50]) =
        some (newDirent (makeName83 [0x50]) 0x20 0 0) ∧
      ¬ crowdedRootFs.FindsFirst crowdedRoot [0x50] [0] (makeName83 [0x50]) := by
  have hthere : crowdedRootFs.firstNamed crowdedRoot [0] (makeName83 [0x50]) =
      some (newDirent (makeName83 [0x50]) 0x20 0 0) := by decide +kernel
  have hread : Reads (fatFindFile 1 crowdedRootFs (some [0x50])) crowdedRoot none :=
    reads_of_evalOn (readOnly_fatFindFile _ _ _) (by decide +kernel)
  refine ⟨hthere, fun ⟨f₀, hf⟩ => ?_⟩
  have hfound := hf (max f₀ 1) (le_max_left _ _)
  rw [hthere] at hfound
  cases hfound.unique (fatFindFile_mono rfl (le_max_right _ _) hread)

end FatFs

end HaoSys.Fs
