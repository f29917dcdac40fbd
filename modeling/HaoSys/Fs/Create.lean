import HaoSys.Fs.Alloc
import HaoSys.Fs.Fill

/-!
# Creating entries

The steps in which `fat_write_file` and `fat_mkdir` create an entry, run by
run: free clusters are taken and closed to a chain, sectors are cleared and
filled, and the entry is stored in a slot that was found before.
-/

namespace HaoSys.Fs

open HaoSys.Lib Prog DirSlot

namespace FatFs

variable {fs : FatFs} {d d' d₁ : Disk} {fuel : Nat} {dir : UInt32} {ps cs : List UInt32}
  {name : Name83} {lba offset : UInt32} {e : Dirent} {sub : List UInt8} {s t : FatState}

theorem dir_zero (h0 : dirStart fs dir = 0) : dir = 0 := by
  unfold dirStart at h0
  split at h0
  · next hroot => exact hroot.1
  · exact h0

/-! ## What stays before the entry is stored -/

/-- Entries and sectors of free clusters may have changed. -/
abbrev Grows (fs : FatFs) (d d' : Disk) : Prop := fs.ChangesIn (fs.Free d) (fs.Free d) d d'

/-! ## Storing an entry -/

theorem storeDirent_run (fs : FatFs) (lba : UInt32) (e : Dirent) (hr : s.disk.Reliable)
    (hoff : ∃ j, j < 16 ∧ offset = UInt32.ofNat (32 * j)) :
    ∃ b, storeDirent fs lba offset e s = .ok (true, ⟨b, s.disk.write (fs.baseLba + lba)
      ((s.disk.sector (fs.baseLba + lba)).setDirent offset.toNat e)⟩) := by
  obtain ⟨j, hj, hoff⟩ := hoff
  have hlt : offset.toNat + 32 ≤ 512 := by
    rw [hoff, ofNat_slot hj]
    omega
  have hok : s.disk.wrote (fs.baseLba + lba) = true := hr.writable _ _
  unfold storeDirent
  rw [bind_of_ok (fatDevRead_of_readable (hr.readable _))]
  simp only [if_true]
  rw [bind_of_ok (bufWrite_run hlt _ _), fatDevWrite_run]
  simp only [hok]
  exact ⟨_, rfl⟩

/-- The entry is stored behind whatever the call has done elsewhere. -/
theorem ChangesIn.fills {T S : UInt32 → Prop} (hg : fs.ChangesIn T S d d') (hs : fs.Sound)
    (hr : d.Reliable) {c : UInt32} (hc : fs.Place c) (hl : lba ∈ fs.regionSectors c) :
    fs.Fills T S lba offset e d (d'.write (fs.baseLba + lba)
      ((d'.sector (fs.baseLba + lba)).setDirent offset.toNat e)) := by
  have hok : d'.wrote (fs.baseLba + lba) = true := (hg.reliable hr).writable _ _
  have hw := hs.within_write (d := d') hc hl
    ((d'.sector (fs.baseLba + lba)).setDirent offset.toNat e)
  refine ⟨fun x hx => (hw.table x (by simp)).trans (hg.table x hx), fun a ha hsec => ?_,
    hg.readable, hg.writable⟩
  rw [Disk.write_sector, ← hg.sector a ha hsec]
  by_cases he : a = fs.baseLba + lba
  · rw [if_pos ⟨he, hok⟩, if_pos he, he]
  · rw [if_neg (fun h => he h.1), if_neg he]

/-! ## Files -/

/-- The chain of the clusters taken is closed. -/
theorem Taken.seal {a : Alloc} {d₀ : Disk} (h : fs.Taken d₀ s.disk a cs) (hs : fs.Sound)
    (hr : d₀.Reliable) (hx : ∀ x ∈ cs, ¬ fs.Crosses x) (hnodup : cs.Nodup) :
    ∃ t z, linkPrev fs a.prev chainMark s = .ok ((), t) ∧
      fs.ChangesIn (· ∈ cs) (fun _ => False) d₀ t.disk ∧
      Follows (fs.table t.disk) a.first cs z := by
  rcases List.eq_nil_or_concat cs with rfl | ⟨pre, p, rfl⟩
  · have hprev : a.prev = 0 := h.prev
    refine ⟨s, a.first, ?_, h.within, rfl⟩
    unfold linkPrev
    rw [if_neg (by rw [hprev]; decide)]
    rfl
  · have hprev : a.prev = p := by rw [h.prev]; simp
    have hp := h.free p (by simp)
    obtain ⟨t, hrun, hw, -⟩ := hs.writeFatEntry_run hp.1 (hx p (by simp)) chainMark
      (h.within.reliable hr)
    have hlinked := h.linked (by simp)
    rw [List.concat_eq_append, List.dropLast_concat, hprev] at hlinked
    refine ⟨t, fs.table t.disk p, ?_, h.within.trans (hw.mono ?_ fun _ => id), ?_⟩
    · unfold linkPrev
      rw [if_pos (by rw [hprev]; exact cluster_ne_zero hp.1), hprev]
      exact hrun
    · rintro x rfl
      simp
    · rw [List.concat_eq_append]
      refine follows_append.2 ⟨p, hlinked.congr fun x hxm => hw.table x ?_, rfl, rfl⟩
      rintro rfl
      rw [List.concat_eq_append, List.nodup_append] at hnodup
      exact hnodup.2.2 x hxm x (by simp) rfl

theorem taken_nil (fs : FatFs) (d : Disk) : fs.Taken d d ⟨0, 0, 0⟩ [] :=
  ⟨ChangesIn.refl _ _ _ _, rfl, rfl, rfl, nofun, fun h => absurd rfl h⟩

/-- The clusters that hold `n` bytes. -/
def clustersFor (fs : FatFs) (n : Nat) : Nat :=
  (n + (512 * fs.sectorsPerCluster.toNat - 1)) / (512 * fs.sectorsPerCluster.toNat)

theorem clustersFor_spec (h : fs.Sized) (n : Nat) :
    n ≤ 512 * fs.sectorsPerCluster.toNat * fs.clustersFor n ∧ fs.clustersFor n ≤ n := by
  have hpos : 0 < fs.sectorsPerCluster.toNat := Nat.pos_of_ne_zero fun hz =>
    h.cluster (UInt32.toNat_inj.1 (by rw [hz, UInt32.toNat_zero]))
  unfold clustersFor
  generalize hb : 512 * fs.sectorsPerCluster.toNat = b
  have hmod := Nat.div_add_mod (n + (b - 1)) b
  have hlt := Nat.mod_lt (n + (b - 1)) (show b > 0 by omega)
  refine ⟨by omega, Nat.le_of_lt_succ (Nat.div_lt_of_lt_mul ?_)⟩
  rw [Nat.mul_succ]
  have := Nat.le_mul_of_pos_left n (show 0 < b by omega)
  omega

/-- The clusters `fat_write_file` asks for hold the data. -/
theorem needed_spec (h : fs.Sized) {n : Nat} (hn : n ≤ 65536) :
    ∃ needed, udiv (UInt32.ofNat n + fs.sectorsPerCluster * fs.bytesPerSector - 1)
        (fs.sectorsPerCluster * fs.bytesPerSector) = pure needed ∧
      needed.toNat = fs.clustersFor n := by
  have hlt := h.clusterLe
  have hpos : 0 < fs.sectorsPerCluster.toNat := Nat.pos_of_ne_zero fun hz =>
    h.cluster (UInt32.toNat_inj.1 (by rw [hz, UInt32.toNat_zero]))
  have hbytes : (fs.sectorsPerCluster * fs.bytesPerSector).toNat =
      512 * fs.sectorsPerCluster.toNat := by
    rw [UInt32.toNat_mul, h.toNat]
    omega
  unfold clustersFor
  rw [← hbytes]
  generalize fs.sectorsPerCluster * fs.bytesPerSector = b at hbytes
  have hne : b ≠ 0 := by
    rintro rfl
    rw [UInt32.toNat_zero] at hbytes
    omega
  refine ⟨(UInt32.ofNat n + b - 1) / b, ?_, ?_⟩
  · unfold udiv
    rw [if_neg hne]
  · have hsize : (UInt32.ofNat n).toNat = n := by
      rw [UInt32.toNat_ofNat']
      omega
    have hadd : (UInt32.ofNat n + b).toNat = n + b.toNat := by
      rw [UInt32.toNat_add, hsize]
      omega
    have hsub : (UInt32.ofNat n + b - 1).toNat = n + (b.toNat - 1) := by
      rw [UInt32.toNat_sub_of_le _ _ (UInt32.le_iff_toNat_le.2 (by
        rw [hadd, UInt32.toNat_one]
        omega)), hadd, UInt32.toNat_one]
      omega
    rw [UInt32.toNat_div, hsub]

/-- The allocation of `fat_write_file`: as many clusters as needed, or every free one. -/
theorem alloc_run (hs : fs.Sound) (hr : s.disk.Reliable) (needed : UInt32)
    (hx : fs.InSectors s.disk needed.toNat) :
    ∃ t a cs, allocLoop fs needed (fs.clusterLimit.toNat - 2) 2 ⟨0, 0, 0⟩ s = .ok (a, t) ∧
      fs.Taken s.disk t.disk a cs ∧ cs.Nodup ∧ cs.length ≤ needed.toNat ∧
      cs = fs.firstFree s.disk needed.toNat := by
  have hlt := fs.clusterLimit.toNat_lt
  have hx : ∀ x ∈ [] ++ (fs.freeFrom s.disk 2 (fs.clusterLimit.toNat - 2)).take
      (needed.toNat - ([] : List UInt32).length), ¬ fs.Crosses x := hx
  obtain ⟨t, a, hrun, htaken⟩ := allocLoop_run hs hr needed
    (show 2 ≤ (2 : UInt32).toNat from Nat.le_refl 2)
    (show (2 : UInt32).toNat + (fs.clusterLimit.toNat - 2) ≤ fs.clusterLimit.toNat ∨
      fs.clusterLimit.toNat - 2 = 0 by
        rw [show (2 : UInt32).toNat = 2 from rfl]
        omega)
    hx (taken_nil fs s.disk) List.nodup_nil nofun (by simp; omega)
  rw [List.nil_append, List.length_nil, Nat.sub_zero] at htaken
  refine ⟨t, a, _, hrun, htaken, ?_, ?_, rfl⟩
  · refine (List.take_sublist _ _).nodup (List.filter_sublist.nodup (nodup_sectorsFrom ?_))
    rw [show (2 : UInt32).toNat = 2 from rfl]
    omega
  · rw [List.length_take]
    omega

/-- From `d` to `d'` as many free clusters as `n` bytes need were made into a chain. -/
structure NewChain (fs : FatFs) (d d' : Disk) (first : UInt32) (cs : List UInt32) (n : Nat) :
    Prop where
  within : fs.ChangesIn (· ∈ cs) (fun _ => False) d d'
  free : ∀ x ∈ cs, fs.Free d x
  nodup : cs.Nodup
  follows : ∃ z, Follows (fs.table d') first cs z
  length : cs.length = fs.clustersFor n

/-- How many clusters are free. -/
def freeCount (fs : FatFs) (d : Disk) : Nat := (fs.freeFrom d 2 (fs.clusterLimit.toNat - 2)).length

/-- The allocation comes to too few clusters, or the chain of those it took can be closed. -/
theorem alloc_seal (hs : fs.Sound) (hr : s.disk.Reliable) {needed : UInt32} {n : Nat}
    (hneeded : needed.toNat = fs.clustersFor n) (hx : fs.InSectors s.disk (fs.clustersFor n)) :
    ∃ t a, allocLoop fs needed (fs.clusterLimit.toNat - 2) 2 ⟨0, 0, 0⟩ s = .ok (a, t) ∧
      (a.count < needed ∧ fs.freeCount s.disk < fs.clustersFor n ∨
        ¬ a.count < needed ∧ fs.clustersFor n ≤ fs.freeCount s.disk ∧
          ∃ u cs, linkPrev fs a.prev chainMark t = .ok ((), u) ∧
            fs.NewChain s.disk u.disk a.first cs n) := by
  rw [← hneeded] at hx
  obtain ⟨t, a, cs, hrun, htaken, hnodup, -, hcs⟩ := alloc_run hs hr needed hx
  have hcount : a.count.toNat = min (fs.clustersFor n) (fs.freeCount s.disk) := by
    rw [htaken.count, hcs, firstFree, List.length_take, hneeded]
    rfl
  refine ⟨t, a, hrun, ?_⟩
  rw [UInt32.lt_iff_toNat_lt]
  by_cases hfew : fs.freeCount s.disk < fs.clustersFor n
  · exact .inl ⟨by omega, hfew⟩
  · obtain ⟨u, z, hseal, hw, hf⟩ := htaken.seal hs hr (by rw [hcs]; exact hx) hnodup
    refine .inr ⟨by omega, Nat.not_lt.1 hfew, u, cs, hseal, hw, htaken.free, hnodup, ⟨z, hf⟩, ?_⟩
    rw [← htaken.count]
    omega

/-- From `d` to `d'` an entry of the name was put into a slot, and the data into a new chain. -/
structure NewFile (fs : FatFs) (d d' : Disk) (lba offset : UInt32) (name : Name83)
    (data : List UInt8) (first : UInt32) (cs : List UInt32) : Prop where
  fills : fs.Fills (fs.Free d) (fs.Free d) lba offset
    (newDirent name 0x20 first (UInt32.ofNat data.length)) d d'
  free : ∀ x ∈ cs, fs.Free d x
  follows : ∃ z, Follows (fs.table d') first cs z
  length : cs.length = fs.clustersFor data.length
  bytes : (fs.clusterBytes d' cs).take data.length = data

/-- A free slot that is found is taken. -/
theorem writeTarget_free {r : Resolved}
    (hslot : Reads (dirFindSlot fuel fs r.parent r.name83) d (.free lba offset)) (b : Sector) :
    ∃ b', writeTarget fuel fs r ⟨b, d⟩ = .ok (some ⟨lba, offset, none⟩, ⟨b', d⟩) := by
  obtain ⟨⟨b', d'⟩, h, hd⟩ := hslot ⟨b, d⟩ rfl
  obtain rfl : d' = d := hd
  refine ⟨b', ?_⟩
  unfold writeTarget
  rw [bind_of_ok h]
  rfl

/-- **`fat_write_file`** when it has resolved its path and taken a free slot: the clusters do not
suffice, or the file is made. -/
theorem writeNew_run (hs : fs.Sound) {r : Resolved} {u v : FatState}
    (hres : fatResolveParent fuel fs (some sub) s = .ok (r, u)) (hparent : r.parent ≠ 0xFFFFFFFF)
    (htarget : writeTarget fuel fs r u = .ok (some ⟨lba, offset, none⟩, v)) (hr : v.disk.Reliable)
    {c : UInt32} (hc : fs.Place c ∧ ¬ fs.Free v.disk c) (hl : lba ∈ fs.regionSectors c)
    (hoff : ∃ j, j < 16 ∧ offset = UInt32.ofNat (32 * j)) {data : List UInt8}
    (hlen : data.length ≤ 65536) (hx : fs.InSectors v.disk (fs.clustersFor data.length)) :
    (fs.freeCount v.disk < fs.clustersFor data.length ∧
        ∃ t, fatWriteFileImpl fuel fs (some sub) data s = .ok ((false, 0), t)) ∨
      (fs.clustersFor data.length ≤ fs.freeCount v.disk ∧
        ∃ t first cs, fatWriteFileImpl fuel fs (some sub) data s = .ok ((true, data.length), t) ∧
          fs.NewFile v.disk t.disk lba offset r.name83 data first cs) := by
  obtain ⟨needed, hneeded, hcount⟩ := needed_spec hs.sized hlen
  obtain ⟨hfit, hle⟩ := clustersFor_spec hs.sized data.length
  obtain ⟨t3, a, h3, hfew | ⟨henough, hfree, t4, cs, h4, hchain⟩⟩ := alloc_seal hs hr hcount hx
  · -- the clusters taken are given back
    have hfreed : Total (freeChainLoop fs 65536 a.first) fun _ => True :=
      total_freeChainLoop hs.sized.sector (total_writeFatEntry hs.sized.sector)
    obtain ⟨⟨⟩, t4, h4, -⟩ := hfreed.run t3
    refine .inl ⟨hfew.2, t4, ?_⟩
    unfold fatWriteFileImpl
    rw [if_neg (by simp [hs.initialized]), bind_of_ok hres, if_neg hparent,
      bind_of_ok (maxCluster_eq hs.sized.cluster _), bind_of_ok htarget]
    simp only [hneeded, pure_bind]
    rw [bind_of_ok h3, if_pos hfew.1]
    unfold fatFreeChain
    rw [bind_of_ok h4]
    rfl
  · obtain ⟨z, hfollows⟩ := hchain.follows
    have hclusters : ∀ x ∈ cs, fs.Cluster x := fun x hxm => (hchain.free x hxm).1
    have hgrow4 : fs.Grows v.disk t4.disk := hchain.within.mono hchain.free nofun
    have hlencs := hchain.length
    have hroom : data.length ≤ 512 * fs.sectorsPerCluster.toNat * cs.length := by
      rw [hlencs]; exact hfit
    obtain ⟨t5, h5, hw5, hbytes⟩ := writeClusters_run hs (hgrow4.reliable hr) hclusters
      hchain.nodup hfollows hroom (show cs.length < data.length + 1 by omega)
    have hgrow5 : fs.Grows v.disk t5.disk := hgrow4.trans (hw5.mono nofun hchain.free)
    obtain ⟨b6, h6⟩ := storeDirent_run fs lba
      (newDirent r.name83 0x20 a.first (UInt32.ofNat data.length)) (hgrow5.reliable hr) hoff
    have hw6 := hs.within_write (d := t5.disk) hc.1 hl
      ((t5.disk.sector (fs.baseLba + lba)).setDirent offset.toNat
        (newDirent r.name83 0x20 a.first (UInt32.ofNat data.length)))
    refine .inr ⟨hfree, ⟨b6, t5.disk.write (fs.baseLba + lba)
      ((t5.disk.sector (fs.baseLba + lba)).setDirent offset.toNat
        (newDirent r.name83 0x20 a.first (UInt32.ofNat data.length)))⟩, a.first, cs, ?_,
      hgrow5.fills hs hr hc.1 hl, hchain.free, ⟨z, ?_⟩, hlencs, ?_⟩
    · have hnochain : freeChainFrom fs ((none : Option UInt32).getD 0) t4 = .ok ((), t4) := rfl
      unfold fatWriteFileImpl
      rw [if_neg (by simp [hs.initialized]), bind_of_ok hres, if_neg hparent,
        bind_of_ok (maxCluster_eq hs.sized.cluster _), bind_of_ok htarget]
      simp only [hneeded, pure_bind]
      rw [bind_of_ok h3, if_neg henough, bind_of_ok h4, bind_of_ok hnochain, bind_of_ok h5]
      simp only [if_true]
      rw [bind_of_ok h6]
      rfl
    · exact hfollows.congr fun x _ => (hw6.table x (by simp)).trans (hw5.table x (by simp))
    · -- the slot is in another sector than the data
      rw [clusterBytes_congr fun x hxm l' hl' => ?_, hbytes]
      refine hs.write_region hc.1 hl (.inr (hclusters x hxm)) ?_ hl' _
      rintro rfl
      exact hc.2 (hchain.free x hxm)

/-! ## Directories -/

theorem mem_freeFrom {c x : UInt32} {n : Nat} (hn : c.toNat + n ≤ 2 ^ 32) :
    x ∈ fs.freeFrom d c n ↔ (c.toNat ≤ x.toNat ∧ x.toNat < c.toNat + n) ∧ fs.table d x = 0 := by
  unfold freeFrom
  rw [List.mem_filter, mem_sectorsFrom hn, decide_eq_true_iff]

/-- The free clusters are those of the list that the allocation goes through. -/
theorem mem_freeFrom_two {x : UInt32} :
    x ∈ fs.freeFrom d 2 (fs.clusterLimit.toNat - 2) ↔ fs.Free d x := by
  have hlt := fs.clusterLimit.toNat_lt
  have htwo : (2 : UInt32).toNat = 2 := rfl
  rw [mem_freeFrom (by rw [htwo]; omega), htwo]
  unfold Free Cluster
  rw [UInt32.lt_iff_toNat_lt]
  constructor
  · rintro ⟨⟨h2, hlim⟩, hz⟩
    exact ⟨⟨h2, by omega⟩, hz⟩
  · rintro ⟨⟨h2, hlim⟩, hz⟩
    exact ⟨⟨h2, by omega⟩, hz⟩

/-- The search for a free cluster finds the first one. -/
theorem findFree_run (hs : fs.Sound) {n : Nat} {c : UInt32} (h2 : 2 ≤ c.toNat)
    (hn : c.toNat + n ≤ fs.clusterLimit.toNat ∨ n = 0) (hr : s.disk.Reliable) :
    ∃ b, findFree fs n c s = .ok ((fs.freeFrom s.disk c n).head?, ⟨b, s.disk⟩) := by
  induction n generalizing c s with
  | zero => exact ⟨s.buf, rfl⟩
  | succ n ih =>
    have hlim := hn.resolve_right (Nat.succ_ne_zero n)
    have hlt := fs.clusterLimit.toNat_lt
    have hcl : fs.Cluster c := ⟨h2, UInt32.lt_iff_toNat_lt.2 (by omega)⟩
    have hadd : (c + 1).toNat = c.toNat + 1 := by
      rw [UInt32.toNat_add, UInt32.toNat_one]
      omega
    obtain ⟨b, hread⟩ := hs.readFatEntry_run hcl hr
    unfold findFree
    rw [bind_of_ok hread]
    by_cases hz : fs.table s.disk c = 0
    · refine ⟨b, ?_⟩
      rw [if_pos hz, freeFrom, sectorsFrom, List.filter_cons_of_pos (by simpa using hz)]
      rfl
    · have hdisk : (⟨b, s.disk⟩ : FatState).disk.Reliable := hr
      obtain ⟨b', hrun⟩ := ih (c := c + 1) (by omega) (by omega) hdisk
      refine ⟨b', ?_⟩
      rw [if_neg hz, freeFrom, sectorsFrom, List.filter_cons_of_neg (by simpa using hz)]
      exact hrun

/-- The search of `fat_mkdir` and `dir_extend`. -/
theorem findFirst_run (hs : fs.Sound) (hr : s.disk.Reliable) :
    ∃ b, findFree fs (fs.clusterLimit.toNat - 2) 2 s =
      .ok ((fs.firstFree s.disk 1).head?, ⟨b, s.disk⟩) := by
  obtain ⟨b, hrun⟩ := findFree_run hs (show 2 ≤ (2 : UInt32).toNat from Nat.le_refl 2)
    (show (2 : UInt32).toNat + (fs.clusterLimit.toNat - 2) ≤ fs.clusterLimit.toNat ∨
      fs.clusterLimit.toNat - 2 = 0 by
        rw [show (2 : UInt32).toNat = 2 from rfl]
        omega) hr
  refine ⟨b, ?_⟩
  rw [hrun, firstFree, List.head?_take, if_neg Nat.one_ne_zero]

theorem free_of_firstFree {x : UInt32} {n : Nat} (h : x ∈ fs.firstFree d n) : fs.Free d x :=
  mem_freeFrom_two.1 (List.mem_of_mem_take h)

/-- It finds one if there is one. -/
theorem exists_firstFree {x : UInt32} (h : fs.Free d x) :
    ∃ c, (fs.firstFree d 1).head? = some c := by
  have hx := mem_freeFrom_two.2 h
  rw [firstFree, List.head?_take, if_neg Nat.one_ne_zero]
  cases hl : fs.freeFrom d 2 (fs.clusterLimit.toNat - 2) with
  | nil =>
    rw [hl] at hx
    cases hx
  | cons c cs => exact ⟨c, rfl⟩

theorem clearBuf_run (h : fs.Sized) (s : FatState) :
    clearBuf fs s = .ok ((), ⟨Sector.zero, s.disk⟩) := by
  unfold clearBuf
  rw [bufWrite_run (by rw [h.toNat])]
  congr 3
  funext k
  rw [h.toNat]
  exact if_pos k.isLt

/-- The sectors of a cluster are cleared. -/
theorem zeroSectors_run (hs : fs.Sound) {c : UInt32} (hc : fs.Place c) (n : Nat) (lba : UInt32)
    (hin : ∀ l ∈ sectorsFrom lba n, l ∈ fs.regionSectors c) (hr : s.disk.Reliable) :
    ∃ t, zeroSectors fs n lba s = .ok ((), t) ∧
      fs.ChangesIn (fun _ => False) (· = c) s.disk t.disk ∧
      (∀ a, (∀ l ∈ fs.regionSectors c, a ≠ fs.baseLba + l) →
        t.disk.sector a = s.disk.sector a) ∧
      (∀ a, s.disk.sector a = Sector.zero → t.disk.sector a = Sector.zero) ∧
      ∀ l ∈ sectorsFrom lba n, t.disk.sector (fs.baseLba + l) = Sector.zero := by
  induction n generalizing lba s with
  | zero => exact ⟨s, rfl, ChangesIn.refl _ _ _ _, fun _ _ => rfl, fun _ => id, nofun⟩
  | succ n ih =>
    have hok : s.disk.wrote (fs.baseLba + lba) = true := hr.writable _ _
    have hw := hs.within_write (d := s.disk) hc (hin lba (by simp [sectorsFrom])) Sector.zero
    obtain ⟨t, hrun, hwt, hother, hkeep, hzero⟩ :=
      ih (lba + 1) (s := ⟨Sector.zero, s.disk.write (fs.baseLba + lba) Sector.zero⟩)
        (fun l hl => hin l (List.mem_cons_of_mem _ hl)) (hw.reliable hr)
    have hself : (s.disk.write (fs.baseLba + lba) Sector.zero).sector (fs.baseLba + lba) =
        Sector.zero := by
      rw [Disk.write_sector, if_pos ⟨rfl, hok⟩]
    refine ⟨t, ?_, hw.trans hwt, fun a ha => ?_, fun a ha => hkeep a ?_, fun l hl => ?_⟩
    · unfold zeroSectors
      rw [bind_of_ok (clearBuf_run hs.sized s), bind_of_ok (fatDevWrite_run fs lba _)]
      exact hrun
    · rw [hother a ha, Disk.write_sector,
        if_neg fun he => ha lba (hin lba (by simp [sectorsFrom])) he.1]
    · rw [Disk.write_sector]
      split
      · rfl
      · exact ha
    · obtain rfl | hl := List.mem_cons.1 hl
      · exact hkeep _ hself
      · exact hzero l hl

/-- `.` and `..` stand at the start of the sector. -/
theorem storeDots_run (hs : fs.Sound) (hr : s.disk.Reliable) {c : UInt32} (hc : fs.Place c)
    (hl : lba ∈ fs.regionSectors c) (parent : UInt32) :
    ∃ t, storeDots fs lba c parent s = .ok (true, t) ∧
      fs.ChangesIn (fun _ => False) (· = c) s.disk t.disk ∧
      t.disk = s.disk.write (fs.baseLba + lba)
        (((s.disk.sector (fs.baseLba + lba)).setDirent 0 (newDirent dotName 0x10 c 0)).setDirent 32
          (newDirent dotdotName 0x10
            (if parent = 0 ∧ fs.fsType = .fat32 then endOfChain else parent) 0)) := by
  have hok : s.disk.wrote (fs.baseLba + lba) = true := hr.writable _ _
  unfold storeDots
  rw [bind_of_ok (fatDevRead_of_readable (hr.readable _))]
  simp only [if_true]
  rw [bind_of_ok (bufWrite_run (by omega) _ _), fatDevWrite_run]
  simp only [hok]
  exact ⟨_, rfl, hs.within_write hc hl _, rfl⟩

theorem clusterLba_mem (hs : fs.Sound) {c : UInt32} (hc : fs.Cluster c) :
    clusterLba fs c ∈ fs.regionSectors c := by
  have hpos : 0 < fs.sectorsPerCluster.toNat := by
    by_contra hz
    exact hs.sized.cluster (UInt32.toNat_inj.1 (by rw [UInt32.toNat_zero]; omega))
  rw [hs.mem_cluster hc, hs.clusterLba_toNat hc]
  omega

end FatFs

end HaoSys.Fs
