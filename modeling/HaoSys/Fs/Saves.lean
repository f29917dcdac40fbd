import HaoSys.Fs.Rewrite

/-!
# A save that comes back

On a FAT16 volume with FATs for every number `fat_write_file` returns, and what
it returns says what it has done. With too few free clusters it gives back the
ones it took and has changed nothing that was in use. Otherwise the data lies in
a new chain that is closed, the new entry stands in its slot, and the clusters
of the file it writes over are given up (`Saves`).
-/

namespace HaoSys.Fs

open HaoSys.Lib Prog DirSlot

/-- What a walk visits leads to what it visits, or to its end. -/
theorem follows_next {α : Type} {next : α → α} {z : α} :
    ∀ {xs : List α} {a : α}, Follows next a xs z → ∀ x ∈ xs, next x ∈ xs ∨ next x = z := by
  intro xs
  induction xs with
  | nil => nofun
  | cons y ys ih =>
    rintro a ⟨rfl, hf⟩ x hx
    obtain rfl | hx := List.mem_cons.1 hx
    · cases ys with
      | nil => exact .inr hf
      | cons w ws => exact .inl (by rw [hf.1]; simp)
    · exact (ih hf x hx).imp_left fun h => List.mem_cons_of_mem _ h

namespace FatFs

variable {fs : FatFs} {d d' : Disk} {fuel : Nat} {fc cs : List UInt32} {first lba offset : UInt32}
  {name : Name83} {data sub : List UInt8} {s : FatState} {a : Alloc}

/-! ## The clusters taken -/

/-- The entry of the last cluster that was taken is still 0. -/
theorem Sound.allocLoop_last (hs : fs.Sound) (h16 : fs.fsType = .fat16) (needed : UInt32) {n : Nat}
    {c : UInt32} {a a' : Alloc} {s t : FatState} (hr : s.disk.Reliable) (h2 : 2 ≤ c.toNat)
    (hn : c.toNat + n ≤ fs.clusterLimit.toNat ∨ n = 0)
    (hprev : a.prev = 0 ∨
      fs.Cluster a.prev ∧ fs.table s.disk a.prev = 0 ∧ a.prev.toNat < c.toNat)
    (hrun : allocLoop fs needed n c a s = .ok (a', t)) :
    a'.prev = 0 ∨ fs.table t.disk a'.prev = 0 := by
  induction n generalizing c a s with
  | zero =>
    cases hrun
    exact hprev.imp_right fun h => h.2.1
  | succ n ih =>
    have hlim := hn.resolve_right (Nat.succ_ne_zero n)
    have hcl : fs.Cluster c := ⟨h2, UInt32.lt_iff_toNat_lt.2 (by omega)⟩
    have hlt := fs.clusterLimit.toNat_lt
    have hadd : (c + 1).toNat = c.toNat + 1 := by
      rw [UInt32.toNat_add, UInt32.toNat_one]
      omega
    unfold allocLoop at hrun
    by_cases hneed : a.count < needed
    · obtain ⟨b, hread⟩ := hs.readFatEntry_run hcl hr
      rw [if_pos hneed, bind_of_ok hread] at hrun
      by_cases hz : fs.table s.disk c = 0
      · rw [if_pos hz] at hrun
        unfold linkPrev at hrun
        by_cases hp : a.prev = 0
        · rw [if_neg (by simp [hp])] at hrun
          exact ih (s := ⟨b, s.disk⟩) hr (by omega) (by omega)
            (.inr ⟨hcl, hz, show c.toNat < (c + 1).toNat by omega⟩) hrun
        · obtain ⟨hpc, -, hpl⟩ := hprev.resolve_left hp
          obtain ⟨t1, hlink, hw, -⟩ :=
            hs.writeFatEntry_run (s := ⟨b, s.disk⟩) hpc (not_crosses (.inl h16)) c hr
          have hne : c ≠ a.prev := fun he => by
            rw [← he] at hpl
            omega
          have hz1 : fs.table t1.disk c = 0 := (hw.table c hne).trans hz
          rw [if_pos hp, bind_of_ok hlink] at hrun
          exact ih (hw.reliable hr) (by omega) (by omega)
            (.inr ⟨hcl, hz1, show c.toNat < (c + 1).toNat by omega⟩) hrun
      · rw [if_neg hz] at hrun
        exact ih (s := ⟨b, s.disk⟩) hr (by omega) (by omega)
          (hprev.imp_right fun h => ⟨h.1, h.2.1, by omega⟩) hrun
    · rw [if_neg hneed] at hrun
      cases hrun
      exact hprev.imp_right fun h => h.2.1

/-- The clusters taken so far are a chain up to 0. -/
theorem Taken.follows (h : fs.Taken d s.disk a cs)
    (hlast : a.prev = 0 ∨ fs.table s.disk a.prev = 0) : Follows (fs.table s.disk) a.first cs 0 := by
  obtain rfl | ⟨pre, p, rfl⟩ := List.eq_nil_or_concat cs
  · exact h.first
  · have hp : a.prev = p := by rw [h.prev]; simp
    have hne : p ≠ 0 := cluster_ne_zero (h.free p (by simp)).1
    have hlinked := h.linked (by simp)
    rw [List.concat_eq_append, List.dropLast_concat, hp] at hlinked
    rw [List.concat_eq_append]
    rw [hp] at hlast
    exact follows_append.2 ⟨p, hlinked, rfl, hlast.resolve_left hne⟩

/-- The mark that the driver ends a chain with is what the entry shows then. -/
theorem FullFats.kept_mark (hv : fs.FullFats d) : fs.kept chainMark = 0xFFF8 := by
  unfold kept
  rw [hv.fat16]
  rfl

theorem FullFats.clusterLimit_le (hv : fs.FullFats d) : fs.clusterLimit.toNat ≤ 0xFFF7 := by
  have hlimit := hv.sound.limit
  rwa [hv.fat16] at hlimit

/-- The chain that is closed ends with the mark, or is empty. -/
theorem Taken.close (h : fs.Taken d s.disk a cs) (hv : fs.FullFats d) (hnodup : cs.Nodup) :
    ∃ t z, linkPrev fs a.prev chainMark s = .ok ((), t) ∧
      fs.ChangesIn (· ∈ cs) (fun _ => False) d t.disk ∧ fs.FileChain t.disk a.first cs z := by
  have hx : ∀ x ∈ cs, ¬ fs.Crosses x := fun _ _ => not_crosses (.inl hv.fat16)
  obtain ⟨t, z, hrun, hw, hf⟩ := h.seal hv.sound hv.reliable hx hnodup
  have hends : ¬ fs.Cluster z ∧ z.toNat < 65536 ∧ (cs ≠ [] → z ≠ 0) := by
    obtain rfl | ⟨pre, p, rfl⟩ := List.eq_nil_or_concat cs
    · obtain rfl : a.first = z := hf
      rw [h.first]
      exact ⟨fun hc => absurd hc.1 (by decide), by decide, fun hne => absurd rfl hne⟩
    · -- the last link is the mark
      have hp : a.prev = p := by rw [h.prev]; simp
      have hfree := h.free p (by simp)
      obtain ⟨t', hwrite, -, hval⟩ := hv.sound.writeFatEntry_run hfree.1 (hx p (by simp)) chainMark
        (h.within.reliable hv.reliable)
      have hrun' : linkPrev fs a.prev chainMark s = .ok ((), t') := by
        unfold linkPrev
        rw [if_pos (by rw [hp]; exact cluster_ne_zero hfree.1), hp]
        exact hwrite
      cases hrun.symm.trans hrun'
      rw [List.concat_eq_append] at hf
      obtain ⟨b, -, rfl, hz⟩ := follows_append.1 hf
      obtain rfl : fs.table t.disk b = z := hz
      rw [hval, hv.kept_mark]
      refine ⟨fun hc => ?_, by decide, fun _ => by decide⟩
      have := UInt32.lt_iff_toNat_lt.1 hc.2
      have := hv.clusterLimit_le
      rw [show (0xFFF8 : UInt32).toNat = 0xFFF8 from rfl] at *
      omega
  refine ⟨t, z, hrun, hw, hf, fun c hc => (h.free c hc).1, fun c hc => ?_, hends.1, hends.2.1⟩
  obtain hmem | hz := follows_next hf c hc
  · exact cluster_ne_zero (h.free _ hmem).1
  · rw [hz]
    exact hends.2.2 (List.ne_nil_of_mem hc)

/-- The allocation takes as many clusters as are needed and closes them to a chain, or every free
one, which are a chain up to 0. -/
theorem FullFats.alloc_close (hv : fs.FullFats s.disk) {needed : UInt32} {n : Nat}
    (hneeded : needed.toNat = fs.clustersFor n) :
    ∃ t a cs, allocLoop fs needed (fs.clusterLimit.toNat - 2) 2 ⟨0, 0, 0⟩ s = .ok (a, t) ∧
      (∀ c ∈ cs, fs.Free s.disk c) ∧ cs.Nodup ∧
      (a.count < needed ∧ fs.freeCount s.disk < fs.clustersFor n ∧
          fs.ChangesIn (· ∈ cs) (fun _ => False) s.disk t.disk ∧
          Follows (fs.table t.disk) a.first cs 0 ∨
        ¬ a.count < needed ∧ fs.clustersFor n ≤ fs.freeCount s.disk ∧
          cs.length = fs.clustersFor n ∧ ∃ u z, linkPrev fs a.prev chainMark t = .ok ((), u) ∧
            fs.ChangesIn (· ∈ cs) (fun _ => False) s.disk u.disk ∧
            fs.FileChain u.disk a.first cs z) := by
  have hlt := fs.clusterLimit.toNat_lt
  obtain ⟨t, a, cs, hrun, htaken, hnodup, -, hcs⟩ :=
    alloc_run hv.sound hv.reliable needed (inSectors_of_type (.inl hv.fat16))
  have hcount : a.count.toNat = min (fs.clustersFor n) (fs.freeCount s.disk) := by
    rw [htaken.count, hcs, firstFree, List.length_take, hneeded]
    rfl
  refine ⟨t, a, cs, hrun, htaken.free, hnodup, ?_⟩
  rw [UInt32.lt_iff_toNat_lt]
  by_cases hfew : fs.freeCount s.disk < fs.clustersFor n
  · refine .inl ⟨by omega, hfew, htaken.within, htaken.follows ?_⟩
    exact hv.sound.allocLoop_last hv.fat16 needed hv.reliable
      (show 2 ≤ (2 : UInt32).toNat from Nat.le_refl 2)
      (show (2 : UInt32).toNat + (fs.clusterLimit.toNat - 2) ≤ fs.clusterLimit.toNat ∨
        fs.clusterLimit.toNat - 2 = 0 by
          rw [show (2 : UInt32).toNat = 2 from rfl]
          omega) (.inl rfl) hrun
  · obtain ⟨u, z, hseal, hw, hchain⟩ := htaken.close hv hnodup
    refine .inr ⟨by omega, Nat.not_lt.1 hfew, ?_, u, z, hseal, hw, hchain⟩
    rw [← htaken.count]
    omega

/-! ## The call -/

/-- From `d` to `d'` the data was put into a chain `cs` of clusters that were free, and its entry into
a slot; besides these only the chain `fc` may have changed. -/
structure Saves (fs : FatFs) (d d' : Disk) (fc : List UInt32) (lba offset : UInt32)
    (name : Name83) (data : List UInt8) (first : UInt32) (cs : List UInt32) : Prop where
  fills : fs.Fills (fs.Loose d fc) (fs.Free d) lba offset
    (newDirent name 0x20 first (UInt32.ofNat data.length)) d d'
  free : ∀ c ∈ cs, fs.Free d c
  chain : ∃ z, fs.FileChain d' first cs z
  length : cs.length = fs.clustersFor data.length
  bytes : (fs.clusterBytes d' cs).take data.length = data

/-- The slot is free, or a regular file with the chain `fc` stands in it. -/
def Open (fs : FatFs) (d : Disk) (slot : Slot) (lba offset : UInt32) (fc : List UInt32) : Prop :=
  slot = .free lba offset ∧ fc = [] ∨
    slot = .sameName lba offset ∧ (fs.entryAt d lba offset).isDir = false ∧
      ∃ z, fs.FileChain d (fs.entryAt d lba offset).firstCluster fc z

theorem Open.writeTarget {slot : Slot} {r : Resolved} (h : fs.Open s.disk slot lba offset fc)
    (hr : s.disk.Reliable) (hslot : Reads (dirFindSlot fuel fs r.parent r.name83) s.disk slot)
    (hoff : offset.toNat + 32 ≤ 512) :
    ∃ b old, writeTarget fuel fs r s = .ok (some ⟨lba, offset, old⟩, ⟨b, s.disk⟩) ∧
      fs.OldChain s.disk old fc := by
  obtain ⟨⟨b1, d1⟩, h1, hd1⟩ := hslot s rfl
  obtain rfl : d1 = s.disk := hd1
  unfold Fs.writeTarget
  rw [bind_of_ok h1]
  obtain ⟨rfl, rfl⟩ | ⟨rfl, hfile, z, hchain⟩ := h
  · exact ⟨b1, none, rfl, .inl ⟨rfl, rfl⟩⟩
  · simp only
    rw [bind_of_ok (fatDevRead_of_readable (s := ⟨b1, s.disk⟩) (hr.readable _))]
    simp only [if_true]
    rw [bind_of_ok (bufRead_run hoff _ _)]
    have hne : ¬ (fs.entryAt s.disk lba offset).isDir = true := by simp [hfile]
    refine ⟨s.disk.sector (fs.baseLba + lba), some (fs.entryAt s.disk lba offset).firstCluster, ?_,
      .inr ⟨_, z, rfl, hchain⟩⟩
    exact congrFun (if_neg hne) _

/-- **`fat_write_file`** where the search for the name ends at an open slot. -/
theorem FullFats.fatWriteFileImpl_run (hv : fs.FullFats d) {r : Resolved} {slot : Slot}
    (hres : Reads (fatResolveParent fuel fs (some sub)) d r) (hparent : r.parent ≠ 0xFFFFFFFF)
    (hslot : Reads (dirFindSlot fuel fs r.parent r.name83) d slot)
    (hopen : fs.Open d slot lba offset fc) {c : UInt32} (hc : fs.Place c ∧ ¬ fs.Free d c)
    (hl : lba ∈ fs.regionSectors c)
    (hoff : ∃ j, j < 16 ∧ offset = UInt32.ofNat (32 * j)) (hlen : data.length ≤ 65536)
    (b : Sector) :
    ∃ ok n u, fatWriteFileImpl fuel fs (some sub) data ⟨b, d⟩ = .ok ((ok, n), u) ∧
      (ok = true ↔ fs.clustersFor data.length ≤ fs.freeCount d) ∧
      (ok = false → fs.Grows d u.disk) ∧
      (ok = true → ∃ first cs, fs.Saves d u.disk fc lba offset r.name83 data first cs) := by
  have hs := hv.sound
  have hr := hv.reliable
  have hoff32 : offset.toNat + 32 ≤ 512 := by
    obtain ⟨j, hj, rfl⟩ := hoff
    rw [ofNat_slot hj]
    omega
  obtain ⟨⟨b1, d1⟩, h1, hd1⟩ := hres ⟨b, d⟩ rfl
  obtain rfl : d1 = d := hd1
  obtain ⟨b2, old, h2, hold⟩ := hopen.writeTarget (s := ⟨b1, d1⟩) hr hslot hoff32
  have hold : fs.OldChain d1 old fc := hold
  obtain ⟨needed, hneeded, hcount⟩ := needed_spec hs.sized hlen
  obtain ⟨hfit, hle⟩ := clustersFor_spec hs.sized data.length
  have hv2 : fs.FullFats (⟨b2, d1⟩ : FatState).disk := hv
  obtain ⟨t3, a, cs, h3, hfree, hnodup, hcase⟩ := hv2.alloc_close hcount
  have hfree : ∀ x ∈ cs, fs.Free d1 x := hfree
  have hclusters : ∀ x ∈ cs, fs.Cluster x := fun x hx => (hfree x hx).1
  unfold fatWriteFileImpl
  rw [if_neg (by simp [hs.initialized]), bind_of_ok h1, if_neg hparent,
    bind_of_ok (maxCluster_eq hs.sized.cluster _), bind_of_ok h2]
  simp only [hneeded, pure_bind]
  rw [bind_of_ok h3]
  obtain ⟨hfew, hless, hw3, hf3⟩ | ⟨henough, hmore, hcslen, t4, z, h4, hw4, hchain⟩ := hcase
  · -- the clusters taken are given back
    have hgrow3 : fs.Grows d1 t3.disk := hw3.mono hfree nofun
    have hv3 : fs.FullFats t3.disk := hv.changesIn hgrow3 fun x hx => hx.1
    obtain ⟨t4, h4, hw4⟩ := hv3.freeChainLoop_run hf3 hclusters hnodup
      (fun h => absurd h.1 (by decide)) (by decide) 65536
    rw [if_pos hfew]
    unfold fatFreeChain
    rw [bind_of_ok h4]
    refine ⟨false, 0, t4, rfl, iff_of_false Bool.false_ne_true (Nat.not_le.2 hless), fun _ => ?_,
      nofun⟩
    exact hgrow3.trans (hw4.mono hfree nofun)
  · have hgrow4 : fs.Grows d1 t4.disk := hw4.mono hfree nofun
    obtain ⟨t5, h5, hw5⟩ := hv.freeChainFrom_run hold hgrow4
    -- the new chain is not the old one
    have hkept5 : ∀ x ∈ cs, fs.table t5.disk x = fs.table t4.disk x := fun x hx =>
      hw5.table x fun hfc => (hold.used x hfc).2 (hfree x hx)
    have hloose5 : fs.ChangesIn (fs.Loose d1 fc) (fs.Free d1) d1 t5.disk :=
      (hgrow4.mono (fun _ => .inl) fun _ => id).trans (hw5.mono (fun _ => .inr) nofun)
    obtain ⟨t6, h6, hw6, hbytes⟩ := writeClusters_run hs (hloose5.reliable hr) hclusters hnodup
      (hchain.follows.congr hkept5) (by rw [hcslen]; exact hfit)
      (show cs.length < data.length + 1 by omega)
    have hloose6 : fs.ChangesIn (fs.Loose d1 fc) (fs.Free d1) d1 t6.disk :=
      hloose5.trans (hw6.mono nofun hfree)
    obtain ⟨b7, h7⟩ := storeDirent_run fs lba
      (newDirent r.name83 0x20 a.first (UInt32.ofNat data.length)) (hloose6.reliable hr) hoff
    have hw7 := hs.within_write (d := t6.disk) hc.1 hl
      ((t6.disk.sector (fs.baseLba + lba)).setDirent offset.toNat
        (newDirent r.name83 0x20 a.first (UInt32.ofNat data.length)))
    rw [if_neg henough, bind_of_ok h4, bind_of_ok h5, bind_of_ok h6]
    simp only [if_true]
    rw [bind_of_ok h7]
    refine ⟨true, _, _, rfl, iff_of_true rfl hmore, nofun, fun _ => ⟨a.first, cs,
      hloose6.fills hs hr hc.1 hl, hfree, ⟨z, ?_⟩, hcslen, ?_⟩⟩
    · have hkept : ∀ x ∈ cs, fs.table (t6.disk.write (fs.baseLba + lba)
          ((t6.disk.sector (fs.baseLba + lba)).setDirent offset.toNat
            (newDirent r.name83 0x20 a.first (UInt32.ofNat data.length)))) x =
          fs.table t4.disk x := fun x hx =>
        (hw7.table x (by simp)).trans ((hw6.table x (by simp)).trans (hkept5 x hx))
      refine ⟨hchain.follows.congr hkept, hclusters, fun x hx => ?_, hchain.ends, hchain.number⟩
      rw [hkept x hx]
      exact hchain.used x hx
    · -- the slot is in another sector than the data
      rw [clusterBytes_congr fun x hx l' hl' => ?_, hbytes]
      refine hs.write_region hc.1 hl (.inr (hclusters x hx)) ?_ hl' _
      rintro rfl
      exact hc.2 (hfree x hx)

end FatFs

end HaoSys.Fs
