import HaoSys.Fs.Layout

/-!
# Taking clusters and filling them

`fat_write_file` takes free clusters from the lowest on and links them, and then
writes its data along the chain. Both only touch entries and sectors of
clusters that were free before: `allocLoop_run` and `writeClusters_run`.
-/

namespace HaoSys.Fs

open HaoSys.Lib Prog

namespace FatFs

/-- A cluster whose entry is 0. -/
def Free (fs : FatFs) (d : Disk) (c : UInt32) : Prop := fs.Cluster c ∧ fs.table d c = 0

/-- The clusters taken so far: in order, linked, and nothing else has changed since `d₀`. -/
structure Taken (fs : FatFs) (d₀ d : Disk) (a : Alloc) (cs : List UInt32) : Prop where
  within : fs.ChangesIn (· ∈ cs) (fun _ => False) d₀ d
  first : a.first = cs.headD 0
  prev : a.prev = cs.getLastD 0
  count : a.count.toNat = cs.length
  free : ∀ x ∈ cs, fs.Free d₀ x
  linked : cs ≠ [] → Follows (fs.table d) a.first cs.dropLast a.prev

variable {fs : FatFs} {d₀ : Disk}

/-- The free clusters among `n` from `c` on. -/
def freeFrom (fs : FatFs) (d : Disk) (c : UInt32) (n : Nat) : List UInt32 :=
  (sectorsFrom c n).filter fun x => fs.table d x = 0

/-- The first `n` free clusters. -/
def firstFree (fs : FatFs) (d : Disk) (n : Nat) : List UInt32 :=
  (fs.freeFrom d 2 (fs.clusterLimit.toNat - 2)).take n

/-- None of the first `n` free clusters has an entry that crosses a sector of the FAT. -/
def InSectors (fs : FatFs) (d : Disk) (n : Nat) : Prop := ∀ c ∈ fs.firstFree d n, ¬ fs.Crosses c

theorem inSectors_of_type {d : Disk} {n : Nat}
    (ht : fs.fsType = .fat16 ∨ fs.fsType = .fat32) : fs.InSectors d n := by
  rintro c - ⟨h12, -⟩
  rw [h12] at ht
  simp at ht

theorem cluster_ne_zero {c : UInt32} (h : fs.Cluster c) : c ≠ 0 := (ne_one_of_two_le h.1).2

theorem Sound.readFatEntry_run (h : fs.Sound) {c : UInt32} (hc : fs.Cluster c) {s : FatState}
    (hr : s.disk.Reliable) :
    ∃ b, readFatEntry fs c s = .ok (fs.table s.disk c, ⟨b, s.disk⟩) := by
  obtain ⟨t, ht, hd⟩ := readFatEntry_reads h.sized hr.readable (h.inFat hc) s rfl
  rw [← table_of_inFat (h.inFat hc)] at ht
  refine ⟨t.buf, ?_⟩
  rw [ht, ← hd]

/-- One more cluster. -/
theorem Taken.take (h : fs.Sound) {s : FatState} {a : Alloc} {cs : List UInt32}
    (ht : fs.Taken d₀ s.disk a cs) (hr : d₀.Reliable) (hx : ∀ x ∈ cs, ¬ fs.Crosses x) {c : UInt32}
    (hc : fs.Free d₀ c) (hnew : c ∉ cs) (hnodup : cs.Nodup) (hlen : cs.length + 1 < 2 ^ 32) :
    ∃ t, linkPrev fs a.prev c s = .ok ((), t) ∧
      fs.Taken d₀ t.disk ⟨if a.first = 0 then c else a.first, c, a.count + 1⟩ (cs ++ [c]) := by
  have hcount : (a.count + 1).toNat = (cs ++ [c]).length := by
    rw [UInt32.toNat_add, ht.count, UInt32.toNat_one, List.length_append, List.length_singleton]
    omega
  have hfree : ∀ x ∈ cs ++ [c], fs.Free d₀ x := by
    intro x hxm
    rcases List.mem_append.1 hxm with hxm | hxm
    · exact ht.free x hxm
    · rw [List.mem_singleton.1 hxm]
      exact hc
  rcases List.eq_nil_or_concat cs with rfl | ⟨pre, p, rfl⟩
  · have hprev : a.prev = 0 := ht.prev
    have hfirst : a.first = 0 := ht.first
    refine ⟨s, ?_, ht.within.mono nofun nofun, ?_, rfl, hcount, hfree, fun _ => ?_⟩
    · unfold linkPrev
      rw [if_neg (by rw [hprev]; decide)]
      rfl
    · rw [hfirst]
      rfl
    · rw [hfirst]
      exact follows_nil.2 rfl
  · have hprev : a.prev = p := by rw [ht.prev]; simp
    have hp := ht.free p (by simp)
    obtain ⟨t, hrun, hw, hval⟩ :=
      h.writeFatEntry_run hp.1 (hx p (by simp)) c (ht.within.reliable hr)
    have hne : a.prev ≠ 0 := by rw [hprev]; exact cluster_ne_zero hp.1
    have hfirst : a.first ≠ 0 := by
      rw [ht.first]
      cases pre with
      | nil => exact cluster_ne_zero hp.1
      | cons y pre => exact cluster_ne_zero (ht.free y (by simp)).1
    refine ⟨t, ?_, ?_, ?_, by simp, hcount, hfree, ?_⟩
    · unfold linkPrev
      rw [if_pos hne, hprev]
      exact hrun
    · refine (ht.within.mono (fun x hxm => List.mem_append_left _ hxm) nofun).trans
        (hw.mono ?_ nofun)
      rintro x rfl
      simp
    · rw [if_neg hfirst, ht.first]
      cases pre <;> rfl
    · -- the entry of the last one is the only one that changed
      intro _
      have hold := ht.linked (by simp)
      rw [List.concat_eq_append, List.dropLast_concat, hprev] at hold
      rw [List.concat_eq_append, List.dropLast_concat, if_neg hfirst]
      refine follows_append.2 ⟨p, hold.congr fun x hxm => hw.table x ?_, rfl, ?_⟩
      · rintro rfl
        rw [List.concat_eq_append, List.nodup_append] at hnodup
        exact hnodup.2.2 x hxm x (by simp) rfl
      · rw [hval, h.kept_cluster hc.1]
        exact follows_nil.2 rfl

/-- **The allocation loop** takes the free clusters it comes to until it has as many as needed. -/
theorem allocLoop_run (h : fs.Sound) (hr : d₀.Reliable) (needed : UInt32) {n : Nat} {c : UInt32}
    (h2 : 2 ≤ c.toNat) (hn : c.toNat + n ≤ fs.clusterLimit.toNat ∨ n = 0) {s : FatState}
    {a : Alloc} {cs : List UInt32}
    (hx : ∀ x ∈ cs ++ (fs.freeFrom d₀ c n).take (needed.toNat - cs.length), ¬ fs.Crosses x)
    (ht : fs.Taken d₀ s.disk a cs) (hnodup : cs.Nodup)
    (hbelow : ∀ x ∈ cs, x.toNat < c.toNat) (hlen : cs.length + n < 2 ^ 32) :
    ∃ t a', allocLoop fs needed n c a s = .ok (a', t) ∧
      fs.Taken d₀ t.disk a'
        (cs ++ (fs.freeFrom d₀ c n).take (needed.toNat - cs.length)) := by
  induction n generalizing c s a cs with
  | zero =>
    refine ⟨s, a, rfl, ?_⟩
    simp only [freeFrom, sectorsFrom, List.filter_nil, List.take_nil, List.append_nil]
    exact ht
  | succ n ih =>
    have hlim := hn.resolve_right (Nat.succ_ne_zero n)
    have hcl : fs.Cluster c := ⟨h2, UInt32.lt_iff_toNat_lt.2 (by omega)⟩
    have hlt := fs.clusterLimit.toNat_lt
    have hadd : (c + 1).toNat = c.toNat + 1 := by
      rw [UInt32.toNat_add, UInt32.toNat_one]
      omega
    have hnot : c ∉ cs := fun hm => Nat.lt_irrefl _ (hbelow c hm)
    have hcount := ht.count
    unfold allocLoop
    by_cases hneed : a.count < needed
    · have hneed' := UInt32.lt_iff_toNat_lt.1 hneed
      obtain ⟨b, hread⟩ := h.readFatEntry_run hcl (ht.within.reliable hr)
      rw [ht.within.table c hnot] at hread
      rw [if_pos hneed, bind_of_ok hread]
      by_cases hz : fs.table d₀ c = 0
      · have hst : fs.Taken d₀ (⟨b, s.disk⟩ : FatState).disk a cs := ht
        have htake : (fs.freeFrom d₀ c (n + 1)).take (needed.toNat - cs.length) =
            c :: (fs.freeFrom d₀ (c + 1) n).take (needed.toNat - (cs.length + 1)) := by
          unfold freeFrom
          rw [sectorsFrom, List.filter_cons_of_pos (by simpa using hz),
            show needed.toNat - cs.length = (needed.toNat - (cs.length + 1)) + 1 by omega,
            List.take_succ_cons]
        rw [htake, List.append_cons] at hx
        obtain ⟨t, hlink, htaken⟩ := hst.take h hr
          (fun x hxm => hx x (List.mem_append_left _ (List.mem_append_left _ hxm)))
          ⟨hcl, hz⟩ hnot hnodup (by omega)
        obtain ⟨t', a', hrun, hfin⟩ := ih (c := c + 1) (by omega) (by omega)
          (by rw [List.length_append, List.length_singleton]; exact hx) htaken
          (List.nodup_append.2 ⟨hnodup, by simp, fun x hxm y hy => by
            rw [List.mem_singleton.1 hy]
            rintro rfl
            exact hnot hxm⟩)
          (fun x hxm => by
            rcases List.mem_append.1 hxm with hxm | hxm
            · have := hbelow x hxm
              omega
            · rw [List.mem_singleton.1 hxm]
              omega)
          (by rw [List.length_append, List.length_singleton]; omega)
        refine ⟨t', a', ?_, ?_⟩
        · rw [if_pos hz, bind_of_ok hlink]
          exact hrun
        · rw [htake, List.append_cons]
          rw [List.length_append, List.length_singleton] at hfin
          exact hfin
      · have hst : fs.Taken d₀ (⟨b, s.disk⟩ : FatState).disk a cs := ht
        have hskip : fs.freeFrom d₀ c (n + 1) = fs.freeFrom d₀ (c + 1) n := by
          unfold freeFrom
          rw [sectorsFrom, List.filter_cons_of_neg (by simpa using hz)]
        rw [hskip] at hx
        obtain ⟨t', a', hrun, hfin⟩ := ih (c := c + 1) (by omega) (by omega) hx hst hnodup
          (fun x hxm => by have := hbelow x hxm; omega) (by omega)
        refine ⟨t', a', ?_, ?_⟩
        · rw [if_neg hz]
          exact hrun
        · rw [hskip]
          exact hfin
    · refine ⟨s, a, ?_, ?_⟩
      · rw [if_neg hneed]
        rfl
      · have hge : needed.toNat - cs.length = 0 := by
          have := UInt32.le_iff_toNat_le.1 (UInt32.not_lt.1 hneed)
          omega
        rw [hge, List.take_zero, List.append_nil]
        exact ht

/-! ## The bytes of clusters -/

/-- The bytes of a list of sectors. -/
def sectorBytes (fs : FatFs) (d : Disk) (ls : List UInt32) : List UInt8 :=
  ls.flatMap fun l => List.ofFn (d.sector (fs.baseLba + l))

/-- The bytes of a list of clusters. -/
def clusterBytes (fs : FatFs) (d : Disk) (cs : List UInt32) : List UInt8 :=
  cs.flatMap fun c => fs.sectorBytes d (fs.regionSectors c)

section Bytes

variable {d d' : Disk} {ls cs : List UInt32}

theorem sectorBytes_cons (fs : FatFs) (d : Disk) (l : UInt32) (ls : List UInt32) :
    fs.sectorBytes d (l :: ls) = List.ofFn (d.sector (fs.baseLba + l)) ++ fs.sectorBytes d ls := rfl

theorem clusterBytes_cons (fs : FatFs) (d : Disk) (c : UInt32) (cs : List UInt32) :
    fs.clusterBytes d (c :: cs) =
      fs.sectorBytes d (fs.regionSectors c) ++ fs.clusterBytes d cs := rfl

theorem sectorBytes_congr
    (h : ∀ l ∈ ls, d'.sector (fs.baseLba + l) = d.sector (fs.baseLba + l)) :
    fs.sectorBytes d' ls = fs.sectorBytes d ls :=
  List.flatMap_congr fun l hl => by rw [h l hl]

theorem clusterBytes_congr (h : ∀ c ∈ cs, ∀ l ∈ fs.regionSectors c,
      d'.sector (fs.baseLba + l) = d.sector (fs.baseLba + l)) :
    fs.clusterBytes d' cs = fs.clusterBytes d cs :=
  List.flatMap_congr fun c hc => sectorBytes_congr (h c hc)

theorem length_sectorBytes (fs : FatFs) (d : Disk) (ls : List UInt32) :
    (fs.sectorBytes d ls).length = 512 * ls.length := by
  induction ls with
  | nil => rfl
  | cons l ls ih =>
    rw [sectorBytes_cons, List.length_append, List.length_ofFn, ih, List.length_cons]
    omega

theorem length_sectorsFrom (lba : UInt32) (n : Nat) : (sectorsFrom lba n).length = n := by
  induction n generalizing lba with
  | zero => rfl
  | succ n ih => rw [sectorsFrom, List.length_cons, ih]

theorem regionSectors_cluster {c : UInt32} (hc : fs.Cluster c) :
    fs.regionSectors c = sectorsFrom (clusterLba fs c) fs.sectorsPerCluster.toNat := by
  unfold regionSectors dirRegion
  rw [if_neg (cluster_ne_zero hc)]

theorem length_cluster {c : UInt32} (hc : fs.Cluster c) :
    (fs.sectorBytes d (fs.regionSectors c)).length = 512 * fs.sectorsPerCluster.toNat := by
  rw [length_sectorBytes, regionSectors_cluster hc, length_sectorsFrom]

end Bytes

/-! ## The data -/

/-- Data laid out in a block of `k` bytes and what comes behind it. -/
theorem take_blocks {block rest data : List UInt8} {k n : Nat} (hk : block.length = k)
    (hblock : block.take data.length = data.take k)
    (hrest : rest.take (data.drop k).length = (data.drop k).take n) :
    (block ++ rest).take data.length = data.take (k + n) := by
  rw [List.take_append, hblock, hk, ← List.length_drop, hrest, List.take_add]

theorem fillBuf_run (h : fs.Sized) (bytes : List UInt8) (hlen : bytes.length ≤ 512)
    (s : FatState) :
    ∃ b, fillBuf fs bytes s = .ok ((), ⟨b, s.disk⟩) ∧
      (List.ofFn b).take bytes.length = bytes := by
  unfold fillBuf clearBuf
  rw [bind_of_ok (bufWrite_run (by rw [h.toNat]) _ _), bufWrite_run (by omega)]
  refine ⟨_, rfl, List.ext_getElem (by rw [List.length_take, List.length_ofFn]; omega)
    fun i h1 h2 => ?_⟩
  rw [List.getElem_take, List.getElem_ofFn, if_pos h2]
  exact List.getD_eq_getElem _ _ h2

/-- The sector loop puts the data into the sectors of a cluster. -/
theorem writeSectors_run (h : fs.Sound) {c : UInt32} (hc : fs.Place c) (n : Nat) (lba : UInt32)
    (hin : ∀ l ∈ sectorsFrom lba n, l ∈ fs.regionSectors c) (hnodup : (sectorsFrom lba n).Nodup)
    (data : List UInt8) {s : FatState} (hr : s.disk.Reliable) :
    ∃ t, writeSectors fs n lba data s = .ok ((true, data.drop (512 * n)), t) ∧
      fs.ChangesIn (fun _ => False) (· = c) s.disk t.disk ∧
      (∀ a, (∀ l ∈ sectorsFrom lba n, a ≠ fs.baseLba + l) → t.disk.sector a = s.disk.sector a) ∧
      (fs.sectorBytes t.disk (sectorsFrom lba n)).take data.length = data.take (512 * n) := by
  induction n generalizing lba data s with
  | zero =>
    refine ⟨s, rfl, ChangesIn.refl _ _ _ _, fun _ _ => rfl, ?_⟩
    rw [Nat.mul_zero, List.take_zero]
    exact List.take_nil
  | succ n ih =>
    unfold writeSectors
    by_cases hnil : data = []
    · rw [if_pos hnil, hnil, List.drop_nil, List.take_nil]
      exact ⟨s, rfl, ChangesIn.refl _ _ _ _, fun _ _ => rfl, List.take_zero⟩
    · obtain ⟨b, hfill, hbytes⟩ := fillBuf_run h.sized (data.take fs.bytesPerSector.toNat)
        (by rw [h.sized.toNat, List.length_take]; omega) s
      have hok : s.disk.wrote (fs.baseLba + lba) = true := hr.writable _ _
      have hw := h.within_write (d := s.disk) hc (hin lba (by simp [sectorsFrom])) b
      obtain ⟨hfirst, hnodup⟩ := List.nodup_cons.1 (show (lba :: sectorsFrom (lba + 1) n).Nodup
        from hnodup)
      obtain ⟨t, hrun, hwt, hframe, hdata⟩ := ih (lba + 1)
        (fun l hl => hin l (List.mem_cons_of_mem _ hl)) hnodup (data.drop 512)
        (s := ⟨b, s.disk.write (fs.baseLba + lba) b⟩) (hw.reliable hr)
      refine ⟨t, ?_, hw.trans hwt, fun a ha => ?_, ?_⟩
      · rw [if_neg hnil, bind_of_ok hfill, bind_of_ok (fatDevWrite_run fs lba _)]
        simp only [hok, if_true, h.sized.toNat]
        rw [hrun, List.drop_drop, show 512 + 512 * n = 512 * (n + 1) by omega]
      · rw [hframe a fun l hl => ha l (List.mem_cons_of_mem _ hl), Disk.write_sector,
          if_neg fun he => ha lba (by simp [sectorsFrom]) he.1]
      · -- the sectors behind it are others
        have hself : t.disk.sector (fs.baseLba + lba) = b := by
          rw [hframe _ fun l hl he => ?_, Disk.write_sector, if_pos ⟨rfl, hok⟩]
          obtain rfl : lba = l := UInt32.add_right_inj _ |>.1 he
          exact hfirst hl
        rw [h.sized.toNat, List.length_take] at hbytes
        rw [sectorsFrom, sectorBytes_cons, hself, show 512 * (n + 1) = 512 + 512 * n by omega]
        refine take_blocks List.length_ofFn ?_ hdata
        rw [← hbytes, List.take_eq_take_iff, List.length_ofFn]
        omega

/-- **The data phase** puts the data into the clusters taken. -/
theorem writeClusters_run (h : fs.Sound) {cs : List UInt32} {c z : UInt32} {data : List UInt8}
    {s : FatState} (hr : s.disk.Reliable) (hcs : ∀ x ∈ cs, fs.Cluster x) (hnodup : cs.Nodup)
    (hf : Follows (fs.table s.disk) c cs z)
    (hlen : data.length ≤ 512 * fs.sectorsPerCluster.toNat * cs.length) {fuel : Nat}
    (hfuel : cs.length < fuel) :
    ∃ t, writeClusters fs fuel c data s = .ok ((true, []), t) ∧
      fs.ChangesIn (fun _ => False) (· ∈ cs) s.disk t.disk ∧
      (fs.clusterBytes t.disk cs).take data.length = data := by
  induction cs generalizing c data s fuel with
  | nil =>
    obtain ⟨fuel, rfl⟩ : ∃ f, fuel = f + 1 := ⟨fuel - 1, by simp at hfuel; omega⟩
    have hnil : data = [] := List.length_eq_zero_iff.1 (by simpa using hlen)
    unfold writeClusters
    rw [hnil, if_neg (by simp)]
    exact ⟨s, rfl, ChangesIn.refl _ _ _ _, rfl⟩
  | cons x cs ih =>
    obtain ⟨rfl, hf⟩ := hf
    obtain ⟨hnew, hnodup⟩ := List.nodup_cons.1 hnodup
    obtain ⟨fuel, rfl⟩ : ∃ f, fuel = f + 1 := ⟨fuel - 1, by simp at hfuel; omega⟩
    have hcl := hcs c List.mem_cons_self
    unfold writeClusters
    by_cases hnil : data = []
    · rw [hnil, if_neg (by simp)]
      exact ⟨s, rfl, ChangesIn.refl _ _ _ _, List.take_zero⟩
    · have hregion := regionSectors_cluster hcl
      obtain ⟨t, hrun, hw, -, hdata⟩ := writeSectors_run h (.inr hcl)
        fs.sectorsPerCluster.toNat (clusterLba fs c) (fun l hl => by rw [hregion]; exact hl)
        (hregion ▸ h.nodup_region (.inr hcl)) data hr
      rw [← hregion] at hdata
      obtain ⟨b, hread⟩ := h.readFatEntry_run hcl (hw.reliable hr)
      rw [hw.table c (by simp)] at hread
      have hlen' : (data.drop (512 * fs.sectorsPerCluster.toNat)).length ≤
          512 * fs.sectorsPerCluster.toNat * cs.length := by
        rw [List.length_drop]
        rw [List.length_cons, Nat.mul_add, Nat.mul_one] at hlen
        omega
      rw [if_pos ⟨hnil, cluster_ne_zero hcl⟩, bind_of_ok hrun]
      simp only [if_true]
      rw [bind_of_ok hread]
      -- the data in this cluster, with the rest behind it
      have hbytes : ∀ {d' : Disk} {rest : List UInt8},
          (∀ l ∈ fs.regionSectors c,
            d'.sector (fs.baseLba + l) = t.disk.sector (fs.baseLba + l)) →
          rest.take (data.drop (512 * fs.sectorsPerCluster.toNat)).length =
            data.drop (512 * fs.sectorsPerCluster.toNat) →
          (fs.sectorBytes d' (fs.regionSectors c) ++ rest).take data.length = data := by
        intro d' rest hsame hrest
        rw [take_blocks (length_cluster hcl) (by rw [sectorBytes_congr hsame, hdata])
          (n := data.length) (by rw [hrest, List.take_of_length_le (by rw [List.length_drop]; omega)]),
          List.take_of_length_le (by omega)]
      by_cases hend : fs.table s.disk c ≥ endOfChain
      · -- the end of the chain comes behind the last cluster only
        have hcs0 : cs = [] := by
          cases cs with
          | nil => rfl
          | cons y cs =>
            have hy := (h.inFat (hcs y (by simp))).1
            rw [hf.1] at hend
            exact absurd hend (UInt32.not_le.2 hy)
        have hdrop : data.drop (512 * fs.sectorsPerCluster.toNat) = [] :=
          List.length_eq_zero_iff.1 (by simpa [hcs0] using hlen')
        refine ⟨⟨b, t.disk⟩, by rw [if_pos hend, hdrop]; rfl, hw.mono (fun _ => id) (by simp), ?_⟩
        rw [clusterBytes_cons]
        exact hbytes (fun _ _ => rfl) (by rw [hdrop]; exact List.take_zero)
      · obtain ⟨t', hrun', hw', hdata'⟩ := ih (s := ⟨b, t.disk⟩) (hw.reliable hr)
          (fun y hy => hcs y (List.mem_cons_of_mem _ hy)) hnodup
          (hf.congr fun y _ => hw.table y (by simp)) hlen' (by simp at hfuel ⊢; omega)
        refine ⟨t', by rw [if_neg hend]; exact hrun',
          (hw.mono (fun _ => id) (by simp)).trans (hw'.mono (fun _ => id) ?_), ?_⟩
        · exact fun y hy => List.mem_cons_of_mem _ hy
        · rw [clusterBytes_cons]
          refine hbytes (fun l hl => hw'.region h (fun y hy => ?_) (.inr hcl) hnew hl) hdata'
          exact hcs y (List.mem_cons_of_mem _ hy)

end FatFs

end HaoSys.Fs
