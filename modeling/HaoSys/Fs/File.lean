import HaoSys.Fs.Alloc
import HaoSys.Fs.Links

/-!
# The contents of files

The bytes of a file are the bytes of its clusters, in the order of its chain.
`fat_load_file` returns the first of them and `fat_load_file_off` a slice, as
long as the chain is long enough for what is asked for.
-/

namespace HaoSys.Fs

open HaoSys.Lib Prog

namespace FatFs

variable {fs : FatFs} {d : Disk}

/-- `n` bytes of a sector from byte `o` on. -/
theorem sector_slice (s : Sector) {o n : Nat} (h : o + n ≤ 512) :
    (List.range n).map (fun k => s.get (o + k)) = ((List.ofFn s).drop o).take n := by
  apply List.ext_getElem
  · simp only [List.length_map, List.length_range, List.length_take, List.length_drop,
      List.length_ofFn]
    omega
  · intro k h1 h2
    have hk : k < n := by simpa using h1
    have hlt : o + k < 512 := by omega
    simp only [List.getElem_map, List.getElem_range, List.getElem_take, List.getElem_drop,
      List.getElem_ofFn, Sector.get, dif_pos hlt]

/-- The first bytes of a sector and what follows it. -/
theorem take_sector {s rest : List UInt8} (hs : s.length = 512) {r copy : Nat}
    (hcopy : copy = min r 512) : (s ++ rest).take r = s.take copy ++ rest.take (r - copy) := by
  rw [List.take_append, hs]
  have h1 : s.take r = s.take copy := by
    rw [List.take_eq_take_iff, hs]
    omega
  have h2 : rest.take (r - 512) = rest.take (r - copy) := by
    obtain h | h := Nat.lt_or_ge r 512
    · rw [show r - 512 = 0 by omega, show r - copy = 0 by omega]
    · rw [show r - 512 = r - copy by omega]
  rw [h1, h2]

theorem toNat_eq_zero {v : UInt32} (h : ¬ v > 0) : v.toNat = 0 := by
  by_contra hne
  refine h (UInt32.lt_iff_toNat_lt.2 ?_)
  rw [UInt32.toNat_zero]
  omega

/-! ## From the start -/

/-- How many bytes of a run of sectors can be copied, and whether the loop gets through: it stops
at a sector that cannot be read, unless it has all it wants before. -/
theorem loadSectors_intact (hb : fs.bytesPerSector = 512) (n : Nat) (lba : UInt32)
    (acc : List UInt8) (remaining : UInt32) :
    ∃ (ok : Bool) (left : UInt32),
      (ok = true ↔ remaining.toNat ≤ 512 * (fs.intact d (sectorsFrom lba n)).length ∨
        (fs.intact d (sectorsFrom lba n)).length = n) ∧
      left.toNat = remaining.toNat - 512 * (fs.intact d (sectorsFrom lba n)).length ∧
      Reads (loadSectors fs n lba acc remaining) d
        (ok, acc ++ (fs.sectorBytes d (fs.intact d (sectorsFrom lba n))).take remaining.toNat,
          left) := by
  have hbn : fs.bytesPerSector.toNat = 512 := by rw [hb]; rfl
  induction n generalizing lba acc remaining with
  | zero =>
    refine ⟨true, remaining, by simp [intact, sectorsFrom], by simp [intact, sectorsFrom], ?_⟩
    simp only [intact, sectorsFrom, List.takeWhile_nil, sectorBytes, List.flatMap_nil, List.take_nil,
      List.append_nil]
    exact .pure _
  | succ n ih =>
    unfold loadSectors
    by_cases hpos : remaining > 0
    · rw [if_pos hpos, sectorsFrom]
      by_cases hr : d.readable (fs.baseLba + lba) = true
      · rw [intact_cons_of_readable hr, sectorBytes_cons, List.length_cons]
        have hcopy : ∃ copy : UInt32,
            (if remaining < fs.bytesPerSector then remaining else fs.bytesPerSector) = copy ∧
              copy.toNat = min remaining.toNat 512 := by
          refine ⟨_, rfl, ?_⟩
          split
          · next hlt =>
            have := UInt32.lt_iff_toNat_lt.1 hlt
            omega
          · next hge =>
            have := UInt32.le_iff_toNat_le.1 (UInt32.not_lt.1 hge)
            omega
        obtain ⟨copy, hcopy, hmin⟩ := hcopy
        have hsub : (remaining - copy).toNat = remaining.toNat - copy.toNat :=
          UInt32.toNat_sub_of_le _ _ (UInt32.le_iff_toNat_le.2 (by omega))
        have hslice :=
          sector_slice (d.sector (fs.baseLba + lba)) (o := 0) (n := copy.toNat) (by omega)
        simp only [Nat.zero_add, List.drop_zero] at hslice
        obtain ⟨ok, left, hok, hleft, hread⟩ := ih (lba + 1)
          (acc ++ (List.ofFn (d.sector (fs.baseLba + lba))).take copy.toNat) (remaining - copy)
        refine ⟨ok, left, by rw [hok]; omega, by omega, ?_⟩
        rw [take_sector List.length_ofFn hmin, ← hsub, ← List.append_assoc]
        refine reads_sector hr ?_
        simp only [if_true, hcopy]
        rw [bind_of_ok (bufRead_run (by omega) _ _), hslice]
        exact hread _ rfl
      · have hlt := UInt32.lt_iff_toNat_lt.1 hpos
        rw [UInt32.toNat_zero] at hlt
        rw [intact_cons_of_not hr]
        refine ⟨false, remaining, by simp; omega, by simp, ?_⟩
        simp only [sectorBytes, List.flatMap_nil, List.take_nil, List.append_nil]
        rintro ⟨b, d⟩ rfl
        rw [bind_of_ok (fatDevRead_of_not hr)]
        exact ⟨_, rfl, rfl⟩
    · have hzero := toNat_eq_zero hpos
      refine ⟨true, remaining, by simp [hzero], by omega, ?_⟩
      rw [if_neg hpos, hzero, List.take_zero, List.append_nil]
      exact .pure _

theorem loadSectors_reads (h : fs.Sized) (hr : ∀ a, d.readable a = true) (n : Nat) (lba : UInt32)
    (acc : List UInt8) (remaining : UInt32) :
    ∃ left : UInt32, left.toNat = remaining.toNat - 512 * n ∧
      Reads (loadSectors fs n lba acc remaining) d
        (true, acc ++ (fs.sectorBytes d (sectorsFrom lba n)).take remaining.toNat, left) := by
  obtain ⟨ok, left, hok, hleft, hread⟩ := loadSectors_intact (d := d) h.sector n lba acc remaining
  rw [intact_eq_self hr, length_sectorsFrom] at hok hleft
  rw [intact_eq_self hr, hok.2 (.inr rfl)] at hread
  exact ⟨left, hleft, hread⟩

theorem readFatEntry_cluster (h : fs.Sound) (hr : ∀ a, d.readable a = true) {c : UInt32}
    (hc : fs.Cluster c) : Reads (readFatEntry fs c) d (fs.table d c) := by
  rw [table_of_inFat (h.inFat hc)]
  exact readFatEntry_reads h.sized hr (h.inFat hc)

theorem lt_endOfChain (h : fs.Sound) {c : UInt32} (hc : fs.Cluster c) : c < endOfChain :=
  (h.inFat hc).1

/-- **`fat_load_file`** along a chain that is long enough. -/
theorem loadClusters_reads (h : fs.Sound) (hr : ∀ a, d.readable a = true) {cs : List UInt32}
    {c z : UInt32} (hcs : ∀ x ∈ cs, fs.Cluster x) (hf : Follows (fs.table d) c cs z)
    {fuel : Nat} (hfuel : cs.length < fuel) (acc : List UInt8) {remaining : UInt32}
    (hlen : remaining.toNat ≤ 512 * fs.sectorsPerCluster.toNat * cs.length) :
    Reads (loadClusters fs fuel c acc remaining) d
      (acc ++ (fs.clusterBytes d cs).take remaining.toNat) := by
  induction cs generalizing c fuel acc remaining with
  | nil =>
    obtain ⟨fuel, rfl⟩ : ∃ f, fuel = f + 1 := ⟨fuel - 1, by simp at hfuel; omega⟩
    have hzero : remaining.toNat = 0 := by simpa using hlen
    have hpos : ¬ remaining > 0 := fun hgt => by
      have := UInt32.lt_iff_toNat_lt.1 hgt
      rw [UInt32.toNat_zero] at this
      omega
    unfold loadClusters
    rw [if_neg (fun hc => hpos hc.1), hzero, List.take_zero, List.append_nil]
    exact .pure _
  | cons x cs ih =>
    obtain ⟨rfl, hf⟩ := hf
    obtain ⟨fuel, rfl⟩ : ∃ f, fuel = f + 1 := ⟨fuel - 1, by simp at hfuel; omega⟩
    have hcl := hcs c List.mem_cons_self
    unfold loadClusters
    by_cases hpos : remaining > 0
    · obtain ⟨left, hleft, hread⟩ := loadSectors_reads h.sized hr fs.sectorsPerCluster.toNat
        (clusterLba fs c) acc remaining
      rw [← regionSectors_cluster hcl] at hread
      have hlen' : left.toNat ≤ 512 * fs.sectorsPerCluster.toNat * cs.length := by
        rw [List.length_cons, Nat.mul_add, Nat.mul_one] at hlen
        omega
      have hbytes : acc ++ (fs.clusterBytes d (c :: cs)).take remaining.toNat =
          acc ++ (fs.sectorBytes d (fs.regionSectors c)).take remaining.toNat ++
            (fs.clusterBytes d cs).take left.toNat := by
        rw [clusterBytes_cons, List.take_append, length_cluster hcl, hleft, List.append_assoc]
      rw [if_pos ⟨hpos, lt_endOfChain h hcl⟩, hbytes]
      refine hread.bind ?_
      simp only [if_true]
      refine (readFatEntry_cluster h hr hcl).bind ?_
      by_cases hend : fs.table d c ≥ endOfChain
      · -- the end of the chain comes behind the last cluster only
        have hcs0 : cs = [] := by
          cases cs with
          | nil => rfl
          | cons y cs =>
            have hy := lt_endOfChain h (hcs y (by simp))
            rw [hf.1] at hend
            exact absurd hend (UInt32.not_le.2 hy)
        rw [if_pos hend, hcs0]
        simp only [clusterBytes, List.flatMap_nil, List.take_nil, List.append_nil]
        exact .pure _
      · rw [if_neg hend]
        exact ih (fun y hy => hcs y (List.mem_cons_of_mem _ hy)) hf (by simp at hfuel; omega) _
          hlen'
    · have hzero := toNat_eq_zero hpos
      rw [if_neg (fun hc => hpos hc.1), hzero, List.take_zero, List.append_nil]
      exact .pure _

/-! ## From an offset -/

/-- A slice that begins in the first sector, or behind it. -/
theorem slice_sector {s rest : List UInt8} (hs : s.length = 512) {o r copy : Nat} (ho : o < 512)
    (hcopy : copy = min r (512 - o)) :
    ((s ++ rest).drop o).take r = (s.drop o).take copy ++ rest.take (r - copy) := by
  rw [List.drop_append_of_le_length (by omega), List.take_append, List.length_drop, hs]
  have h1 : (s.drop o).take r = (s.drop o).take copy := by
    rw [List.take_eq_take_iff, List.length_drop, hs]
    omega
  have h2 : rest.take (r - (512 - o)) = rest.take (r - copy) := by
    obtain h | h := Nat.lt_or_ge r (512 - o)
    · rw [show r - (512 - o) = 0 by omega, show r - copy = 0 by omega]
    · rw [show r - (512 - o) = r - copy by omega]
  rw [h1, h2]

/-- The same with `skip` bytes to drop first, while there is something left to read. -/
theorem loadOffSectors_intact (hb : fs.bytesPerSector = 512) (n : Nat) (lba : UInt32)
    (acc : List UInt8) (remaining skip : UInt32) :
    ∃ (ok : Bool) (left skip' : UInt32),
      (remaining > 0 ∨ skip = 0 →
        (ok = true ↔ skip.toNat + remaining.toNat ≤ 512 * (fs.intact d (sectorsFrom lba n)).length ∨
          (fs.intact d (sectorsFrom lba n)).length = n)) ∧
      left.toNat = remaining.toNat -
        (512 * (fs.intact d (sectorsFrom lba n)).length - skip.toNat) ∧
      (left ≠ 0 → skip'.toNat = skip.toNat - 512 * (fs.intact d (sectorsFrom lba n)).length) ∧
      Reads (loadOffSectors fs n lba acc remaining skip) d
        (ok, acc ++ ((fs.sectorBytes d (fs.intact d (sectorsFrom lba n))).drop skip.toNat).take
          remaining.toNat, left, skip') := by
  have hbn : fs.bytesPerSector.toNat = 512 := by rw [hb]; rfl
  induction n generalizing lba acc remaining skip with
  | zero =>
    refine ⟨true, remaining, skip, by simp [intact, sectorsFrom], by simp [intact, sectorsFrom],
      by simp [intact, sectorsFrom], ?_⟩
    simp only [intact, sectorsFrom, List.takeWhile_nil, sectorBytes, List.flatMap_nil, List.drop_nil,
      List.take_nil, List.append_nil]
    exact .pure _
  | succ n ih =>
    unfold loadOffSectors
    by_cases hpos : remaining > 0
    · rw [if_pos hpos, sectorsFrom]
      by_cases hr : d.readable (fs.baseLba + lba) = true
      · rw [intact_cons_of_readable hr, sectorBytes_cons, List.length_cons]
        by_cases hskip : skip > 0 ∧ skip ≥ fs.bytesPerSector
        · have hge : 512 ≤ skip.toNat := by
            have := UInt32.le_iff_toNat_le.1 hskip.2
            omega
          have hsub : (skip - fs.bytesPerSector).toNat = skip.toNat - 512 := by
            rw [UInt32.toNat_sub_of_le _ _ hskip.2, hbn]
          obtain ⟨ok, left, skip', hok, hleft, hskip', hread⟩ :=
            ih (lba + 1) acc remaining (skip - fs.bytesPerSector)
          refine ⟨ok, left, skip', fun _ => by rw [hok (.inl hpos)]; omega, by omega,
            fun hne => by have := hskip' hne; omega, ?_⟩
          have hdrop : (List.ofFn (d.sector (fs.baseLba + lba)) ++
              fs.sectorBytes d (fs.intact d (sectorsFrom (lba + 1) n))).drop skip.toNat =
              (fs.sectorBytes d (fs.intact d (sectorsFrom (lba + 1) n))).drop
                (skip - fs.bytesPerSector).toNat := by
            rw [List.drop_append, List.drop_eq_nil_of_le (by rw [List.length_ofFn]; exact hge),
              List.length_ofFn, List.nil_append, hsub]
          rw [hdrop]
          refine reads_sector hr ?_
          simp only [if_true]
          rw [if_pos hskip]
          exact hread _ rfl
        · have hlt : skip.toNat < 512 := by
            by_contra hge
            refine hskip ⟨UInt32.lt_iff_toNat_lt.2 ?_, UInt32.le_iff_toNat_le.2 (by omega)⟩
            rw [UInt32.toNat_zero]
            omega
          have havail : (fs.bytesPerSector - skip).toNat = 512 - skip.toNat := by
            rw [UInt32.toNat_sub_of_le _ _ (UInt32.le_iff_toNat_le.2 (by omega)), hbn]
          have hcopy : ∃ copy : UInt32, (if remaining < fs.bytesPerSector - skip then remaining
              else fs.bytesPerSector - skip) = copy ∧
                copy.toNat = min remaining.toNat (512 - skip.toNat) := by
            refine ⟨_, rfl, ?_⟩
            split
            · next hl =>
              have := UInt32.lt_iff_toNat_lt.1 hl
              omega
            · next hge =>
              have := UInt32.le_iff_toNat_le.1 (UInt32.not_lt.1 hge)
              omega
          obtain ⟨copy, hcopy, hmin⟩ := hcopy
          have hsub : (remaining - copy).toNat = remaining.toNat - copy.toNat :=
            UInt32.toNat_sub_of_le _ _ (UInt32.le_iff_toNat_le.2 (by omega))
          have hslice := sector_slice (d.sector (fs.baseLba + lba)) (o := skip.toNat)
            (n := copy.toNat) (by omega)
          obtain ⟨ok, left, skip', hok, hleft, hskip', hread⟩ := ih (lba + 1)
            (acc ++ ((List.ofFn (d.sector (fs.baseLba + lba))).drop skip.toNat).take copy.toNat)
            (remaining - copy) 0
          rw [UInt32.toNat_zero, List.drop_zero] at hread
          rw [UInt32.toNat_zero] at hok hleft hskip'
          refine ⟨ok, left, skip', fun _ => by rw [hok (.inr rfl)]; omega, by omega,
            fun hne => by have := hskip' hne; omega, ?_⟩
          rw [slice_sector List.length_ofFn hlt hmin, ← hsub, ← List.append_assoc]
          refine reads_sector hr ?_
          simp only [if_true, hcopy]
          rw [if_neg hskip, bind_of_ok (bufRead_run (by omega) _ _), hslice]
          exact hread _ rfl
      · have hlt := UInt32.lt_iff_toNat_lt.1 hpos
        rw [UInt32.toNat_zero] at hlt
        rw [intact_cons_of_not hr]
        refine ⟨false, remaining, skip, fun _ => by simp; omega, by simp, by simp, ?_⟩
        simp only [sectorBytes, List.flatMap_nil, List.drop_nil, List.take_nil, List.append_nil]
        rintro ⟨b, d⟩ rfl
        rw [bind_of_ok (fatDevRead_of_not hr)]
        exact ⟨_, rfl, rfl⟩
    · have hzero := toNat_eq_zero hpos
      refine ⟨true, remaining, skip, fun hor => ?_, by omega, fun hne => ?_, ?_⟩
      · rw [hor.resolve_left hpos, hzero]
        simp
      · exact absurd (UInt32.toNat_inj.1 (by rw [hzero, UInt32.toNat_zero])) hne
      · rw [if_neg hpos, hzero, List.take_zero, List.append_nil]
        exact .pure _

theorem loadOffSectors_reads (h : fs.Sized) (hr : ∀ a, d.readable a = true) (n : Nat)
    (lba : UInt32) (acc : List UInt8) {remaining : UInt32} (skip : UInt32)
    (hpos : remaining > 0) :
    ∃ left skip' : UInt32, left.toNat = remaining.toNat - (512 * n - skip.toNat) ∧
      (left ≠ 0 → skip'.toNat = skip.toNat - 512 * n) ∧
      Reads (loadOffSectors fs n lba acc remaining skip) d
        (true, acc ++ ((fs.sectorBytes d (sectorsFrom lba n)).drop skip.toNat).take remaining.toNat,
          left, skip') := by
  obtain ⟨ok, left, skip', hok, hleft, hskip', hread⟩ :=
    loadOffSectors_intact (d := d) h.sector n lba acc remaining skip
  have hok := hok (.inl hpos)
  rw [intact_eq_self hr, length_sectorsFrom] at hok hleft hskip'
  rw [intact_eq_self hr, hok.2 (.inr rfl)] at hread
  exact ⟨left, skip', hleft, hskip', hread⟩

/-- **`fat_load_file_off`** along a chain that is long enough. -/
theorem loadOffClusters_reads (h : fs.Sound) (hr : ∀ a, d.readable a = true) {cs : List UInt32}
    {c z : UInt32} (hcs : ∀ x ∈ cs, fs.Cluster x) (hf : Follows (fs.table d) c cs z)
    {fuel : Nat} (hfuel : cs.length < fuel) (acc : List UInt8) {remaining skip : UInt32}
    (hlen : skip.toNat + remaining.toNat ≤ 512 * fs.sectorsPerCluster.toNat * cs.length) :
    Reads (loadOffClusters fs fuel c acc remaining skip) d
      (acc ++ ((fs.clusterBytes d cs).drop skip.toNat).take remaining.toNat) := by
  induction cs generalizing c fuel acc remaining skip with
  | nil =>
    obtain ⟨fuel, rfl⟩ : ∃ f, fuel = f + 1 := ⟨fuel - 1, by simp at hfuel; omega⟩
    have hzero : remaining.toNat = 0 := by
      simp only [List.length_nil, Nat.mul_zero] at hlen
      omega
    have hpos : ¬ remaining > 0 := fun hgt => by
      have := UInt32.lt_iff_toNat_lt.1 hgt
      rw [UInt32.toNat_zero] at this
      omega
    unfold loadOffClusters
    rw [if_neg (fun hc => hpos hc.1), hzero, List.take_zero, List.append_nil]
    exact .pure _
  | cons x cs ih =>
    obtain ⟨rfl, hf⟩ := hf
    obtain ⟨fuel, rfl⟩ : ∃ f, fuel = f + 1 := ⟨fuel - 1, by simp at hfuel; omega⟩
    have hcl := hcs c List.mem_cons_self
    unfold loadOffClusters
    by_cases hpos : remaining > 0
    · obtain ⟨left, skip', hleft, hskip', hread⟩ := loadOffSectors_reads h.sized hr
        fs.sectorsPerCluster.toNat (clusterLba fs c) acc skip hpos
      rw [← regionSectors_cluster hcl] at hread
      rw [List.length_cons, Nat.mul_add, Nat.mul_one] at hlen
      have hbytes : acc ++ ((fs.clusterBytes d (c :: cs)).drop skip.toNat).take remaining.toNat =
          acc ++ ((fs.sectorBytes d (fs.regionSectors c)).drop skip.toNat).take remaining.toNat ++
            ((fs.clusterBytes d cs).drop skip'.toNat).take left.toNat := by
        rw [clusterBytes_cons, List.drop_append, List.take_append, length_cluster hcl,
          List.length_drop, length_cluster hcl, ← hleft, List.append_assoc]
        by_cases hl : left = 0
        · rw [hl, UInt32.toNat_zero, List.take_zero, List.take_zero]
        · rw [hskip' hl]
      rw [if_pos ⟨hpos, lt_endOfChain h hcl⟩, hbytes]
      refine hread.bind ?_
      simp only [if_true]
      refine (readFatEntry_cluster h hr hcl).bind ?_
      by_cases hend : fs.table d c ≥ endOfChain
      · have hcs0 : cs = [] := by
          cases cs with
          | nil => rfl
          | cons y cs =>
            have hy := lt_endOfChain h (hcs y (by simp))
            rw [hf.1] at hend
            exact absurd hend (UInt32.not_le.2 hy)
        rw [if_pos hend, hcs0]
        simp only [clusterBytes, List.flatMap_nil, List.drop_nil, List.take_nil, List.append_nil]
        exact .pure _
      · rw [if_neg hend]
        by_cases hl : left = 0
        · -- nothing is left to read, wherever the walk stands
          obtain ⟨fuel, rfl⟩ : ∃ f, fuel = f + 1 := ⟨fuel - 1, by simp at hfuel; omega⟩
          unfold loadOffClusters
          rw [if_neg (fun hc => absurd hc.1 (by rw [hl]; decide)), hl, UInt32.toNat_zero,
            List.take_zero, List.append_nil]
          exact .pure _
        · refine ih (fun y hy => hcs y (List.mem_cons_of_mem _ hy)) hf
            (by simp at hfuel; omega) _ ?_
          have := hskip' hl
          have hlpos : left.toNat ≠ 0 := fun h0 =>
            hl (UInt32.toNat_inj.1 (by rw [h0, UInt32.toNat_zero]))
          omega
    · have hzero := toNat_eq_zero hpos
      rw [if_neg (fun hc => hpos hc.1), hzero, List.take_zero, List.append_nil]
      exact .pure _

/-! ## Files -/

/-- The file of an entry: its chain `cs` has the clusters its size needs. -/
structure FileAt (fs : FatFs) (d : Disk) (fuel : Nat) (e : Dirent) (cs : List UInt32) : Prop where
  chain : ∃ z, Follows (fs.table d) e.firstCluster cs z
  clusters : ∀ c ∈ cs, fs.Cluster c
  size : e.fileSize.toNat ≤ 512 * fs.sectorsPerCluster.toNat * cs.length
  fuel : cs.length < fuel

/-- The contents of a file. -/
def contents (fs : FatFs) (d : Disk) (e : Dirent) (cs : List UInt32) : List UInt8 :=
  (fs.clusterBytes d cs).take e.fileSize.toNat

variable {fuel : Nat} {e : Dirent} {cs : List UInt32}

/-- Without clusters there are no contents. -/
theorem FileAt.contents_nil (h : fs.FileAt d fuel e cs) (hlt : e.firstCluster < 2) :
    fs.contents d e cs = [] := by
  have hnil : cs = [] := by
    cases cs with
    | nil => rfl
    | cons c cs =>
      obtain ⟨z, hz⟩ := h.chain
      have hc := (h.clusters c List.mem_cons_self).1
      rw [← hz.1] at hc
      have := UInt32.lt_iff_toNat_lt.1 hlt
      rw [show (2 : UInt32).toNat = 2 from rfl] at this
      omega
  rw [contents, hnil]
  simp [clusterBytes]

theorem FileAt.load (h : fs.FileAt d fuel e cs) (hs : fs.Sound) (hr : ∀ a, d.readable a = true)
    (m : UInt32) : Reads (fatLoadFile fuel fs e m) d ((fs.contents d e cs).take m.toNat) := by
  unfold fatLoadFile
  by_cases hm : m = 0
  · rw [if_pos (.inr hm), hm, UInt32.toNat_zero, List.take_zero]
    exact .pure _
  · rw [if_neg (by simp [hs.initialized, hm])]
    simp only
    by_cases hlt : e.firstCluster < 2
    · rw [if_pos hlt, h.contents_nil hlt, List.take_nil]
      exact .pure _
    · obtain ⟨z, hz⟩ := h.chain
      have hsize := h.size
      have hmin : (if e.fileSize > m then m else e.fileSize).toNat =
          min m.toNat e.fileSize.toNat := by
        split
        · next hgt =>
          have := UInt32.lt_iff_toNat_lt.1 hgt
          omega
        · next hle =>
          have := UInt32.le_iff_toNat_le.1 (UInt32.not_lt.1 hle)
          omega
      have hread := loadClusters_reads hs hr h.clusters hz h.fuel []
        (show (if e.fileSize > m then m else e.fileSize).toNat ≤ _ by rw [hmin]; omega)
      rw [hmin, List.nil_append, ← List.take_take] at hread
      rw [if_neg hlt]
      exact hread

theorem FileAt.loadOff (h : fs.FileAt d fuel e cs) (hs : fs.Sound)
    (hr : ∀ a, d.readable a = true) (o m : UInt32) :
    Reads (fatLoadFileOff fuel fs e o m) d (((fs.contents d e cs).drop o.toNat).take m.toNat) := by
  unfold fatLoadFileOff
  by_cases hm : m = 0
  · rw [if_pos (.inr (.inl hm)), hm, UInt32.toNat_zero, List.take_zero]
    exact .pure _
  by_cases ho : o ≥ e.fileSize
  · have hnil : (fs.contents d e cs).drop o.toNat = [] := by
      refine List.drop_eq_nil_of_le ?_
      rw [contents, List.length_take]
      have := UInt32.le_iff_toNat_le.1 ho
      omega
    rw [if_pos (.inr (.inr ho)), hnil, List.take_nil]
    exact .pure _
  · have holt := UInt32.lt_iff_toNat_lt.1 (UInt32.not_le.1 ho)
    rw [if_neg (by simp only [hs.initialized, hm, ho]; simp)]
    simp only
    by_cases hlt : e.firstCluster < 2
    · rw [if_pos hlt, h.contents_nil hlt, List.drop_nil, List.take_nil]
      exact .pure _
    · obtain ⟨z, hz⟩ := h.chain
      have hsize := h.size
      have hsub : (e.fileSize - o).toNat = e.fileSize.toNat - o.toNat :=
        UInt32.toNat_sub_of_le _ _ (UInt32.le_iff_toNat_le.2 (by omega))
      have hmin : (if e.fileSize - o < m then e.fileSize - o else m).toNat =
          min m.toNat (e.fileSize.toNat - o.toNat) := by
        split
        · next hl =>
          have := UInt32.lt_iff_toNat_lt.1 hl
          omega
        · next hge =>
          have := UInt32.le_iff_toNat_le.1 (UInt32.not_lt.1 hge)
          omega
      have hread := loadOffClusters_reads hs hr h.clusters hz h.fuel []
        (show o.toNat + (if e.fileSize - o < m then e.fileSize - o else m).toNat ≤ _ by
          rw [hmin]
          omega)
      rw [hmin, List.nil_append, ← List.take_take, ← List.drop_take] at hread
      rw [if_neg hlt]
      exact hread

end FatFs

end HaoSys.Fs
