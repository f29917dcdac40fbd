import HaoSys.Fs.File

/-!
# Reading from an offset

Both loops that read a file go along the same clusters and end at the same
places, the end of the chain or a sector that cannot be read. `stream` is what
lies on this way, on any device and for any FAT; `fat_load_file` copies a
prefix of it and `fat_load_file_off` a slice.
-/

namespace HaoSys.Fs

open HaoSys.Lib Prog

namespace FatFs

/-- The bytes of the readable sectors in front of a cluster's first unreadable one. -/
def clusterStream (fs : FatFs) (d : Disk) (c : UInt32) : List UInt8 :=
  fs.sectorBytes d (fs.intact d (sectorsFrom (clusterLba fs c) fs.sectorsPerCluster.toNat))

/-- Every sector of the cluster can be read. -/
def Intact (fs : FatFs) (d : Disk) (c : UInt32) : Prop :=
  (fs.intact d (sectorsFrom (clusterLba fs c) fs.sectorsPerCluster.toNat)).length =
    fs.sectorsPerCluster.toNat

instance (fs : FatFs) (d : Disk) (c : UInt32) : Decidable (fs.Intact d c) :=
  inferInstanceAs (Decidable (_ = _))

/-- The bytes on the way along at most `n` clusters from `c` on. -/
def stream (fs : FatFs) (d : Disk) : Nat → UInt32 → List UInt8
  | 0, _ => []
  | n + 1, c =>
    if c < endOfChain then
      fs.clusterStream d c ++
        if fs.Intact d c ∧ fs.next d c < endOfChain then fs.stream d n (fs.next d c) else []
    else []

variable {fs : FatFs} {d : Disk} {fuel n : Nat} {c remaining skip : UInt32}

theorem length_clusterStream (fs : FatFs) (d : Disk) (c : UInt32) :
    (fs.clusterStream d c).length = 512 *
      (fs.intact d (sectorsFrom (clusterLba fs c) fs.sectorsPerCluster.toNat)).length :=
  length_sectorBytes ..

theorem toNat_pos {v : UInt32} (h : v > 0) : 0 < v.toNat := by
  have := UInt32.lt_iff_toNat_lt.1 h
  rwa [UInt32.toNat_zero] at this

theorem Intact.length (h : fs.Intact d c) :
    (fs.clusterStream d c).length = 512 * fs.sectorsPerCluster.toNat := by
  rw [length_clusterStream, h]

/-! ## The loops -/

/-- A loop with nothing left to read ends. -/
theorem loadClusters_done (hfuel : 0 < fuel) (h0 : remaining.toNat = 0) (acc : List UInt8) :
    Reads (loadClusters fs fuel c acc remaining) d acc := by
  obtain ⟨fuel, rfl⟩ : ∃ f, fuel = f + 1 := ⟨fuel - 1, by omega⟩
  unfold loadClusters
  rw [if_neg (fun hc => absurd (toNat_pos hc.1) (by omega))]
  exact .pure _

theorem loadOffClusters_done (hfuel : 0 < fuel) (h0 : remaining.toNat = 0) (acc : List UInt8) :
    Reads (loadOffClusters fs fuel c acc remaining skip) d acc := by
  obtain ⟨fuel, rfl⟩ : ∃ f, fuel = f + 1 := ⟨fuel - 1, by omega⟩
  unfold loadOffClusters
  rw [if_neg (fun hc => absurd (toNat_pos hc.1) (by omega))]
  exact .pure _

/-- The cluster loop of `fat_load_file` returns a prefix of the stream. -/
theorem loadClusters_stream (hb : fs.bytesPerSector = 512) (hc : fs.sectorsPerCluster ≠ 0)
    (hfuel : remaining.toNat < fuel) (hn : remaining.toNat ≤ n) (acc : List UInt8) :
    Reads (loadClusters fs fuel c acc remaining) d
      (acc ++ (fs.stream d n c).take remaining.toNat) := by
  have hspc : 0 < fs.sectorsPerCluster.toNat := toNat_pos (UInt32.pos_iff_ne_zero.2 hc)
  induction fuel generalizing n c acc remaining with
  | zero => omega
  | succ fuel ih =>
    by_cases hpos : remaining > 0
    · have hpos' := toNat_pos hpos
      obtain ⟨n, rfl⟩ : ∃ m, n = m + 1 := ⟨n - 1, by omega⟩
      unfold loadClusters stream
      by_cases hlt : c < endOfChain
      · obtain ⟨ok, left, hok, hleft, hread⟩ := loadSectors_intact (d := d) hb
          fs.sectorsPerCluster.toNat (clusterLba fs c) acc remaining
        have hlen := fs.length_clusterStream d c
        rw [← hlen] at hok hleft
        rw [if_pos ⟨hpos, hlt⟩, if_pos hlt, List.take_append, ← hleft, ← List.append_assoc]
        refine hread.bind ?_
        cases ok with
        | false =>
          -- a read failed: the stream ends here
          have hnot : ¬ fs.Intact d c := fun hi => Bool.false_ne_true (hok.2 (.inr hi))
          rw [if_neg (fun hc => hnot hc.1), List.take_nil, List.append_nil]
          exact .pure _
        | true =>
          simp only [if_true]
          refine (next_reads hb c).bind ?_
          by_cases hend : fs.next d c ≥ endOfChain
          · rw [if_pos hend, if_neg (fun hc => UInt32.not_lt.2 hend hc.2), List.take_nil,
              List.append_nil]
            exact .pure _
          · rw [if_neg hend]
            by_cases hi : fs.Intact d c
            · have := hi.length
              have hmul : 1 ≤ 512 * fs.sectorsPerCluster.toNat := by omega
              rw [if_pos ⟨hi, UInt32.not_le.1 hend⟩]
              exact ih (by omega) (by omega) _
            · -- all there was to read came from this cluster
              have hall := (hok.1 rfl).resolve_right hi
              have h0 : left.toNat = 0 := by omega
              rw [if_neg (fun hc => hi hc.1), List.take_nil, List.append_nil]
              exact loadClusters_done (by omega) h0 _
      · rw [if_neg (fun h => hlt h.2), if_neg hlt, List.take_nil, List.append_nil]
        exact .pure _
    · have hzero := toNat_eq_zero hpos
      rw [hzero, List.take_zero, List.append_nil]
      exact loadClusters_done (by omega) hzero acc

/-- The cluster loop of `fat_load_file_off` returns a slice of it. -/
theorem loadOffClusters_stream (hb : fs.bytesPerSector = 512) (hc : fs.sectorsPerCluster ≠ 0)
    (hskip : remaining > 0 ∨ skip = 0) (hfuel : skip.toNat + remaining.toNat < fuel)
    (hn : skip.toNat + remaining.toNat ≤ n) (acc : List UInt8) :
    Reads (loadOffClusters fs fuel c acc remaining skip) d
      (acc ++ ((fs.stream d n c).drop skip.toNat).take remaining.toNat) := by
  have hspc : 0 < fs.sectorsPerCluster.toNat := toNat_pos (UInt32.pos_iff_ne_zero.2 hc)
  induction fuel generalizing n c acc remaining skip with
  | zero => omega
  | succ fuel ih =>
    by_cases hpos : remaining > 0
    · have hpos' := toNat_pos hpos
      obtain ⟨n, rfl⟩ : ∃ m, n = m + 1 := ⟨n - 1, by omega⟩
      unfold loadOffClusters stream
      by_cases hlt : c < endOfChain
      · obtain ⟨ok, left, skip', hok, hleft, hskip', hread⟩ := loadOffSectors_intact (d := d) hb
          fs.sectorsPerCluster.toNat (clusterLba fs c) acc remaining skip
        have hok := hok (.inl hpos)
        have hlen := fs.length_clusterStream d c
        rw [← hlen] at hok hleft hskip'
        have hslice : ∀ rest : List UInt8,
            acc ++ ((fs.clusterStream d c ++ rest).drop skip.toNat).take remaining.toNat =
              acc ++ ((fs.clusterStream d c).drop skip.toNat).take remaining.toNat ++
                (rest.drop skip'.toNat).take left.toNat := by
          intro rest
          rw [List.drop_append, List.take_append, List.length_drop, ← hleft, List.append_assoc]
          by_cases hl : left = 0
          · rw [hl, UInt32.toNat_zero, List.take_zero, List.take_zero]
          · rw [hskip' hl]
        rw [if_pos ⟨hpos, hlt⟩, if_pos hlt, hslice]
        refine hread.bind ?_
        cases ok with
        | false =>
          have hnot : ¬ fs.Intact d c := fun hi => Bool.false_ne_true (hok.2 (.inr hi))
          rw [if_neg (fun hc => hnot hc.1), List.drop_nil, List.take_nil, List.append_nil]
          exact .pure _
        | true =>
          simp only [if_true]
          refine (next_reads hb c).bind ?_
          by_cases hend : fs.next d c ≥ endOfChain
          · rw [if_pos hend, if_neg (fun hc => UInt32.not_lt.2 hend hc.2), List.drop_nil,
              List.take_nil, List.append_nil]
            exact .pure _
          · rw [if_neg hend]
            by_cases hl : left = 0
            · rw [hl, UInt32.toNat_zero, List.take_zero, List.append_nil]
              exact loadOffClusters_done (by omega) rfl _
            · have hs := hskip' hl
              have hl' := toNat_pos (UInt32.pos_iff_ne_zero.2 hl)
              by_cases hi : fs.Intact d c
              · have := hi.length
                have hmul : 1 ≤ 512 * fs.sectorsPerCluster.toNat := by omega
                rw [if_pos ⟨hi, UInt32.not_le.1 hend⟩]
                exact ih (.inl (UInt32.pos_iff_ne_zero.2 hl)) (by omega) (by omega) _
              · -- all there was to read came from this cluster
                have := (hok.1 rfl).resolve_right hi
                omega
      · rw [if_neg (fun h => hlt h.2), if_neg hlt, List.drop_nil, List.take_nil, List.append_nil]
        exact .pure _
    · have hzero := toNat_eq_zero hpos
      rw [hzero, List.take_zero, List.append_nil]
      exact loadOffClusters_done (by omega) hzero acc

/-! ## The two calls -/

/-- What there is of the file of an entry. -/
def fileStream (fs : FatFs) (d : Disk) (e : Dirent) : List UInt8 :=
  if fs.initialized = false ∨ e.firstCluster < 2 then []
  else (fs.stream d e.fileSize.toNat e.firstCluster).take e.fileSize.toNat

variable {e : Dirent}

theorem fatLoadFile_stream (hb : fs.bytesPerSector = 512) (hc : fs.sectorsPerCluster ≠ 0)
    (hfuel : e.fileSize.toNat < fuel) (m : UInt32) :
    Reads (fatLoadFile fuel fs e m) d ((fs.fileStream d e).take m.toNat) := by
  unfold fatLoadFile fileStream
  by_cases hinit : fs.initialized = false
  · rw [if_pos (.inl (by simp [hinit])), if_pos (.inl hinit), List.take_nil]
    exact .pure _
  by_cases hm : m = 0
  · rw [if_pos (.inr hm), hm, UInt32.toNat_zero, List.take_zero]
    exact .pure _
  rw [if_neg (by simp [hinit, hm])]
  simp only
  by_cases hlt : e.firstCluster < 2
  · rw [if_pos hlt, if_pos (.inr hlt), List.take_nil]
    exact .pure _
  rw [if_neg hlt, if_neg (not_or.2 ⟨hinit, hlt⟩), List.take_take]
  have hmin : (if e.fileSize > m then m else e.fileSize).toNat = min m.toNat e.fileSize.toNat := by
    split
    · next hgt =>
      have := UInt32.lt_iff_toNat_lt.1 hgt
      omega
    · next hle =>
      have := UInt32.le_iff_toNat_le.1 (UInt32.not_lt.1 hle)
      omega
  have hread := loadClusters_stream (d := d) (n := e.fileSize.toNat) (c := e.firstCluster) hb hc
    (show (if e.fileSize > m then m else e.fileSize).toNat < fuel by omega) (by omega) []
  rwa [hmin, List.nil_append] at hread

theorem fatLoadFileOff_stream (hb : fs.bytesPerSector = 512) (hc : fs.sectorsPerCluster ≠ 0)
    (hfuel : e.fileSize.toNat < fuel) (o m : UInt32) :
    Reads (fatLoadFileOff fuel fs e o m) d (((fs.fileStream d e).drop o.toNat).take m.toNat) := by
  unfold fatLoadFileOff fileStream
  by_cases hinit : fs.initialized = false
  · rw [if_pos (.inl (by simp [hinit])), if_pos (.inl hinit), List.drop_nil, List.take_nil]
    exact .pure _
  by_cases hm : m = 0
  · rw [if_pos (.inr (.inl hm)), hm, UInt32.toNat_zero, List.take_zero]
    exact .pure _
  by_cases ho : o ≥ e.fileSize
  · have hnil : ∀ l : List UInt8, (l.take e.fileSize.toNat).drop o.toNat = [] := fun l => by
      refine List.drop_eq_nil_of_le ?_
      rw [List.length_take]
      have := UInt32.le_iff_toNat_le.1 ho
      omega
    rw [if_pos (.inr (.inr ho))]
    split
    · rw [List.drop_nil, List.take_nil]
      exact .pure _
    · rw [hnil, List.take_nil]
      exact .pure _
  have holt := UInt32.lt_iff_toNat_lt.1 (UInt32.not_le.1 ho)
  rw [if_neg (by simp only [hinit, hm, ho]; simp)]
  simp only
  by_cases hlt : e.firstCluster < 2
  · rw [if_pos hlt, if_pos (.inr hlt), List.drop_nil, List.take_nil]
    exact .pure _
  rw [if_neg hlt, if_neg (not_or.2 ⟨hinit, hlt⟩), List.drop_take, List.take_take]
  have hsub : (e.fileSize - o).toNat = e.fileSize.toNat - o.toNat :=
    UInt32.toNat_sub_of_le _ _ (UInt32.le_iff_toNat_le.2 (by omega))
  have hmin : (if e.fileSize - o < m then e.fileSize - o else m).toNat =
      min m.toNat (e.fileSize.toNat - o.toNat) := by
    split
    · next hl =>
      have := UInt32.lt_iff_toNat_lt.1 hl
      omega
    · next hge =>
      have := UInt32.le_iff_toNat_le.1 (UInt32.not_lt.1 hge)
      omega
  have hm' := toNat_pos (UInt32.pos_iff_ne_zero.2 hm)
  have hpos : (if e.fileSize - o < m then e.fileSize - o else m) > 0 := by
    refine UInt32.lt_iff_toNat_lt.2 ?_
    rw [UInt32.toNat_zero, hmin]
    omega
  have hread := loadOffClusters_stream (d := d) (n := e.fileSize.toNat) (c := e.firstCluster)
    hb hc (show _ ∨ o = 0 from .inl hpos) (show _ < fuel by omega) (by omega) []
  rwa [hmin, List.nil_append] at hread

/-- **Reads from an offset are slices**, on every device: whatever the FAT holds and whichever sectors
cannot be read, both calls return once the fuel exceeds the size of the file. -/
theorem fat_load_file_off_slice (hb : fs.bytesPerSector = 512) (hc : fs.sectorsPerCluster ≠ 0)
    (d : Disk) (e : Dirent) (o n : UInt32) :
    (∃ bytes, ∀ fuel, e.fileSize.toNat < fuel →
      Reads (fatLoadFile fuel fs e e.fileSize) d bytes ∧
      Reads (fatLoadFileOff fuel fs e o n) d ((bytes.drop o.toNat).take n.toNat)) ∧
    ∃ bytes, ∀ fuel, e.fileSize.toNat < fuel →
      Reads (fatLoadFile fuel fs e n) d bytes ∧ Reads (fatLoadFileOff fuel fs e 0 n) d bytes := by
  have hwhole : (fs.fileStream d e).take e.fileSize.toNat = fs.fileStream d e := by
    refine List.take_of_length_le ?_
    unfold fileStream
    split
    · exact Nat.zero_le _
    · rw [List.length_take]
      exact Nat.min_le_left ..
  refine ⟨⟨fs.fileStream d e, fun fuel hfuel => ⟨?_, fatLoadFileOff_stream hb hc hfuel o n⟩⟩,
    (fs.fileStream d e).take n.toNat, fun fuel hfuel => ⟨fatLoadFile_stream hb hc hfuel n, ?_⟩⟩
  · have hread := fatLoadFile_stream (d := d) hb hc hfuel e.fileSize
    rwa [hwhole] at hread
  · have hread := fatLoadFileOff_stream (d := d) hb hc hfuel 0 n
    rwa [UInt32.toNat_zero, List.drop_zero] at hread

/-- A device with one sector that cannot be read. -/
def scratchedDisk : Disk := ⟨fun a _ => a.toUInt8, fun a => a ≠ 5, fun _ _ => true, 0⟩

/-- A file of two clusters, read from byte 100 on. -/
theorem fat_load_file_off_slice_scratched :
    ∃ bytes, ∀ fuel, (newDirent dotName 0x20 2 600).fileSize.toNat < fuel →
      Reads (fatLoadFile fuel ⟨0, 1, 2, 1, 1, 4, 100, 1, 512, .fat16, 0, true⟩
        (newDirent dotName 0x20 2 600) (newDirent dotName 0x20 2 600).fileSize) scratchedDisk bytes ∧
      Reads (fatLoadFileOff fuel ⟨0, 1, 2, 1, 1, 4, 100, 1, 512, .fat16, 0, true⟩
        (newDirent dotName 0x20 2 600) 100 50) scratchedDisk
        ((bytes.drop (100 : UInt32).toNat).take (50 : UInt32).toNat) :=
  (fat_load_file_off_slice rfl (by decide) scratchedDisk (newDirent dotName 0x20 2 600) 100 50).1

end FatFs

end HaoSys.Fs
