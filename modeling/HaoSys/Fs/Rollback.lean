import HaoSys.Fs.Create
import HaoSys.Fs.EntryCodec
import HaoSys.Fs.Lookup

/-!
# A full volume

When the free clusters do not hold the data, `fat_write_file` has linked them
one by one when it notices, with the entry of the last one still 0, and gives
the half-built chain to `fat_free_chain`. `OnlyEntries` says that two devices
differ in entries of clusters only, down to the bits: where the entries are
equal again, so are all sectors (`OnlyEntries.restored`).
-/

namespace HaoSys.Fs

open HaoSys.Lib Prog DirSlot

namespace FatFs

variable {fs : FatFs} {d d' d'' : Disk} {c : UInt32}

/-! ## Devices that differ in entries -/

/-- `d'` is `d` with other entries for clusters: every byte of the FAT outside these entries, the
four reserved bits of a FAT32 entry and every sector outside the FATs are the same, and the two
copies of the FAT are equal. -/
structure OnlyEntries (fs : FatFs) (d d' : Disk) : Prop where
  bytes : ∀ o, o < fs.fatSize.toNat * 512 → (∀ c, fs.Cluster c → ¬ fs.InEntry c o) →
    fs.fatByte d' o = fs.fatByte d o
  high : fs.fsType = .fat32 → ∀ c, fs.Cluster c →
    fs.fat32Word d' c &&& 0xF0000000 = fs.fat32Word d c &&& 0xF0000000
  copies : fs.SameCopies d'
  offFat : ∀ a, fs.OffFat a → d'.sector a = d.sector a
  readable : d'.readable = d.readable
  writable : d'.writable = d.writable

theorem OnlyEntries.refl (h : fs.SameCopies d) : fs.OnlyEntries d d :=
  ⟨fun _ _ _ => rfl, fun _ _ _ => rfl, h, fun _ _ => rfl, rfl, rfl⟩

theorem OnlyEntries.trans (h : fs.OnlyEntries d d') (h' : fs.OnlyEntries d' d'') :
    fs.OnlyEntries d d'' :=
  ⟨fun o ho hno => (h'.bytes o ho hno).trans (h.bytes o ho hno),
    fun ht c hc => (h'.high ht c hc).trans (h.high ht c hc), h'.copies,
    fun a ha => (h'.offFat a ha).trans (h.offFat a ha), h'.readable.trans h.readable,
    h'.writable.trans h.writable⟩

theorem OnlyEntries.reliable (h : fs.OnlyEntries d d') (hr : d.Reliable) : d'.Reliable :=
  ⟨fun a => by rw [h.readable]; exact hr.readable a,
    fun n a => by rw [h.writable]; exact hr.writable n a⟩

/-- The bytes of an entry in a FAT16 or FAT32, given the entry and the bits it does not show. -/
theorem fatByte_of_entry (ht : fs.fsType = .fat16 ∨ fs.fsType = .fat32)
    (hentry : fs.entry d' c = fs.entry d c)
    (hhigh : fs.fsType = .fat32 →
      fs.fat32Word d' c &&& 0xF0000000 = fs.fat32Word d c &&& 0xF0000000)
    {o : Nat} (ho : fs.InEntry c o) : fs.fatByte d' o = fs.fatByte d o := by
  obtain ⟨hlo, hhi⟩ := ho
  obtain ⟨k, rfl⟩ : ∃ k, o = entryStart fs.fsType c.toNat + k := ⟨_, (Nat.add_sub_of_le hlo).symm⟩
  unfold entry at hentry
  rcases ht with ht | ht
  · rw [ht] at hentry hhi ⊢
    simp only [entryWidth, Nat.add_zero] at hentry hhi
    obtain ⟨h0, h1⟩ := le16_inj (UInt16.toUInt32_inj.1 hentry)
    obtain rfl | rfl : k = 0 ∨ k = 1 := by omega
    · exact h0
    · exact h1
  · have hword : fs.fat32Word d' c = fs.fat32Word d c := by
      refine eq_of_masks (hhigh ht) ?_
      rw [ht] at hentry
      exact hentry
    rw [ht] at hhi ⊢
    simp only [entryWidth] at hhi
    obtain ⟨h0, h1, h2, h3⟩ := le32_inj hword
    obtain rfl | rfl | rfl | rfl : k = 0 ∨ k = 1 ∨ k = 2 ∨ k = 3 := by omega
    · exact h0
    · exact h1
    · exact h2
    · exact h3

/-- **Equal entries make equal devices.** -/
theorem OnlyEntries.restored (h : fs.OnlyEntries d d') (hs : fs.Sound)
    (ht : fs.fsType = .fat16 ∨ fs.fsType = .fat32) (hc : fs.SameCopies d)
    (htable : ∀ c, fs.Cluster c → fs.table d' c = fs.table d c) : d'.sector = d.sector := by
  have hbyte : ∀ o, o < fs.fatSize.toNat * 512 → fs.fatByte d' o = fs.fatByte d o := by
    intro o ho
    by_cases hin : ∃ c, fs.Cluster c ∧ fs.InEntry c o
    · obtain ⟨c, hcl, hin⟩ := hin
      have hentry := htable c hcl
      rw [table_of_inFat (hs.inFat hcl), table_of_inFat (hs.inFat hcl)] at hentry
      exact fatByte_of_entry ht hentry (fun h32 => h.high h32 c hcl) hin
    · exact h.bytes o ho fun c hcl hic => hin ⟨c, hcl, hic⟩
  have hfirst : ∀ i, i < fs.fatSize.toNat →
      d'.sector (fs.fatSector i) = d.sector (fs.fatSector i) := by
    intro i hi
    funext j
    have hb := hbyte (i * 512 + j.val) (by omega)
    unfold fatByte Sector.get at hb
    rw [dif_pos (by omega), dif_pos (by omega)] at hb
    simp only [show (i * 512 + j.val) / 512 = i by omega,
      show (i * 512 + j.val) % 512 = j.val by omega] at hb
    exact hb
  funext a
  by_cases ha : fs.OffFat a
  · exact h.offFat a ha
  · unfold OffFat at ha
    simp only [not_forall, not_not] at ha
    obtain ⟨i, hi, rfl⟩ := ha
    by_cases hlt : i < fs.fatSize.toNat
    · exact hfirst i hlt
    · obtain ⟨k, rfl⟩ : ∃ k, i = k + fs.fatSize.toNat := ⟨i - fs.fatSize.toNat, by omega⟩
      rw [h.copies k (by omega), hc k (by omega)]
      exact hfirst k (by omega)

/-! ## Writing one -/

/-- Writing the entry of a cluster changes entries only. -/
theorem Sound.onlyEntries_store (hs : fs.Sound) (ht : fs.fsType = .fat16 ∨ fs.fsType = .fat32)
    (hr : d.Reliable) (hcopies : fs.SameCopies d) (hc : fs.Cluster c) (v : UInt32) :
    fs.OnlyEntries d (fs.storeEntry d c (fs.putEntry c v)) := by
  have hin := hs.inFat hc
  have hlt := hin.start_lt
  refine ⟨fun o ho hno => ?_, fun h32 c' hc' => ?_, ?_, fun a ha => mirrored_offFat (by omega) _ ha,
    rfl, rfl⟩
  · rw [hs.twoFats.fatByte_store ht hr hin.2 v ho, if_neg (hno c hc)]
  · by_cases he : c' = c
    · subst he
      exact hs.twoFats.fat32Word_store_self h32 hr hin.2 v
    · rw [hs.twoFats.fat32Word_store_other h32 hr hin.2 v (hs.inFat hc').2 he]
  · exact hs.twoFats.sameCopies_mirrored hr hcopies (by omega) _

/-- `write_fat_entry` on a cluster of a FAT16 or FAT32 volume. -/
theorem Sound.writeFatEntry_only (hs : fs.Sound) (ht : fs.fsType = .fat16 ∨ fs.fsType = .fat32)
    {s : FatState} (hr : s.disk.Reliable) (hcopies : fs.SameCopies s.disk) (hc : fs.Cluster c)
    (v : UInt32) :
    ∃ t, writeFatEntry fs c v s = .ok ((), t) ∧ fs.OnlyEntries s.disk t.disk ∧
      fs.table t.disk = Function.update (fs.table s.disk) c (fs.kept v) := by
  obtain ⟨t, hrun, hdisk, hu⟩ :=
    hs.twoFats.writeFatEntry_stores (hs.inFat hc) (not_crosses ht) v s hr.readable
  have hok : s.disk.wrote (fs.entrySector c) = true := hr.writable _ _
  refine ⟨t, hrun, ?_, ?_⟩
  · rw [hdisk]
    exact hs.onlyEntries_store ht hr hcopies hc v
  · rw [hu.table, if_pos hok]

/-! ## Taking clusters and giving them back -/

/-- The allocation loop leaves the entry of the last cluster it took at 0 and writes to entries of
clusters only. -/
theorem Sound.allocLoop_open (hs : fs.Sound) (ht : fs.fsType = .fat16 ∨ fs.fsType = .fat32)
    (needed : UInt32) {n : Nat} {c : UInt32} {a a' : Alloc} {s t : FatState}
    (hr : s.disk.Reliable) (hcopies : fs.SameCopies s.disk) (h2 : 2 ≤ c.toNat)
    (hn : c.toNat + n ≤ fs.clusterLimit.toNat ∨ n = 0)
    (hprev : a.prev = 0 ∨
      fs.Cluster a.prev ∧ fs.table s.disk a.prev = 0 ∧ a.prev.toNat < c.toNat)
    (hrun : allocLoop fs needed n c a s = .ok (a', t)) :
    fs.OnlyEntries s.disk t.disk ∧ (a'.prev = 0 ∨ fs.table t.disk a'.prev = 0) := by
  induction n generalizing c a s with
  | zero =>
    cases hrun
    exact ⟨.refl hcopies, hprev.imp_right fun h => h.2.1⟩
  | succ n ih =>
    have hlim := hn.resolve_right (Nat.succ_ne_zero n)
    have hcl : fs.Cluster c := ⟨h2, UInt32.lt_iff_toNat_lt.2 (by omega)⟩
    have hlt := fs.clusterLimit.toNat_lt
    have hadd : (c + 1).toNat = c.toNat + 1 := by
      rw [UInt32.toNat_add, UInt32.toNat_one]
      omega
    unfold allocLoop at hrun
    by_cases hneed : a.count < needed
    · obtain ⟨b, hread⟩ := hs.readFatEntry_run hcl hr
      rw [if_pos hneed, bind_of_ok hread] at hrun
      by_cases hz : fs.table s.disk c = 0
      · rw [if_pos hz] at hrun
        unfold linkPrev at hrun
        by_cases hp : a.prev = 0
        · rw [if_neg (by simp [hp])] at hrun
          exact ih (s := ⟨b, s.disk⟩) hr hcopies (by omega) (by omega)
            (.inr ⟨hcl, hz, show c.toNat < (c + 1).toNat by omega⟩) hrun
        · obtain ⟨hpc, -, hpl⟩ := hprev.resolve_left hp
          obtain ⟨t1, hlink, honly, htable⟩ :=
            hs.writeFatEntry_only (s := ⟨b, s.disk⟩) ht hr hcopies hpc c
          rw [if_pos hp, bind_of_ok hlink] at hrun
          have hne : c ≠ a.prev := fun he => by rw [← he] at hpl; omega
          have hz1 : fs.table t1.disk c = 0 := by
            rw [htable, Function.update_of_ne hne]
            exact hz
          obtain ⟨honly', hlast⟩ := ih (honly.reliable hr) honly.copies (by omega) (by omega)
            (.inr ⟨hcl, hz1, show c.toNat < (c + 1).toNat by omega⟩) hrun
          exact ⟨honly.trans honly', hlast⟩
      · rw [if_neg hz] at hrun
        exact ih (s := ⟨b, s.disk⟩) hr hcopies (by omega) (by omega)
          (hprev.imp_right fun h => ⟨h.1, h.2.1, by omega⟩) hrun
    · rw [if_neg hneed] at hrun
      cases hrun
      exact ⟨.refl hcopies, hprev.imp_right fun h => h.2.1⟩

/-- `fat_free_chain` sets the entries of a chain that ends with 0 to 0. -/
theorem Sound.freeChainLoop_run (hs : fs.Sound) (ht : fs.fsType = .fat16 ∨ fs.fsType = .fat32)
    {cs : List UInt32} {c : UInt32} {s : FatState} (hr : s.disk.Reliable)
    (hcopies : fs.SameCopies s.disk) (hcs : ∀ x ∈ cs, fs.Cluster x)
    (hf : Follows (fs.table s.disk) c cs 0) (hnodup : cs.Nodup) {n : Nat} (hn : cs.length ≤ n) :
    ∃ t, freeChainLoop fs n c s = .ok ((), t) ∧ fs.OnlyEntries s.disk t.disk ∧
      (∀ x ∈ cs, fs.table t.disk x = 0) ∧ ∀ x ∉ cs, fs.table t.disk x = fs.table s.disk x := by
  induction cs generalizing c s n with
  | nil =>
    obtain rfl : c = 0 := follows_nil.1 hf
    refine ⟨s, ?_, .refl hcopies, nofun, fun _ _ => rfl⟩
    cases n with
    | zero => rfl
    | succ n =>
      unfold freeChainLoop
      rw [if_neg (by decide)]
      rfl
  | cons x cs ih =>
    obtain ⟨rfl, hf⟩ := hf
    obtain ⟨n, rfl⟩ : ∃ m, n = m + 1 := ⟨n - 1, by simp at hn; omega⟩
    have hcl := hcs c List.mem_cons_self
    obtain ⟨hnew, hnodup⟩ := List.nodup_cons.1 hnodup
    obtain ⟨b, hread⟩ := hs.readFatEntry_run hcl hr
    obtain ⟨t1, hwrite, honly, htable⟩ :=
      hs.writeFatEntry_only (s := ⟨b, s.disk⟩) ht hr hcopies hcl 0
    have hzero : fs.kept 0 = 0 := by
      unfold kept
      cases fs.fsType <;> rfl
    rw [hzero] at htable
    have hothers : ∀ y, y ≠ c → fs.table t1.disk y = fs.table s.disk y := fun y hy => by
      rw [htable, Function.update_of_ne hy]
    have hf1 : Follows (fs.table t1.disk) (fs.table s.disk c) cs 0 :=
      hf.congr fun y hy => hothers y fun he => hnew (he ▸ hy)
    have hnext : ¬ fs.table s.disk c ≥ endOfChain := by
      rw [ge_iff_le, UInt32.not_le]
      cases cs with
      | nil =>
        rw [follows_nil.1 hf]
        decide
      | cons y cs =>
        rw [hf.1]
        exact (hs.inFat (hcs y (by simp))).1
    obtain ⟨t, hrun, honly', hfreed, hrest⟩ := ih (honly.reliable hr) honly.copies
      (fun y hy => hcs y (List.mem_cons_of_mem _ hy)) hf1 hnodup (by simp at hn; omega)
    refine ⟨t, ?_, honly.trans honly', fun y hy => ?_, fun y hy => ?_⟩
    · have hcond : c ≥ 2 ∧ c < endOfChain := ⟨UInt32.le_iff_toNat_le.2 hcl.1, (hs.inFat hcl).1⟩
      unfold freeChainLoop
      rw [if_pos hcond, bind_of_ok hread, bind_of_ok hwrite, if_neg hnext]
      exact hrun
    · obtain rfl | hy := List.mem_cons.1 hy
      · rw [hrest y hnew, htable, Function.update_self]
      · exact hfreed y hy
    · rw [List.mem_cons, not_or] at hy
      rw [hrest y hy.2, hothers y hy.1]

/-! ## The call -/

/-- With enough fuel, `fat_write_file` returns false and leaves every sector as it was. -/
def RollsBack (fs : FatFs) (d : Disk) (path : List UInt8) (data : List UInt8) : Prop :=
  ∃ f₀, ∀ fuel ≥ f₀, ∀ b, ∃ t, fatWriteFile fuel fs (some path) data ⟨b, d⟩ = .ok (false, t) ∧
    t.disk.sector = d.sector

/-- The listing of a directory for a lookup comes to an end. -/
def LookupEnds (fs : FatFs) (d : Disk) (dir : UInt32) (cs : List UInt32) (z : UInt32) : Prop :=
  fs.StaysIn d 128 dir cs z ∨
    ∃ k, fs.ReadStops d 128 (min (live (fs.dirSlots d cs)).length 128) z k

/-- Where a slot was found, the slot phase leaves the device. -/
theorem writeTarget_keeps {fuel : Nat} {r : Resolved} {slot : Slot} {cs : List UInt32}
    (hr : ∀ a, d.readable a = true)
    (hfound : DirSlot.findSlot r.name83 (fs.dirSlots d cs) = some slot)
    (hslot : Reads (dirFindSlot fuel fs r.parent r.name83) d slot) (b : Sector) :
    ∃ b' target, writeTarget fuel fs r ⟨b, d⟩ = .ok (target, ⟨b', d⟩) := by
  obtain ⟨⟨b1, d1⟩, h1, hd1⟩ := hslot ⟨b, d⟩ rfl
  obtain rfl : d1 = d := hd1
  unfold writeTarget
  rw [bind_of_ok h1]
  cases slot with
  | full => exact absurd hfound (findSlot_ne_full _ _)
  | free lba offset => exact ⟨b1, _, rfl⟩
  | sameName lba offset =>
    obtain ⟨pre, t, post, hsplit, hpick, -⟩ := findSlot_eq_some hfound
    obtain ⟨-, rfl, rfl⟩ := pick_eq_sameName hpick
    obtain ⟨-, -, -, j, hj, hoff, -⟩ :=
      mem_dirSlots (show t ∈ fs.dirSlots d1 cs by rw [hsplit]; simp)
    have hfit : t.offset.toNat + 32 ≤ 512 := by
      rw [hoff, ofNat_slot hj]
      omega
    simp only
    rw [bind_of_ok (fatDevRead_of_readable (hr _))]
    simp only [if_true]
    rw [bind_of_ok (bufRead_run hfit _ _)]
    split
    · exact ⟨_, _, rfl⟩
    · exact ⟨_, _, rfl⟩

variable {dir z : UInt32} {cs : List UInt32} {path data : List UInt8} {name : Name83}

/-- **The rollback**: from a path that resolves to a directory with a slot for it. -/
theorem Sound.fatWriteFile_full (hs : fs.Sound) (ht : fs.fsType = .fat16 ∨ fs.fsType = .fat32)
    (hr : d.Reliable) (hcopies : fs.SameCopies d) {fuel : Nat} {r : Resolved} {slot : Slot}
    (hresolve : Reads (fatResolveParent fuel fs (some path)) d r) (hparent : r.parent ≠ 0xFFFFFFFF)
    (hfound : DirSlot.findSlot r.name83 (fs.dirSlots d cs) = some slot)
    (hslot : Reads (dirFindSlot fuel fs r.parent r.name83) d slot) (hlen : data.length ≤ 65536)
    (hfull : 512 * fs.sectorsPerCluster.toNat *
      (fs.freeFrom d 2 (fs.clusterLimit.toNat - 2)).length < data.length) (b : Sector) :
    ∃ t, fatWriteFile fuel fs (some path) data ⟨b, d⟩ = .ok (false, t) ∧
      t.disk.sector = d.sector := by
  suffices himpl : ∃ t, fatWriteFileImpl fuel fs (some path) data ⟨b, d⟩ = .ok ((false, 0), t) ∧
      t.disk.sector = d.sector by
    obtain ⟨t, hrun, hsame⟩ := himpl
    refine ⟨t, ?_, hsame⟩
    unfold fatWriteFile
    rw [bind_of_ok hrun]
    rfl
  obtain ⟨⟨b1, d1⟩, h1, hd1⟩ := hresolve ⟨b, d⟩ rfl
  obtain rfl : d1 = d := hd1
  obtain ⟨b2, target, h2⟩ := writeTarget_keeps hr.readable hfound hslot b1
  obtain ⟨needed, hneeded, hneededNat⟩ := needed_spec hs.sized hlen
  obtain ⟨hfit, hle⟩ := clustersFor_spec hs.sized data.length
  rw [← hneededNat] at hfit hle
  unfold fatWriteFileImpl
  rw [if_neg (by simp [hs.initialized]), bind_of_ok h1, if_neg hparent,
    bind_of_ok (maxCluster_eq hs.sized.cluster _), bind_of_ok h2]
  cases target with
  | none => exact ⟨_, rfl, rfl⟩
  | some target =>
    simp only [hneeded, pure_bind]
    obtain ⟨t3, a, cs', h3, htaken, hnodup, hcslen, hcs⟩ :=
      alloc_run (s := ⟨b2, d1⟩) hs hr needed (inSectors_of_type ht)
    obtain ⟨honly, hlast⟩ := hs.allocLoop_open (s := ⟨b2, d1⟩) ht needed hr hcopies
      (show 2 ≤ (2 : UInt32).toNat from Nat.le_refl 2)
      (show (2 : UInt32).toNat + (fs.clusterLimit.toNat - 2) ≤ fs.clusterLimit.toNat ∨
        fs.clusterLimit.toNat - 2 = 0 by
          rw [show (2 : UInt32).toNat = 2 from rfl]
          omega)
      (.inl rfl) h3
    -- every free cluster was taken, and there are not enough of them
    have hshort : (fs.freeFrom d1 2 (fs.clusterLimit.toNat - 2)).length < needed.toNat := by
      by_contra hge
      exact absurd hfit (Nat.not_le.2 (Nat.lt_of_le_of_lt
        (Nat.mul_le_mul_left _ (Nat.not_lt.1 hge)) hfull))
    have hcount : a.count < needed := by
      rw [UInt32.lt_iff_toNat_lt, htaken.count, hcs, firstFree, List.length_take]
      exact Nat.lt_of_le_of_lt (Nat.min_le_right _ _) hshort
    have hchain : Follows (fs.table t3.disk) a.first cs' 0 := by
      rcases List.eq_nil_or_concat cs' with hnil | ⟨pre, p, hconcat⟩
      · rw [hnil, htaken.first, hnil]
        rfl
      · have hp := htaken.prev
        have hlinked := htaken.linked (by simp [hconcat])
        rw [hconcat] at hp hlinked
        rw [List.concat_eq_append, List.dropLast_concat] at hlinked
        rw [List.concat_eq_append, List.getLastD_concat] at hp
        have hpc := htaken.free p (by rw [hconcat]; simp)
        have hz := hlast.resolve_left (by rw [hp]; exact cluster_ne_zero hpc.1)
        rw [hconcat, List.concat_eq_append]
        refine follows_append.2 ⟨p, hp ▸ hlinked, rfl, ?_⟩
        rw [← hp]
        exact hz
    have hlencs : cs'.length ≤ 65536 := by omega
    obtain ⟨t4, h4, honly4, hfreed, hrest⟩ := hs.freeChainLoop_run ht (honly.reliable hr)
      honly.copies (fun x hxm => (htaken.free x hxm).1) hchain hnodup hlencs
    rw [bind_of_ok h3, if_pos hcount]
    unfold fatFreeChain
    rw [bind_of_ok h4]
    refine ⟨t4, rfl, (honly.trans honly4).restored hs ht hcopies fun c hc => ?_⟩
    by_cases hmem : c ∈ cs'
    · rw [hfreed c hmem]
      exact (htaken.free c hmem).2.symm
    · rw [hrest c hmem]
      exact htaken.within.table c hmem

/-- `fat_write_file` resolves its path first. -/
theorem RollsBack.lookup_ends (hs : fs.Sound) (hr : d.Reliable) (hd : fs.DirAt d dir cs z)
    {e : Dirent} {f₁ : Nat}
    (hwalk : Reads (walkDirs f₁ fs (splitPath path).1 (0, fun _ => 0)) d (some (dir, e)))
    (hlast : (splitPath path).2 = some name) (h : fs.RollsBack d path data) :
    fs.LookupEnds d dir cs z := by
  obtain ⟨f₀, hf⟩ := h
  refine (hd.readDir_ends_iff hs.sized hs.initialized hr.readable
    (show (128 : UInt32) ≠ 0 by decide)).1 ⟨max f₀ f₁, fun fuel hfuel => ?_⟩
  obtain ⟨t, hrun, -⟩ := hf fuel (le_trans (le_max_left _ _) hfuel) Sector.zero
  unfold fatWriteFile at hrun
  obtain ⟨p, t1, himpl, -⟩ := bind_eq_ok.1 hrun
  unfold fatWriteFileImpl at himpl
  rw [if_neg (by simp [hs.initialized])] at himpl
  obtain ⟨r, t2, hresolve, -⟩ := bind_eq_ok.1 himpl
  have hresolve := ((readOnly_fatResolveParent fuel fs _).of_ok hresolve).1
  rw [fatResolveParent, resolveParentLoop_eq fuel fs path 0 (fun _ => 0) none] at hresolve
  obtain ⟨p, hp, hl⟩ := Reads.bind_inv (readOnly_walkDirs fuel fs _ _)
    (fun p => readOnly_lookupLast fuel fs _ p) hresolve
  cases hp.unique (walkDirs_mono hs.sized.sector (le_trans (le_max_right _ _) hfuel) hwalk)
  change Reads (lookupLast fuel fs (splitPath path).2 _) d r at hl
  rw [hlast] at hl
  obtain ⟨o, ho, -⟩ := hl.bind_inv (readOnly_dirFindName fuel fs dir name) fun _ => .pure _
  obtain ⟨es, hes, -⟩ := dirFindName_iff.1 ho
  exact ⟨es, hes⟩

/-- **A full volume is left as it was** exactly when the lookup of the name ends. -/
theorem fat_write_file_rolls_back_iff (hs : fs.Sound) (ht : fs.fsType = .fat16 ∨ fs.fsType = .fat32)
    (hr : d.Reliable) (hcopies : fs.SameCopies d) (hd : fs.DirAt d dir cs z) {e : Dirent} {f₁ : Nat}
    (hwalk : Reads (walkDirs f₁ fs (splitPath path).1 (0, fun _ => 0)) d (some (dir, e)))
    (hlast : (splitPath path).2 = some name)
    (hslot : ∃ t ∈ fs.dirSlots d cs, t.entry 0 = 0x00 ∨ t.entry 0 = 0xE5 ∨
      t.entry.upperName = name ∧ t.entry.isDir = false)
    (hlen : data.length ≤ 65536)
    (hfull : 512 * fs.sectorsPerCluster.toNat *
      (fs.freeFrom d 2 (fs.clusterLimit.toNat - 2)).length < data.length) :
    fs.RollsBack d path data ↔ fs.LookupEnds d dir cs z := by
  refine ⟨fun h => h.lookup_ends hs hr hd hwalk hlast, fun h => ?_⟩
  obtain ⟨slot, hfound⟩ : ∃ slot, DirSlot.findSlot name (fs.dirSlots d cs) = some slot := by
    obtain ⟨t, htm, hpick⟩ := hslot
    cases hnone : DirSlot.findSlot name (fs.dirSlots d cs) with
    | some slot => exact ⟨slot, rfl⟩
    | none =>
      obtain ⟨hlive, hname⟩ := pick_eq_none (List.findSome?_eq_none_iff.1 hnone t htm)
      obtain h0 | h5 | ⟨hsame, -⟩ := hpick
      · exact absurd h0 hlive.1
      · exact absurd h5 hlive.2
      · exact absurd hsame hname
  obtain ⟨f₀, hf⟩ := (hd.readDir_ends_iff hs.sized hs.initialized hr.readable
    (show (128 : UInt32) ≠ 0 by decide)).2 h
  refine ⟨max (max f₀ f₁) cs.length, fun fuel hfuel b => ?_⟩
  obtain ⟨es, hes⟩ := hf fuel (by omega)
  have hresolve := reads_fatResolveParent
    (walkDirs_mono hs.sized.sector (show f₁ ≤ fuel by omega) hwalk) hlast
    (dirFindName_iff.2 ⟨es, hes, rfl⟩)
  exact hs.fatWriteFile_full ht hr hcopies hresolve hd.ne_fail hfound
    (hd.findSlot hs.sized hr.readable hfound (by omega)) hlen hfull b

/-- An empty root region and no free cluster. -/
def noSpace : Disk :=
  ⟨fun a => if a = 1 ∨ a = 2 then fun _ => 0xFF else Sector.zero, fun _ => true, fun _ _ => true, 0⟩

theorem noSpace_sameCopies : sampleFs.SameCopies noSpace := by
  intro i hi
  change i < 1 at hi
  rw [Nat.lt_one_iff.1 hi]
  rfl

/-- The file F does not fit on a volume without a free cluster. -/
theorem fat_write_file_rolls_back_iff_root :
    sampleFs.RollsBack noSpace [0x46] [0] ↔ sampleFs.LookupEnds noSpace 0 [0] 0 :=
  fat_write_file_rolls_back_iff sampleFs_sound (.inl rfl) ⟨fun _ => rfl, fun _ _ => rfl⟩
    noSpace_sameCopies (.inl ⟨rfl, rfl⟩)
    (show Reads (walkDirs 0 sampleFs (splitPath [0x46]).1 (0, fun _ => 0)) noSpace
      (some (0, fun _ => 0)) from .pure _) (show (splitPath [0x46]).2 = some _ from rfl)
    (by decide +kernel) (by decide) (by decide +kernel)

/-- No cluster is free, and cluster 2, a directory with the driver's end mark, has a deleted slot
but no end marker. The mark is read as a cluster that is full of entries and links to itself. -/
def openDirDisk : Disk :=
  ⟨fun a =>
    if a = 1 ∨ a = 2 then Sector.set16 (fun _ => 0xFF) 4 0xFFF8
    else if a = 3 then Sector.ofDirents [newDirent (makeName83 [0x44]) 0x10 2 0]
    else if a = 4 then fun j => if j.val < 32 then 0xE5 else 0x41
    else if a = 65530 then fun _ => 0x41
    else if a = 256 then Sector.zero.set16 0x1F0 0xFFF8
    else Sector.zero, fun _ => true, fun _ _ => true, 0⟩

/-- Writing "D/F" there does not return. -/
theorem full_volume_not_rolled_back : ¬ ∀ (fs : FatFs) (d : Disk) (dir z : UInt32)
    (cs : List UInt32) (path data : List UInt8) (name : Name83) (e : Dirent) (f₁ : Nat), fs.Sound →
      fs.fsType = .fat16 ∨ fs.fsType = .fat32 → d.Reliable → fs.SameCopies d →
      fs.DirAt d dir cs z →
      Reads (walkDirs f₁ fs (splitPath path).1 (0, fun _ => 0)) d (some (dir, e)) →
      (splitPath path).2 = some name →
      (∃ t ∈ fs.dirSlots d cs, t.entry 0 = 0x00 ∨ t.entry 0 = 0xE5 ∨
        t.entry.upperName = name ∧ t.entry.isDir = false) →
      data.length ≤ 65536 →
      512 * fs.sectorsPerCluster.toNat *
        (fs.freeFrom d 2 (fs.clusterLimit.toNat - 2)).length < data.length →
      fs.RollsBack d path data := by
  intro h
  have hr : openDirDisk.Reliable := ⟨fun _ => rfl, fun _ _ => rfl⟩
  have hcopies : sampleFs.SameCopies openDirDisk := by
    intro i hi
    change i < 1 at hi
    rw [Nat.lt_one_iff.1 hi]
    rfl
  have hd : sampleFs.DirAt openDirDisk 2 [2] 0xFFF8 :=
    .inr ⟨sample_walk (by decide +kernel), by simp⟩
  have hwalk : Reads (walkDirs 1 sampleFs (splitPath [0x44, 0x2F, 0x46]).1 (0, fun _ => 0))
      openDirDisk (some (2, newDirent (makeName83 [0x44]) 0x10 2 0)) :=
    reads_of_evalOn (readOnly_walkDirs _ _ _ _) (by decide +kernel)
  have hlast : (splitPath [0x44, 0x2F, 0x46]).2 = some (makeName83 [0x46]) := by decide
  have hback := h sampleFs openDirDisk 2 0xFFF8 [2] [0x44, 0x2F, 0x46] [0] (makeName83 [0x46]) _ 1
    sampleFs_sound (.inl rfl) hr hcopies hd hwalk hlast (by decide +kernel) (by decide)
    (by decide +kernel)
  rcases hback.lookup_ends sampleFs_sound hr hd hwalk hlast with hstay | ⟨k, hk⟩
  · revert hstay
    unfold StaysIn
    decide +kernel
  · exact not_readStops_of_self (by decide +kernel) (by decide +kernel) (by decide +kernel) _ _ k hk

end FatFs

end HaoSys.Fs
