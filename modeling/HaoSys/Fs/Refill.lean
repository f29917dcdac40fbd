import HaoSys.Fs.MetaChange

/-!
# Writing over a file

On a FAT16 volume whose FATs have an entry for every 16-bit number
`fat_write_file` puts the new entry into the first slot that is free or has the
name, whichever comes first. The entry that stood in the slot and the file's old
chain are gone or stay behind; either way the path leads to the new entry
afterwards, and `fat_set_file_meta` gets to it as well.
-/

namespace HaoSys.Fs

open HaoSys.Lib Prog DirSlot

/-! ## Enough fuel -/

/-- With enough fuel, a lookup returns `a`. -/
def Settles {α : Type} (x : Nat → FatM α) (d : Disk) (a : α) : Prop :=
  ∃ f₀, ∀ fuel ≥ f₀, Reads (x fuel) d a

/-- A lookup that has returned has returned that. -/
theorem Settles.of_ok {α : Type} {x : Nat → FatM α} {s t : FatState} {a b : α} {fuel : Nat}
    (h : Settles x s.disk a) (hro : ∀ fuel, ReadOnly (x fuel))
    (hmono : ∀ fuel' ≥ fuel, ∀ b, Reads (x fuel) s.disk b → Reads (x fuel') s.disk b)
    (hrun : x fuel s = .ok (b, t)) : b = a ∧ t.disk = s.disk ∧ Reads (x fuel) s.disk a := by
  obtain ⟨f₀, hf⟩ := h
  obtain ⟨hreads, hd⟩ := (hro fuel).of_ok hrun
  have hb : b = a :=
    (hmono _ (le_max_left fuel f₀) b hreads).unique (hf _ (le_max_right fuel f₀))
  exact ⟨hb, hd, hb ▸ hreads⟩

namespace FatFs

variable {fs : FatFs} {d d' : Disk} {c z : UInt32} {cs fc : List UInt32} {p : DirPlace}

/-- The entry, or none, that the path leads to. -/
def Locates (fs : FatFs) (d : Disk) (sub : List UInt8) (o : Option Dirent) : Prop :=
  Settles (fun fuel => fatFindFile fuel fs (some sub)) d o

/-- The directory, the name and the entry, or none, that the path resolves to. -/
def ResolvesTo (fs : FatFs) (d : Disk) (sub : List UInt8) (r : Resolved) : Prop :=
  Settles (fun fuel => fatResolveParent fuel fs (some sub)) d r

/-- The slot that the search for the name in a directory ends with. -/
def SlotIs (fs : FatFs) (d : Disk) (dir : UInt32) (name : Name83) (slot : Slot) : Prop :=
  Settles (fun fuel => dirFindSlot fuel fs dir name) d slot

section Fuel

variable {s t : FatState} {sub : List UInt8} {fuel : Nat} (hb : fs.bytesPerSector = 512)

include hb

theorem Locates.of_ok {o o' : Option Dirent} (h : fs.Locates s.disk sub o)
    (hrun : fatFindFile fuel fs (some sub) s = .ok (o', t)) : o' = o ∧ t.disk = s.disk := by
  obtain ⟨ho, hd, -⟩ := Settles.of_ok h (fun f => readOnly_fatFindFile f fs _)
    (fun f' hle _ => fatFindFile_mono hb hle) hrun
  exact ⟨ho, hd⟩

theorem ResolvesTo.of_ok {r r' : Resolved} (h : fs.ResolvesTo s.disk sub r)
    (hrun : fatResolveParent fuel fs (some sub) s = .ok (r', t)) :
    r' = r ∧ t.disk = s.disk ∧ Reads (fatResolveParent fuel fs (some sub)) s.disk r :=
  Settles.of_ok h (fun f => readOnly_fatResolveParent f fs _)
    (fun _ hle _ => fatResolveParent_mono hb hle) hrun

theorem SlotIs.of_ok {dir : UInt32} {name : Name83} {slot slot' : Slot}
    (h : fs.SlotIs s.disk dir name slot)
    (hrun : dirFindSlot fuel fs dir name s = .ok (slot', t)) :
    slot' = slot ∧ t.disk = s.disk ∧ Reads (dirFindSlot fuel fs dir name) s.disk slot :=
  Settles.of_ok h (fun f => readOnly_dirFindSlot f fs _ _)
    (fun _ hle _ => dirFindSlot_mono hb hle) hrun

end Fuel

/-! ## FATs for every number -/

/-- A FAT16 volume on a reliable device whose FATs have an entry for every 16-bit number, 0 for those
that are no clusters. -/
structure FullFats (fs : FatFs) (d : Disk) : Prop where
  sound : fs.Sound
  fat16 : fs.fsType = .fat16
  reliable : d.Reliable
  covers : 65536 * 2 ≤ fs.fatSize.toNat * 512
  behind : ∀ c : UInt32, c.toNat < 65536 → fs.clusterLimit ≤ c → fs.table d c = 0

theorem lt_of_not_cluster (h : ¬ fs.Cluster c) : c < 2 ∨ fs.clusterLimit ≤ c := by
  by_cases h2 : 2 ≤ c.toNat
  · exact .inr (UInt32.not_lt.1 fun hlt => h ⟨h2, hlt⟩)
  · refine .inl (UInt32.lt_iff_toNat_lt.2 ?_)
    rw [show (2 : UInt32).toNat = 2 from rfl]
    omega

namespace FullFats

theorem inFat (h : fs.FullFats d) (hc : c.toNat < 65536) : fs.InFat c := by
  have hcovers := h.covers
  refine ⟨UInt32.lt_iff_toNat_lt.2 ?_, ?_⟩
  · rw [show endOfChain.toNat = 0x0FFFFFF8 from rfl]
    omega
  · rw [h.fat16]
    simp only [entryStart, entryWidth]
    omega

theorem table_lt (h : fs.FullFats d) (d' : Disk) (c : UInt32) : (fs.table d' c).toNat < 65536 := by
  unfold table entry
  rw [h.fat16]
  split
  · exact UInt16.toNat_lt _
  · decide

theorem next_eq (h : fs.FullFats d) (hc : c.toNat < 65536) : fs.next d c = fs.table d c := by
  rw [table_of_inFat (h.inFat hc)]
  exact next_of_reads h.sound.sized.sector
    (readFatEntry_reads h.sound.sized h.reliable.readable (h.inFat hc))

/-- A number that is no cluster has no link. -/
theorem table_not_cluster (h : fs.FullFats d) (hc : c.toNat < 65536) (hno : ¬ fs.Cluster c)
    (h2 : ¬ c < 2) : fs.table d c = 0 :=
  h.behind c hc ((lt_of_not_cluster hno).resolve_left h2)

end FullFats

/-! ## Directories in order -/

/-- A directory of the volume: the fixed root region, or a chain of clusters in use that ends. -/
structure InOrder (fs : FatFs) (d : Disk) (p : DirPlace) : Prop where
  walk : fs.DirAt d p.dir p.places p.last
  places : ∀ c ∈ p.places, fs.Place c
  used : ∀ c ∈ p.places, c = 0 ∨ fs.table d c ≠ 0
  ends : ¬ fs.Cluster p.last

namespace InOrder

theorem not_free (h : fs.InOrder d p) : ∀ c ∈ p.places, fs.Place c ∧ ¬ fs.Free d c := by
  refine fun c hc => ⟨h.places c hc, fun hfree => ?_⟩
  obtain rfl | hused := h.used c hc
  · exact absurd hfree.1.1 (by decide)
  · exact hused hfree.2

theorem nodup (h : fs.InOrder d p) : p.places.Nodup := by
  obtain ⟨-, hp⟩ | ⟨hw, -⟩ := h.walk
  · rw [hp]
    simp
  · refine hw.follows.nodup fun hz => ?_
    obtain h0 | hc := h.places _ hz
    · exact absurd (hw.valid _ hz).1 (by rw [h0]; decide)
    · exact h.ends hc

/-- The walk of a listing ends: behind the directory there is one number more at most. -/
theorem listingEnds (h : fs.InOrder d p) (hv : fs.FullFats d) : fs.ListingEnds d p := by
  obtain ⟨h0, -⟩ | ⟨hw, hne⟩ := h.walk
  · exact .inl (.inl h0)
  have hlt : p.last.toNat < 65536 := by
    obtain ⟨pre, x, hx⟩ := List.eq_nil_or_concat p.places |>.resolve_left hne
    obtain ⟨b, -, -, hlast⟩ := follows_append.1 (List.concat_eq_append ▸ hx ▸ hw.follows)
    rw [← hlast]
    exact hv.table_lt d x
  refine .inr ?_
  by_cases h2 : p.last < 2
  · refine ⟨0, .inr ?_⟩
    have h2 := UInt32.lt_iff_toNat_lt.1 h2
    rw [show (2 : UInt32).toNat = 2 from rfl] at h2
    obtain h0 | h1 : p.last.toNat = 0 ∨ p.last.toNat = 1 := by omega
    · exact .inr (.inl (UInt32.toNat_inj.1 h0))
    · exact .inl (UInt32.toNat_inj.1 h1)
  · have hnext : fs.next d p.last = 0 := by
      rw [hv.next_eq hlt, hv.table_not_cluster hlt h.ends h2]
    refine ⟨1, .inr ?_⟩
    rw [link_succ, hnext]
    exact .inr (.inl rfl)

end InOrder

/-! ## The old chain -/

/-- The chain of a file: clusters in use, up to a number that is no cluster. -/
structure FileChain (fs : FatFs) (d : Disk) (first : UInt32) (fc : List UInt32) (z : UInt32) :
    Prop where
  follows : Follows (fs.table d) first fc z
  clusters : ∀ c ∈ fc, fs.Cluster c
  used : ∀ c ∈ fc, fs.table d c ≠ 0
  ends : ¬ fs.Cluster z
  number : z.toNat < 65536

/-- A number that is no cluster is freed without an effect, as are those behind it. -/
theorem FullFats.freeChainLoop_behind {s : FatState} (hv : fs.FullFats s.disk)
    (hno : ¬ fs.Cluster z) (hz : z.toNat < 65536) (n : Nat) :
    ∃ t, freeChainLoop fs n z s = .ok ((), t) ∧
      fs.ChangesIn (fun _ => False) (fun _ => False) s.disk t.disk := by
  cases n with
  | zero => exact ⟨s, rfl, ChangesIn.refl _ _ _ _⟩
  | succ n =>
    unfold freeChainLoop
    by_cases h2 : z ≥ 2 ∧ z < endOfChain
    · obtain ⟨t1, h1, hd1⟩ := readFatEntry_reads hv.sound.sized hv.reliable.readable
        (hv.inFat hz) s rfl
      have hd1 : t1.disk = s.disk := hd1
      rw [← table_of_inFat (hv.inFat hz),
        hv.table_not_cluster hz hno (UInt32.not_lt.2 h2.1)] at h1
      obtain ⟨t2, h2', hu⟩ := hv.sound.twoFats.writeFatEntry_run (hv.inFat hz)
        (not_crosses (.inl hv.fat16)) 0 t1 (by rw [hd1]; exact hv.reliable.readable)
      have hzero : fs.kept 0 = fs.table s.disk z := by
        rw [hv.table_not_cluster hz hno (UInt32.not_lt.2 h2.1)]
        unfold kept
        rw [hv.fat16]
        rfl
      have htable : fs.table t2.disk = fs.table s.disk := by
        rw [hu.table, hd1, hzero, Function.update_eq_self, ite_self]
      have hstop : freeChainLoop fs n 0 t2 = .ok ((), t2) := by
        cases n with
        | zero => rfl
        | succ n =>
          unfold freeChainLoop
          rw [if_neg (by decide)]
          rfl
      refine ⟨t2, ?_, fun x _ => by rw [htable], fun a ha _ => ?_, ?_, ?_⟩
      · rw [if_pos h2, bind_of_ok h1, bind_of_ok h2', if_neg (by decide)]
        exact hstop
      · rw [hu.offFat a ha, hd1]
      · rw [hu.readable, hd1]
      · rw [hu.writable, hd1]
    · rw [if_neg h2]
      exact ⟨s, rfl, ChangesIn.refl _ _ _ _⟩

theorem FullFats.changesIn {T S : UInt32 → Prop} (hv : fs.FullFats d)
    (h : fs.ChangesIn T S d d') (hT : ∀ c, T c → fs.Cluster c) : fs.FullFats d' := by
  refine ⟨hv.sound, hv.fat16, h.reliable hv.reliable, hv.covers, fun c hc hlim => ?_⟩
  rw [h.table c fun ht => absurd (hT c ht).2 (UInt32.not_lt.2 hlim)]
  exact hv.behind c hc hlim

/-- **`fat_free_chain`** frees clusters of the chain and touches nothing else. -/
theorem FullFats.freeChainLoop_run {s : FatState} (hv : fs.FullFats s.disk)
    (hf : Follows (fs.table s.disk) c cs z) (hcs : ∀ x ∈ cs, fs.Cluster x) (hnodup : cs.Nodup)
    (hno : ¬ fs.Cluster z) (hz : z.toNat < 65536) (n : Nat) :
    ∃ t, freeChainLoop fs n c s = .ok ((), t) ∧
      fs.ChangesIn (· ∈ cs) (fun _ => False) s.disk t.disk := by
  induction cs generalizing c s n with
  | nil =>
    obtain rfl := follows_nil.1 hf
    obtain ⟨t, hrun, hw⟩ := hv.freeChainLoop_behind hno hz n
    exact ⟨t, hrun, hw.mono nofun nofun⟩
  | cons x cs ih =>
    obtain ⟨rfl, hf⟩ := hf
    obtain ⟨hnew, hnodup⟩ := List.nodup_cons.1 hnodup
    have hcl := hcs c List.mem_cons_self
    cases n with
    | zero => exact ⟨s, rfl, ChangesIn.refl _ _ _ _⟩
    | succ n =>
      obtain ⟨b, hread⟩ := hv.sound.readFatEntry_run hcl hv.reliable
      obtain ⟨t1, hwrite, hw, -⟩ := hv.sound.writeFatEntry_run (s := ⟨b, s.disk⟩) hcl
        (not_crosses (.inl hv.fat16)) 0 hv.reliable
      have hw : fs.ChangesIn (· = c) (fun _ => False) s.disk t1.disk := hw
      have hf1 : Follows (fs.table t1.disk) (fs.table s.disk c) cs z :=
        hf.congr fun y hy => hw.table y fun he => hnew (he ▸ hy)
      obtain ⟨t, hrun, hrest⟩ := ih (hv.changesIn hw fun y hy => hy ▸ hcl) hf1
        (fun y hy => hcs y (List.mem_cons_of_mem _ hy)) hnodup n
      have hcond : c ≥ 2 ∧ c < endOfChain :=
        ⟨UInt32.le_iff_toNat_le.2 hcl.1, (hv.sound.inFat hcl).1⟩
      have hone : fs.ChangesIn (· ∈ c :: cs) (fun _ => False) s.disk t1.disk :=
        hw.mono (fun y hy => hy ▸ List.mem_cons_self) fun _ => id
      unfold freeChainLoop
      rw [if_pos hcond, bind_of_ok hread, bind_of_ok hwrite]
      split
      · exact ⟨t1, rfl, hone⟩
      · exact ⟨t, hrun, hone.trans (hrest.mono (fun y => List.mem_cons_of_mem _) fun _ => id)⟩

/-! ## The call -/

variable {s t : FatState} {fuel : Nat} {sub : List UInt8} {dir lba offset : UInt32}
  {name : Name83} {o : Option Dirent} {slot : Slot} {first : UInt32}

/-- What the call may take besides the slot: free clusters, and those of the file it writes over. -/
def Loose (fs : FatFs) (d : Disk) (fc : List UInt32) (c : UInt32) : Prop := fs.Free d c ∨ c ∈ fc

/-- The slot phase ends at a free slot, or at a file of the name with the chain `fc`. -/
def Takes (fs : FatFs) (d : Disk) (slot : Slot) (lba offset : UInt32) (fc : List UInt32) : Prop :=
  slot = .free lba offset ∧ fc = [] ∨
    slot = .sameName lba offset ∧
      ∃ z, fs.FileChain d (fs.entryAt d lba offset).firstCluster fc z

/-- The chain that is freed: none, or that of the file. -/
def OldChain (fs : FatFs) (d : Disk) (old : Option UInt32) (fc : List UInt32) : Prop :=
  old = none ∧ fc = [] ∨ ∃ first z, old = some first ∧ fs.FileChain d first fc z

theorem Takes.writeTarget (h : fs.Takes s.disk slot lba offset fc) (hv : fs.FullFats s.disk)
    (hslot : fs.SlotIs s.disk dir name slot) (hoff : offset.toNat + 32 ≤ 512) {target : Target}
    (hrun : writeTarget fuel fs ⟨dir, name, o⟩ s = .ok (some target, t)) :
    t.disk = s.disk ∧ target.lba = lba ∧ target.offset = offset ∧
      fs.OldChain s.disk target.oldCluster fc := by
  unfold Fs.writeTarget at hrun
  obtain ⟨slot', ⟨b1, d1⟩, h1, hrun⟩ := bind_eq_ok.1 hrun
  obtain ⟨rfl, hd1, -⟩ := hslot.of_ok hv.sound.sized.sector h1
  obtain rfl : d1 = s.disk := hd1
  obtain ⟨rfl, rfl⟩ | ⟨rfl, z, hchain⟩ := h
  · cases hrun
    exact ⟨rfl, rfl, rfl, .inl ⟨rfl, rfl⟩⟩
  · simp only at hrun
    rw [bind_of_ok (fatDevRead_of_readable (s := ⟨b1, s.disk⟩) (hv.reliable.readable _))] at hrun
    simp only [if_true] at hrun
    rw [bind_of_ok (bufRead_run hoff _ _)] at hrun
    split at hrun
    · cases hrun
    · cases hrun
      exact ⟨rfl, rfl, rfl, .inr ⟨_, z, rfl, hchain⟩⟩

/-- The old chain is freed behind whatever was done to free clusters. -/
theorem FullFats.freeChainFrom_run (hv : fs.FullFats d) {old : Option UInt32}
    (h : fs.OldChain d old fc) (hg : fs.Grows d s.disk) :
    ∃ t, freeChainFrom fs (old.getD 0) s = .ok ((), t) ∧
      fs.ChangesIn (· ∈ fc) (fun _ => False) s.disk t.disk := by
  obtain ⟨rfl, rfl⟩ | ⟨first, z, rfl, hchain⟩ := h
  · exact ⟨s, rfl, ChangesIn.refl _ _ _ _⟩
  · have hvs : fs.FullFats s.disk := hv.changesIn hg fun c hc => hc.1
    have hf : Follows (fs.table s.disk) first fc z :=
      hchain.follows.congr fun x hx => hg.table x fun hfree => hchain.used x hx hfree.2
    have hnodup : fc.Nodup := hf.nodup fun hz => hchain.ends (hchain.clusters z hz)
    unfold freeChainFrom
    rw [Option.getD_some]
    split
    · exact hvs.freeChainLoop_run hf hchain.clusters hnodup hchain.ends hchain.number 65536
    · exact ⟨s, rfl, ChangesIn.refl _ _ _ _⟩

theorem OldChain.used {old : Option UInt32} (h : fs.OldChain d old fc) :
    ∀ c ∈ fc, fs.Cluster c ∧ ¬ fs.Free d c := by
  obtain ⟨-, rfl⟩ | ⟨first, z, -, hchain⟩ := h
  · nofun
  · exact fun c hc => ⟨hchain.clusters c hc, fun hfree => hchain.used c hc hfree.2⟩

/-- **`fat_write_file`** that has succeeded: the new entry stands in the slot, and besides free
clusters and the old chain nothing has changed. -/
theorem FullFats.fatWriteFileImpl_fills (hv : fs.FullFats s.disk)
    (hres : fs.ResolvesTo s.disk sub ⟨dir, name, o⟩) (hdir : dir ≠ 0xFFFFFFFF)
    (hslot : fs.SlotIs s.disk dir name slot) (htakes : fs.Takes s.disk slot lba offset fc)
    (hplace : ∃ c, fs.Place c ∧ lba ∈ fs.regionSectors c)
    (hoff : ∃ j, j < 16 ∧ offset = UInt32.ofNat (32 * j)) {data : List UInt8}
    (hlen : data.length ≤ 65536) {n : Nat}
    (hrun : fatWriteFileImpl fuel fs (some sub) data s = .ok ((true, n), t)) :
    ∃ first, fs.Fills (fs.Loose s.disk fc) (fs.Free s.disk) lba offset
      (newDirent name 0x20 first (UInt32.ofNat data.length)) s.disk t.disk := by
  have hs := hv.sound
  have hr := hv.reliable
  unfold Fs.fatWriteFileImpl at hrun
  rw [if_neg (by simp [hs.initialized])] at hrun
  obtain ⟨r, ⟨b1, d1⟩, h1, hrun⟩ := bind_eq_ok.1 hrun
  obtain ⟨rfl, hd1, -⟩ := hres.of_ok hs.sized.sector h1
  obtain rfl : d1 = s.disk := hd1
  rw [if_neg hdir, bind_of_ok (maxCluster_eq hs.sized.cluster _)] at hrun
  obtain ⟨needed, hneeded, hcount⟩ := needed_spec hs.sized hlen
  obtain ⟨hfit, hle⟩ := clustersFor_spec hs.sized data.length
  obtain ⟨target, ⟨b2, d2⟩, h2, hrun⟩ := bind_eq_ok.1 hrun
  cases target with
  | none => cases hrun
  | some target =>
    have hoff32 : offset.toNat + 32 ≤ 512 := by
      obtain ⟨j, hj, rfl⟩ := hoff
      rw [ofNat_slot hj]
      omega
    obtain ⟨hd2, rfl, rfl, hold⟩ :=
      htakes.writeTarget (s := ⟨b1, s.disk⟩) hv hslot hoff32 h2
    obtain rfl : d2 = s.disk := hd2
    have hold : fs.OldChain s.disk target.oldCluster fc := hold
    simp only [hneeded, pure_bind] at hrun
    obtain ⟨t3, a, h3, hfew | ⟨henough, -, t4, cs, h4, hchain⟩⟩ :=
      alloc_seal (s := ⟨b2, s.disk⟩) hs hr hcount (inSectors_of_type (.inl hv.fat16))
    · -- not enough of them
      rw [bind_of_ok h3, if_pos hfew.1] at hrun
      obtain ⟨-, t4, -, hrun⟩ := bind_eq_ok.1 hrun
      cases hrun
    · rw [bind_of_ok h3, if_neg henough, bind_of_ok h4] at hrun
      obtain ⟨z, hfollows⟩ := hchain.follows
      have hlencs := hchain.length
      have hfree : ∀ x ∈ cs, fs.Free s.disk x := hchain.free
      have hgrow4 : fs.Grows s.disk t4.disk := hchain.within.mono hfree nofun
      obtain ⟨t5, h5, hw5⟩ := hv.freeChainFrom_run hold hgrow4
      -- the new chain is not the old one
      have hfollows5 : Follows (fs.table t5.disk) a.first cs z :=
        hfollows.congr fun x hxm => hw5.table x fun hfc => (hold.used x hfc).2 (hfree x hxm)
      have hloose5 : fs.ChangesIn (fs.Loose s.disk fc) (fs.Free s.disk) s.disk t5.disk :=
        (hgrow4.mono (fun _ => .inl) fun _ => id).trans (hw5.mono (fun _ => .inr) nofun)
      obtain ⟨t6, h6, hw6, -⟩ := writeClusters_run hs (hloose5.reliable hr)
        (fun x hxm => (hfree x hxm).1) hchain.nodup hfollows5 (by rw [hlencs]; exact hfit)
        (show cs.length < data.length + 1 by omega)
      rw [bind_of_ok h5, bind_of_ok h6] at hrun
      have hloose6 : fs.ChangesIn (fs.Loose s.disk fc) (fs.Free s.disk) s.disk t6.disk :=
        hloose5.trans (hw6.mono nofun hfree)
      obtain ⟨b7, h7⟩ := storeDirent_run fs target.lba
        (newDirent name 0x20 a.first (UInt32.ofNat data.length)) (hloose6.reliable hr) hoff
      simp only [if_true] at hrun
      rw [bind_of_ok h7] at hrun
      cases hrun
      obtain ⟨c, hc, hl⟩ := hplace
      exact ⟨a.first, hloose6.fills hs hr hc hl⟩

end FatFs

end HaoSys.Fs
