import HaoSys.Fs.Layout

/-!
# Filling a slot

A call that creates a name puts one entry into a free slot of one directory.
Seen through the walks of the driver that is `DirSlot.put` on the slots of
every directory, whichever clusters it has: the entry shows up where the slot
is among them, and every other name is found as before.
-/

namespace HaoSys.Fs

open HaoSys.Lib Prog

namespace DirSlot

/-! ## Lists of slots -/

/-- `e` is put at a place. -/
def put (lba offset : UInt32) (e : Dirent) (es : List DirSlot) : List DirSlot :=
  es.map fun t => if t.lba = lba ∧ t.offset = offset then ⟨lba, offset, e⟩ else t

/-- No two slots are at one place. -/
def Apart (es : List DirSlot) : Prop := (es.map fun t => (t.lba, t.offset)).Nodup

/-- Behind an end marker there are only end markers. -/
def Clean (es : List DirSlot) : Prop := es.Pairwise fun a b => a.entry 0 = 0x00 → b.entry 0 = 0x00

/-- The number of end markers. -/
def marks (es : List DirSlot) : Nat := es.countP fun t => t.entry 0 = 0x00

variable {pre post es : List DirSlot} {t : DirSlot} {e : Dirent}

theorem put_of_not_mem {lba offset : UInt32} (h : ∀ t ∈ es, ¬ (t.lba = lba ∧ t.offset = offset)) :
    put lba offset e es = es := by
  unfold put
  rw [List.map_congr_left fun t ht => if_neg (h t ht), List.map_id'']
  exact fun _ => rfl

/-- One slot is replaced. -/
theorem put_split (h : Apart (pre ++ t :: post)) :
    put t.lba t.offset e (pre ++ t :: post) = pre ++ ⟨t.lba, t.offset, e⟩ :: post := by
  unfold Apart at h
  rw [List.map_append, List.map_cons, List.nodup_append, List.nodup_cons] at h
  obtain ⟨-, ⟨hpost, -⟩, hpre⟩ := h
  have h1 : put t.lba t.offset e pre = pre := by
    refine put_of_not_mem fun s hs hat => ?_
    exact hpre _ (List.mem_map_of_mem hs) (t.lba, t.offset) List.mem_cons_self
      (Prod.ext hat.1 hat.2)
  have h2 : put t.lba t.offset e post = post := by
    refine put_of_not_mem fun s hs hat => hpost ?_
    exact List.mem_map.2 ⟨s, hs, Prod.ext hat.1 hat.2⟩
  unfold put at h1 h2 ⊢
  rw [List.map_append, List.map_cons, h1, h2, if_pos ⟨rfl, rfl⟩]

/-- A slot that is free, filled: the entry comes before what was live from there on. -/
theorem live_fill (hclean : Clean (t :: post)) (hfree : t.entry 0 = 0x00 ∨ t.entry 0 = 0xE5)
    {t' : DirSlot} (hlive : t'.entry.IsLive) : live (t' :: post) = t' :: live (t :: post) := by
  rw [live_cons, if_neg hlive.1, if_neg hlive.2, live_cons]
  obtain h0 | h5 := hfree
  · rw [if_pos h0]
    have hpost : ∀ s ∈ post, s.entry 0 = 0x00 := fun s hs => List.rel_of_pairwise_cons hclean hs h0
    cases post with
    | nil => rfl
    | cons s post => rw [live_cons, if_pos (hpost s List.mem_cons_self)]
  · rw [if_neg (by rw [h5]; decide), if_pos h5]

theorem live_fill_append (hclean : Clean (pre ++ t :: post))
    (hfree : t.entry 0 = 0x00 ∨ t.entry 0 = 0xE5) {t' : DirSlot} (hlive : t'.entry.IsLive) :
    live (pre ++ t' :: post) =
      if ended pre then live pre else live pre ++ t' :: live (t :: post) := by
  rw [live_append, live_fill (List.pairwise_append.1 hclean).2.1 hfree hlive]

/-- Other names are found as before. -/
theorem find?_fill (hclean : Clean (pre ++ t :: post))
    (hfree : t.entry 0 = 0x00 ∨ t.entry 0 = 0xE5) {t' : DirSlot} (hlive : t'.entry.IsLive)
    {p : DirSlot → Bool} (hp : p t' = false) :
    (live (pre ++ t' :: post)).find? p = (live (pre ++ t :: post)).find? p := by
  rw [live_fill_append hclean hfree hlive, live_append]
  split
  · rfl
  · rw [List.find?_append, List.find?_append, List.find?_cons_of_neg (by simp [hp])]

theorem length_live_fill (hclean : Clean (pre ++ t :: post))
    (hfree : t.entry 0 = 0x00 ∨ t.entry 0 = 0xE5) {t' : DirSlot} (hlive : t'.entry.IsLive) :
    (live (pre ++ t' :: post)).length ≤ (live (pre ++ t :: post)).length + 1 := by
  rw [live_fill_append hclean hfree hlive, live_append]
  split
  · omega
  · simp only [List.length_append, List.length_cons]
    omega

theorem marks_fill (pre post : List DirSlot) (t t' : DirSlot) :
    marks (pre ++ t :: post) ≤ marks (pre ++ t' :: post) + 1 := by
  unfold marks
  simp only [List.countP_append, List.countP_cons]
  split <;> omega

theorem ended_of_marks (h : 0 < marks es) : ended es = true := by
  obtain ⟨t, ht, h0⟩ := List.countP_pos_iff.1 h
  exact List.any_eq_true.2 ⟨t, ht, h0⟩

/-- The slot that is found is free or has the name, and none before it does. -/
theorem findSlot_eq_some {name : Name83} {slot : Slot} (h : findSlot name es = some slot) :
    ∃ pre t post, es = pre ++ t :: post ∧ pick name t = some slot ∧
      ∀ s ∈ pre, pick name s = none :=
  List.findSome?_eq_some_iff.1 h

theorem pick_eq_none {name : Name83} (h : pick name t = none) :
    t.entry.IsLive ∧ t.entry.upperName ≠ name := by
  unfold pick at h
  split at h
  · cases h
  · next hfree =>
    split at h
    · cases h
    · next hname => exact ⟨⟨fun h0 => hfree (.inl h0), fun h5 => hfree (.inr h5)⟩, hname⟩

theorem pick_eq_free {name : Name83} {lba offset : UInt32}
    (h : pick name t = some (.free lba offset)) :
    (t.entry 0 = 0x00 ∨ t.entry 0 = 0xE5) ∧ t.lba = lba ∧ t.offset = offset := by
  unfold pick at h
  split at h
  · next hfree =>
    cases h
    exact ⟨hfree, rfl, rfl⟩
  · split at h <;> cases h

theorem pick_eq_sameName {name : Name83} {lba offset : UInt32}
    (h : pick name t = some (.sameName lba offset)) :
    (t.entry.IsLive ∧ t.entry.upperName = name) ∧ t.lba = lba ∧ t.offset = offset := by
  unfold pick at h
  split at h
  · cases h
  · next hlive =>
    split at h
    · next hname =>
      cases h
      exact ⟨⟨not_or.1 hlive, hname⟩, rfl, rfl⟩
    · cases h

/-- A name that was put into the first free slot is found there. -/
theorem findSlot_fill {name : Name83} (hpre : ∀ s ∈ pre, pick name s = none) {t' : DirSlot}
    (hlive : t'.entry.IsLive) (hname : t'.entry.upperName = name) :
    findSlot name (pre ++ t' :: post) = some (.sameName t'.lba t'.offset) := by
  have hnone : findSlot name pre = none := List.findSome?_eq_none_iff.2 hpre
  have hpick : pick name t' = some (.sameName t'.lba t'.offset) := by
    unfold pick
    rw [if_neg fun h => h.elim hlive.1 hlive.2, if_pos hname]
  rw [findSlot_append, hnone, Option.none_or]
  exact List.findSome?_cons_of_isSome (by rw [hpick]; rfl) |>.trans hpick

end DirSlot

open DirSlot

/-! ## Sectors -/

theorem Sector.dirent_setDirent {s : Sector} {i j : Nat} (hi : i < 16) (hj : j < 16) (e : Dirent) :
    (s.setDirent (32 * j) e).dirent (32 * i) = if i = j then e else s.dirent (32 * i) := by
  funext k
  have hk := k.isLt
  have hlt : 32 * i + k.val < 512 := by omega
  unfold Sector.dirent Sector.get Sector.setDirent
  rw [dif_pos hlt]
  by_cases hij : i = j
  · subst hij
    simp only [if_true]
    rw [dif_pos ⟨by omega, by omega⟩]
    congr 1
    exact Fin.ext (by simp)
  · simp only [hij, if_false]
    rw [dif_neg (by omega), dif_pos hlt]

theorem Sector.setDirent_setDirent (s : Sector) (o : Nat) (e e' : Dirent) :
    (s.setDirent o e).setDirent o e' = s.setDirent o e' := by
  funext k
  unfold Sector.setDirent
  by_cases h : o ≤ k.val ∧ k.val < o + 32
  · rw [dif_pos h, dif_pos h]
  · rw [dif_neg h, dif_neg h, dif_neg h]

theorem ofNat_slot {i : Nat} (hi : i < 16) : (UInt32.ofNat (32 * i)).toNat = 32 * i := by
  rw [UInt32.toNat_ofNat']
  omega

theorem Sector.slotsFrom_setDirent (s : Sector) (lba : UInt32) {j : Nat} (hj : j < 16)
    (e : Dirent) :
    (s.setDirent (32 * j) e).slotsFrom lba 0 16 =
      put lba (UInt32.ofNat (32 * j)) e (s.slotsFrom lba 0 16) := by
  unfold Sector.slotsFrom put
  rw [List.map_map]
  refine List.map_congr_left fun i hi => ?_
  have hi : i < 16 := by
    have := List.mem_range'_1.1 hi
    omega
  have hiff : UInt32.ofNat (32 * i) = UInt32.ofNat (32 * j) ↔ i = j := by
    rw [← UInt32.toNat_inj, ofNat_slot hi, ofNat_slot hj]
    omega
  rw [Sector.dirent_setDirent hi hj, Function.comp_apply]
  simp only [true_and, hiff]
  split
  · next h => rw [h]
  · rfl

namespace FatFs

variable {fs : FatFs} {d d' : Disk}

/-- A slot of the volume: its sector, its offset and what stands there. -/
theorem mem_dirSlots {cs : List UInt32} {t : DirSlot} (h : t ∈ fs.dirSlots d cs) :
    ∃ c ∈ cs, t.lba ∈ fs.regionSectors c ∧ ∃ j, j < 16 ∧ t.offset = UInt32.ofNat (32 * j) ∧
      t.entry = (d.sector (fs.baseLba + t.lba)).dirent (32 * j) := by
  unfold dirSlots slots sectorSlots Sector.slotsFrom at h
  obtain ⟨c, hc, h⟩ := List.mem_flatMap.1 h
  obtain ⟨l, hl, h⟩ := List.mem_flatMap.1 h
  obtain ⟨j, hj, rfl⟩ := List.mem_map.1 h
  refine ⟨c, hc, hl, j, ?_, rfl, rfl⟩
  have := List.mem_range'_1.1 hj
  omega

/-- The slots of different places are at different places. -/
theorem Sound.apart (h : fs.Sound) {cs : List UInt32} (hcs : ∀ c ∈ cs, fs.Place c)
    (hnodup : cs.Nodup) : Apart (fs.dirSlots d cs) := by
  have hoff : ∀ l, ((fs.sectorSlots d l).map fun t => (t.lba, t.offset)).Nodup := by
    intro l
    unfold sectorSlots Sector.slotsFrom
    rw [List.map_map]
    refine List.Nodup.map_on (fun i hi j hj he => ?_) List.nodup_range'
    have hi := List.mem_range'_1.1 hi
    have hj := List.mem_range'_1.1 hj
    have he := congrArg (fun p => p.2.toNat) he
    simp only [Function.comp_apply] at he
    rw [ofNat_slot (by omega), ofNat_slot (by omega)] at he
    omega
  have hlba : ∀ l p, p ∈ (fs.sectorSlots d l).map (fun t => (t.lba, t.offset)) → p.1 = l := by
    intro l p hp
    obtain ⟨t, ht, rfl⟩ := List.mem_map.1 hp
    obtain ⟨j, -, rfl⟩ := List.mem_map.1 ht
    rfl
  unfold Apart dirSlots slots
  rw [List.map_flatMap]
  refine List.nodup_flatMap.2 ⟨fun c hc => ?_, ?_⟩
  · rw [List.map_flatMap]
    refine List.nodup_flatMap.2 ⟨fun l _ => hoff l, (h.nodup_region (hcs c hc)).imp ?_⟩
    intro l l' hne p hp hp'
    exact hne ((hlba l p hp).symm.trans (hlba l' p hp'))
  · refine hnodup.imp_of_mem fun {c c'} hc hc' hne p hp hp' => hne ?_
    simp only [List.map_flatMap] at hp hp'
    obtain ⟨l, hl, hp⟩ := List.mem_flatMap.1 hp
    obtain ⟨l', hl', hp'⟩ := List.mem_flatMap.1 hp'
    obtain rfl : l = l' := (hlba l p hp).symm.trans (hlba l' p hp')
    exact h.region_inj (hcs c hc) (hcs c' hc') hl hl'

/-! ## Filling a slot of a volume -/

/-- From `d` to `d'` entries of clusters `T`, sectors of clusters `S` and one slot changed; in that
slot stands `e` now. -/
structure Fills (fs : FatFs) (T S : UInt32 → Prop) (lba offset : UInt32) (e : Dirent)
    (d d' : Disk) : Prop where
  table : ∀ c, ¬ T c → fs.table d' c = fs.table d c
  sector : ∀ a, fs.OffFat a → (∀ c, S c → ∀ l ∈ fs.regionSectors c, a ≠ fs.baseLba + l) →
    d'.sector a = if a = fs.baseLba + lba then (d.sector a).setDirent offset.toNat e else d.sector a
  readable : d'.readable = d.readable
  writable : d'.writable = d.writable

variable {T S : UInt32 → Prop} {lba offset : UInt32} {e : Dirent}

theorem Fills.mono {T' S' : UInt32 → Prop} (h : fs.Fills T S lba offset e d d')
    (hT : ∀ c, T c → T' c) (hS : ∀ c, S c → S' c) : fs.Fills T' S' lba offset e d d' :=
  ⟨fun c hc => h.table c fun ht => hc (hT c ht),
    fun a ha hs => h.sector a ha fun c hc => hs c (hS c hc), h.readable, h.writable⟩

theorem Fills.reliable (h : fs.Fills T S lba offset e d d') (hr : d.Reliable) : d'.Reliable :=
  ⟨fun a => by rw [h.readable]; exact hr.readable a,
    fun n a => by rw [h.writable]; exact hr.writable n a⟩

/-- Every directory outside `S` shows the entry at the slot, if the slot is one of its own. -/
theorem Fills.dirSlots (h : fs.Fills T S lba offset e d d') (hs : fs.Sound)
    (hS : ∀ c, S c → fs.Cluster c) {j : Nat} (hj : j < 16) (hoff : offset = UInt32.ofNat (32 * j))
    {cs : List UInt32} (hcs : ∀ c ∈ cs, fs.Place c ∧ ¬ S c) :
    fs.dirSlots d' cs = put lba offset e (fs.dirSlots d cs) := by
  unfold FatFs.dirSlots slots
  simp only [put, List.map_flatMap]
  refine List.flatMap_congr fun c hc => List.flatMap_congr fun l hl => ?_
  have hsec := h.sector (fs.baseLba + l) (hs.offFat (hcs c hc).1 hl) fun c' hc' l' hl' he => by
    obtain rfl : l = l' := UInt32.add_right_inj _ |>.1 he
    exact (hcs c hc).2 (hs.region_inj (hcs c hc).1 (.inr (hS c' hc')) hl hl' ▸ hc')
  unfold sectorSlots
  rw [hsec]
  change _ = put lba offset e _
  by_cases he : l = lba
  · subst he
    rw [if_pos rfl, hoff, ofNat_slot hj, Sector.slotsFrom_setDirent _ _ hj]
  · rw [if_neg fun hne => he (UInt32.add_right_inj _ |>.1 hne), put_of_not_mem]
    intro t ht hat
    obtain ⟨i, -, rfl⟩ := List.mem_map.1 ht
    exact he hat.1

end FatFs

end HaoSys.Fs
