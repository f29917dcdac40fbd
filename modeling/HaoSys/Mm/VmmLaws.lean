import HaoSys.Mm.VmmIsolation

/-!
# Translations as a map of pages

The translation of one directory is a partial function of the address. Seen
like that, `vmm_map_page` inserts a page that was not there and
`vmm_unmap_page` erases one, in every state the routines can reach (`Built`):
any directory, any flags. What makes it work is that a directory holds a table
in one slot only, so a store to a table is seen at one page.
-/

namespace HaoSys.Mm

/-- The address of the page that holds `a`. -/
def pageOf (a : UInt32) : UInt32 := a &&& 0xFFFFF000

/-- `T` with the page of `virt` sent to the page of `phys`. -/
def insertPage (T : UInt32 → Option UInt32) (virt phys : UInt32) (a : UInt32) : Option UInt32 :=
  if pageOf a = pageOf virt then some (pageOf phys ||| (a &&& 0xFFF)) else T a

/-- `T` without the page of `virt`. -/
def erasePage (T : UInt32 → Option UInt32) (virt : UInt32) (a : UInt32) : Option UInt32 :=
  if pageOf a = pageOf virt then none else T a

theorem erasePage_insertPage (T : UInt32 → Option UInt32) (virt phys : UInt32) :
    erasePage (insertPage T virt phys) virt = erasePage T virt := by
  funext a
  unfold erasePage insertPage
  split <;> rfl

theorem erasePage_of_none {T : UInt32 → Option UInt32} {virt : UInt32}
    (h : ∀ a, pageOf a = pageOf virt → T a = none) : erasePage T virt = T := by
  funext a
  unfold erasePage
  split
  · next ha => exact (h a ha).symm
  · rfl

/-- Addresses are on one page when the two indices agree. -/
theorem pageOf_eq_iff (a b : UInt32) :
    pageOf a = pageOf b ↔ pdIndex a = pdIndex b ∧ ptIndex a = ptIndex b := by
  simp only [← UInt32.toNat_inj, pageOf, page_toNat, pdIndex_toNat, ptIndex_toNat]
  omega

namespace Vmm

open HaoSys.Lib

variable {v w : Vmm} {dirs xs : List UInt32} {dir t virt phys flags : UInt32}

/-- Every state after `vmm_init` and any sequence of calls on any of the directories. -/
inductive Built (endAddr k : UInt32) : Vmm → List UInt32 → Prop where
  | init {fuel : Nat} {magic infoAddr : UInt32} {m : Mem} {s : Pmm} :
    Pmm.pmmInit fuel endAddr magic infoAddr m = some s →
    Built endAddr k (vmmInit ⟨s, k, 0⟩) []
  | create {v w : Vmm} {dirs : List UInt32} {d : UInt32} : Built endAddr k v dirs →
    v.vmmCreateDirectory = (d, w) → Built endAddr k w (if d = 0 then dirs else d :: dirs)
  | map {v : Vmm} {dirs : List UInt32} {d : UInt32} (virt phys flags : UInt32) :
    Built endAddr k v dirs → d ∈ v.kernelPageDirectory :: dirs →
    Built endAddr k (v.vmmMapPage d virt phys flags).2 dirs
  | unmap {v : Vmm} {dirs : List UInt32} {d : UInt32} (virt : UInt32) :
    Built endAddr k v dirs → d ∈ v.kernelPageDirectory :: dirs →
    Built endAddr k (v.vmmUnmapPage d virt).2 dirs

theorem Built.inv {endAddr k : UInt32} (hl : ImageLayout endAddr k) (h : Built endAddr k v dirs) :
    ∃ xs, v.Inv dirs xs := by
  induction h with
  | init hs =>
    obtain ⟨hb, xs, hinv, himg⟩ := Pmm.pmmInit_inv hl.room hs
    obtain ⟨-, n, -, hv, -⟩ := vmmInit_inv hinv (hl.inUse hb himg) hl.ne_zero
    exact ⟨_, hv⟩
  | create _ hc ih =>
    obtain ⟨xs, hinv⟩ := ih
    obtain ⟨d, w, e, -, -, hz, hnz⟩ := hinv.vmmCreateDirectory
    rw [hc] at e
    cases e
    split
    · next h0 => exact ⟨_, hz h0⟩
    · next h0 => exact ⟨_, (hnz h0).1⟩
  | map virt phys flags _ hd ih =>
    obtain ⟨xs, hinv⟩ := ih
    exact (hinv.vmmMapPage hd virt phys flags).2
  | unmap virt _ hd ih =>
    obtain ⟨xs, hinv⟩ := ih
    exact ⟨xs, (hinv.vmmUnmapPage hd virt).2⟩

/-! ## One store, one page -/

/-- The translation of a directory depends on its tables and their entries. -/
theorem translate_congr (hdir : ∀ i, tableOf w.mem dir i = tableOf v.mem dir i)
    (htab : ∀ i t, tableOf v.mem dir i = some t → ∀ j, j.toNat < 1024 →
      entryAt w.mem t j = entryAt v.mem t j) : w.translate dir = v.translate dir := by
  funext a
  rw [translate_eq, translate_eq, hdir]
  cases htable : tableOf v.mem dir (pdIndex a) with
  | none => rfl
  | some t =>
    simp only [Option.bind_some]
    rw [htab _ t htable _ (ptIndex_lt a)]

/-- Taking a page from the allocator. -/
theorem Inv.translate_keeps {ys : List UInt32} (h : v.Inv dirs xs) (hk : v.Keeps xs w ys)
    (hd : dir ∈ v.kernelPageDirectory :: dirs) : w.translate dir = v.translate dir :=
  translate_congr (fun _ => hk.tableOf (h.dir dir hd).2)
    fun i t ht => hk.entry t (h.table dir hd i t ht).1

/-- The translation of the addresses on a page that has an entry. -/
theorem translate_of_tableOf {a : UInt32} (ht : tableOf v.mem dir (pdIndex a) = some t) :
    v.translate dir a = if isPresent (entryAt v.mem t (ptIndex a)) then
      some (frameOf (entryAt v.mem t (ptIndex a)) ||| (a &&& 0xFFF)) else none := by
  rw [translate_eq, ht, Option.bind_some]

/-- A store to the PTE of `virt` is seen on the page of `virt` only. -/
theorem Inv.translate_storePte (h : v.Inv dirs xs) (hd : dir ∈ v.kernelPageDirectory :: dirs)
    (ht : tableOf v.mem dir (pdIndex virt) = some t) (e a : UInt32) :
    (v.setMem (storeEntry v.mem t (ptIndex virt) e)).translate dir a =
      if pageOf a = pageOf virt then
        if isPresent e then some (frameOf e ||| (a &&& 0xFFF)) else none
      else v.translate dir a := by
  obtain ⟨huse, hnd⟩ := h.table dir hd _ _ ht
  have hpt := ptIndex_lt virt
  have htab : ∀ i, tableOf (storeEntry v.mem t (ptIndex virt) e) dir i = tableOf v.mem dir i :=
    fun i => tableOf_congr fun hi => entryAt_storeEntry_of_ne huse.aligned
      (h.dir dir hd).2.aligned hpt hi fun heq => hnd (heq ▸ hd)
  rw [translate_eq, setMem_mem, htab, translate_eq]
  by_cases hpage : pageOf a = pageOf virt
  · obtain ⟨hpd, hpi⟩ := (pageOf_eq_iff a virt).1 hpage
    rw [if_pos hpage, hpd, hpi, ht, Option.bind_some, entryAt_storeEntry_self]
  · rw [if_neg hpage]
    cases hu : tableOf v.mem dir (pdIndex a) with
    | none => rfl
    | some u =>
      obtain ⟨huse', -⟩ := h.table dir hd _ _ hu
      -- another slot of the same table, or a slot of another table
      have hne : ¬ (u = t ∧ ptIndex a = ptIndex virt) := by
        rintro ⟨rfl, hpi⟩
        obtain ⟨hpd, -⟩ := h.sharing dir hd dir hd _ _ u hu ht
        exact hpage ((pageOf_eq_iff a virt).2 ⟨hpd, hpi⟩)
      simp only [Option.bind_some]
      rw [entryAt_storeEntry huse.aligned huse'.aligned hpt (ptIndex_lt a), if_neg hne]

/-- Adding `PAGE_USER` to a PDE changes no translation. -/
theorem Inv.translate_setUser (h : v.Inv dirs xs) (hd : dir ∈ v.kernelPageDirectory :: dirs)
    {i : UInt32} (hi : i.toNat < 1024) :
    (v.setMem (storeEntry v.mem dir i (entryAt v.mem dir i ||| pageUser))).translate dir =
      v.translate dir := by
  refine translate_congr (fun j => h.tableOf_setUser hd hi dir hd j) fun j t ht k hk => ?_
  obtain ⟨huse, hnd⟩ := h.table dir hd j t ht
  exact entryAt_storeEntry_of_ne (h.dir dir hd).2.aligned huse.aligned hi hk
    fun heq => hnd (heq ▸ hd)

/-- An empty table in an empty slot changes no translation. -/
theorem Inv.translate_install (h : v.Inv dirs xs) (hd : dir ∈ v.kernelPageDirectory :: dirs)
    {i : UInt32} (hi : i.toNat < 1024) (hempty : tableOf v.mem dir i = none)
    (ht : v.Fresh dirs xs t) (hzero : ∀ j, j.toNat < 1024 → entryAt v.mem t j = 0) (f : UInt32) :
    (v.setMem (storeEntry v.mem dir i (mkEntry t f))).translate dir = v.translate dir := by
  have hother : ∀ u, u.toNat % 4096 = 0 → u ≠ dir → ∀ j, j.toNat < 1024 →
      entryAt (storeEntry v.mem dir i (mkEntry t f)) u j = entryAt v.mem u j := fun u hu hne j hj =>
    entryAt_storeEntry_of_ne (h.dir dir hd).2.aligned hu hi hj hne
  have hself := hother t ht.inUse.aligned fun heq => ht.notDir (heq ▸ hd)
  funext a
  rw [translate_eq, translate_eq, setMem_mem, h.tableOf_install hd hi ht.inUse f dir hd]
  by_cases hpd : pdIndex a = i
  · rw [if_pos ⟨rfl, hpd⟩, hpd, hempty, Option.bind_some, hself _ (ptIndex_lt a),
      hzero _ (ptIndex_lt a)]
    rfl
  · rw [if_neg fun e => hpd e.2]
    cases hu : tableOf v.mem dir (pdIndex a) with
    | none => rfl
    | some u =>
      obtain ⟨huse, hnd⟩ := h.table dir hd _ _ hu
      simp only [Option.bind_some]
      rw [hother u huse.aligned (fun heq => hnd (heq ▸ hd)) _ (ptIndex_lt a)]

/-! ## The calls -/

/-- What a mapping does to the translation of its directory: nothing when it fails, and when it
succeeds the page was unmapped and is inserted. -/
structure MapsPage (v : Vmm) (dir virt phys : UInt32) (r : Bool × Vmm) : Prop where
  refused : r.1 = false → r.2.translate dir = v.translate dir
  unmapped : r.1 = true → ∀ a, pageOf a = pageOf virt → v.translate dir a = none
  mapped : r.1 = true → r.2.translate dir = insertPage (v.translate dir) virt phys

theorem MapsPage.congr {r : Bool × Vmm} (h : MapsPage w dir virt phys r)
    (he : w.translate dir = v.translate dir) : MapsPage v dir virt phys r := by
  refine ⟨fun hr => ?_, fun hr => ?_, fun hr => ?_⟩ <;> rw [← he]
  · exact h.refused hr
  · exact h.unmapped hr
  · exact h.mapped hr

theorem Inv.mapInTable_mapsPage (h : v.Inv dirs xs) (hd : dir ∈ v.kernelPageDirectory :: dirs)
    (ht : tableOf v.mem dir (pdIndex virt) = some t) (phys flags : UInt32) :
    MapsPage v dir virt phys (v.mapInTable t (ptIndex virt) (phys &&& 0xFFFFF000) flags) := by
  rcases v.mapInTable_cases t (ptIndex virt) (phys &&& 0xFFFFF000) flags with
    ⟨-, e⟩ | ⟨habsent, e⟩ <;> rw [e]
  · exact ⟨fun _ => rfl, fun h => (by cases h), fun h => (by cases h)⟩
  refine ⟨fun h => (by cases h), fun _ a ha => ?_, fun _ => ?_⟩
  · obtain ⟨hpd, hpt⟩ := (pageOf_eq_iff a virt).1 ha
    rw [translate_of_tableOf (hpd ▸ ht), hpt, habsent]
    rfl
  · funext a
    rw [h.translate_storePte hd ht, isPresent_mkEntry, if_pos rfl, frameOf_mkEntry,
      frameOf_eq_self (by rw [page_toNat]; omega)]
    rfl

theorem Inv.vmmMapPage_mapsPage (h : v.Inv dirs xs) (hd : dir ∈ v.kernelPageDirectory :: dirs)
    (virt phys flags : UInt32) :
    MapsPage v dir virt phys (v.vmmMapPage dir virt phys flags) := by
  obtain ⟨hne, hdir⟩ := h.dir dir hd
  have hpd := pdIndex_lt virt
  rcases v.vmmMapPage_cases hne virt phys flags with ⟨-, w, halloc, e⟩ |
    ⟨hpde, pt, w, halloc, hz, f, e⟩ | ⟨-, -, -, e⟩ | ⟨hpde, -, -, e⟩ | ⟨hpde, -, e⟩ <;> rw [e]
  · -- no page for the table
    obtain ⟨pt, w', halloc', -, -, hkeep, -⟩ := h.allocatePt
    rw [halloc] at halloc'
    cases halloc'
    exact ⟨fun _ => h.translate_keeps hkeep hd, fun h => (by cases h), fun h => (by cases h)⟩
  · -- an empty table goes in first
    obtain ⟨pt', w', halloc', -, hinv, hkeep, hfresh⟩ := h.allocatePt
    rw [halloc] at halloc'
    cases halloc'
    obtain ⟨hfr, -, hzero⟩ := hfresh hz
    have hd' : dir ∈ w.kernelPageDirectory :: dirs := by rwa [hkeep.boot.1]
    have hempty : tableOf w.mem dir (pdIndex virt) = none := by
      rw [hkeep.tableOf hdir, tableOf_pdIndex_none hpde]
    have hslot : tableOf (storeEntry w.mem dir (pdIndex virt) (mkEntry pt f)) dir (pdIndex virt) =
        some pt := by
      rw [hinv.tableOf_install hd' hpd hfr.inUse f dir hd', if_pos ⟨rfl, rfl⟩]
    refine ((hinv.install hd' hpd hempty hfr f).mapInTable_mapsPage hd' hslot phys flags).congr ?_
    rw [hinv.translate_install hd' hpd hempty hfr hzero, h.translate_keeps hkeep hd]
  · exact ⟨fun _ => rfl, fun h => (by cases h), fun h => (by cases h)⟩
  · have hslot := h.tableOf_setUser hd hpd dir hd (pdIndex virt)
    rw [tableOf_pdIndex hpde] at hslot
    rw [entryAt_storeEntry_self, frameOf_or_user]
    exact ((h.setUser hd hpd).mapInTable_mapsPage hd hslot phys flags).congr
      (h.translate_setUser hd hpd)
  · exact h.mapInTable_mapsPage hd (tableOf_pdIndex hpde) phys flags

/-- `vmm_unmap_page` succeeds on a mapped page and erases it. -/
theorem Inv.vmmUnmapPage_erases (h : v.Inv dirs xs) (hd : dir ∈ v.kernelPageDirectory :: dirs)
    (virt : UInt32) :
    (v.vmmUnmapPage dir virt).1 = (v.translate dir virt).isSome ∧
      (v.vmmUnmapPage dir virt).2.translate dir = erasePage (v.translate dir) virt := by
  -- an unmapped page has nothing to erase
  have hnone : v.translate dir virt = none → erasePage (v.translate dir) virt = v.translate dir :=
    fun hvirt => erasePage_of_none fun a ha => by
      obtain ⟨hpd, hpt⟩ := (pageOf_eq_iff a virt).1 ha
      rw [translate_eq] at hvirt ⊢
      rw [hpd, hpt]
      cases htab : tableOf v.mem dir (pdIndex virt) with
      | none => rfl
      | some t =>
        rw [htab, Option.bind_some] at hvirt
        rw [Option.bind_some]
        split at hvirt
        · cases hvirt
        · next habsent => rw [if_neg habsent]
  unfold Vmm.vmmUnmapPage
  simp only [if_neg (h.dir dir hd).1, pdIndex_page, ptIndex_page]
  cases hpde : isPresent (entryAt v.mem dir (pdIndex virt)) with
  | false =>
    have hvirt : v.translate dir virt = none := by
      rw [translate_eq, tableOf_pdIndex_none hpde]
      rfl
    simp only [Bool.not_false, ↓reduceIte, hvirt, Option.isSome_none, hnone hvirt, and_self]
  | true =>
    have htab := tableOf_pdIndex hpde
    simp only [Bool.not_true, Bool.false_eq_true, ↓reduceIte]
    cases hpte : isPresent (entryAt v.mem (frameOf (entryAt v.mem dir (pdIndex virt)))
        (ptIndex virt)) with
    | false =>
      have hvirt : v.translate dir virt = none := by
        rw [translate_of_tableOf htab, hpte]
        rfl
      simp only [Bool.not_false, ↓reduceIte, hvirt, Option.isSome_none, hnone hvirt, and_self]
    | true =>
      simp only [Bool.not_true, Bool.false_eq_true, ↓reduceIte]
      refine ⟨by rw [translate_of_tableOf htab, hpte]; rfl, ?_⟩
      funext a
      rw [h.translate_storePte hd htab]
      rfl

/-- The laws of a directory's translation. -/
structure MapLaws (v : Vmm) (dir : UInt32) : Prop where
  map : ∀ virt phys flags, MapsPage v dir virt phys (v.vmmMapPage dir virt phys flags)
  unmap : ∀ virt, (v.vmmUnmapPage dir virt).1 = true →
    (v.vmmUnmapPage dir virt).2.translate dir = erasePage (v.translate dir) virt
  restore : ∀ virt phys flags, (v.vmmMapPage dir virt phys flags).1 = true →
    ((v.vmmMapPage dir virt phys flags).2.vmmUnmapPage dir virt).1 = true ∧
      ((v.vmmMapPage dir virt phys flags).2.vmmUnmapPage dir virt).2.translate dir =
        v.translate dir

/-- **Map laws over runs.** In every state built by the routines, for the kernel's directory and
every other one. -/
theorem vmm_map_laws {endAddr k : UInt32} (hl : ImageLayout endAddr k) (h : Built endAddr k v dirs)
    (hd : dir ∈ v.kernelPageDirectory :: dirs) : MapLaws v dir := by
  obtain ⟨xs, hinv⟩ := h.inv hl
  refine ⟨hinv.vmmMapPage_mapsPage hd, fun virt _ => (hinv.vmmUnmapPage_erases hd virt).2,
    fun virt phys flags hr => ?_⟩
  obtain ⟨hboot, ys, hw⟩ := hinv.vmmMapPage hd virt phys flags
  have hd' : dir ∈ (v.vmmMapPage dir virt phys flags).2.kernelPageDirectory :: dirs := by
    rwa [hboot.1]
  have hmaps := hinv.vmmMapPage_mapsPage hd virt phys flags
  obtain ⟨hsome, herase⟩ := hw.vmmUnmapPage_erases hd' virt
  rw [hmaps.mapped hr] at hsome herase
  rw [erasePage_insertPage, erasePage_of_none (hmaps.unmapped hr)] at herase
  rw [insertPage, if_pos rfl] at hsome
  exact ⟨hsome, herase⟩

/-- On the small machine, for the kernel's directory. -/
theorem vmm_map_laws_small : MapLaws (vmmInit ⟨smallPmm, 0x101000, 0⟩) 0x101000 :=
  vmm_map_laws smallLayout (.init smallPmm_init) (List.mem_cons.2 (.inl (by decide +kernel)))

end Vmm

end HaoSys.Mm
