import HaoSys.Fs.MountTable

/-!
# The mount table is a map

What the table is for, apart from slots and storage: a map from mount points
to devices with room for eight points. Every run of `vfs_register_device`,
`vfs_mount` and `vfs_umount` on devices that can be mounted returns what the
map's operations return and leaves a table that represents the map, and
`vfs_resolve` finds the longest mount point of the map.
-/

namespace HaoSys.Fs

open HaoSys.Lib Prog

/-! ## The map -/

/-- The registered devices, and the device mounted at each point. -/
structure MountMap where
  devs : List BlockDev
  device : List UInt8 → Option Nat

/-- A call that changes the table. -/
inductive MountOp where
  | register (dev : BlockDev)
  | mount (point devName : List UInt8)
  | umount (point : List UInt8)

namespace MountMap

def empty : MountMap := ⟨[], fun _ => none⟩

/-- The points something is mounted at. -/
def points (m : MountMap) : Set (List UInt8) := {p | m.device p ≠ none}

open Classical in
/-- What a call returns and does to the map. A new point is refused only for an unknown device
or when eight others are in use. -/
noncomputable def step (m : MountMap) : MountOp → Bool × MountMap
  | .register d =>
    if (∃ e ∈ m.devs, e.name = d.name) ∨ 8 ≤ m.devs.length then (false, m)
    else (true, { m with devs := m.devs ++ [d] })
  | .mount p n =>
    match m.devs.findIdx? fun d => d.name = n with
    | none => (false, m)
    | some dev =>
      if p ∈ m.points ∨ m.points.ncard < 8 then
        (true, { m with device := Function.update m.device p (some dev) })
      else (false, m)
  | .umount p =>
    if p ∈ m.points then (true, { m with device := Function.update m.device p none })
    else (false, m)

/-- A run: the results of the calls, and the map at the end. -/
noncomputable def run (m : MountMap) : List MountOp → List Bool × MountMap
  | [] => ([], m)
  | o :: os => ((m.step o).1 :: ((m.step o).2.run os).1, ((m.step o).2.run os).2)

end MountMap

/-! ## Runs of the table -/

namespace MountTable

def step (t : MountTable) : MountOp → Except Fault (Bool × MountTable)
  | .register d => .ok (t.vfsRegisterDevice (some d))
  | .mount p n => t.vfsMount (some p) (some n)
  | .umount p => .ok (t.vfsUmount (some p))

def run (t : MountTable) : List MountOp → Except Fault (List Bool × MountTable)
  | [] => .ok ([], t)
  | o :: os => match t.step o with
    | .error e => .error e
    | .ok (b, t) => match t.run os with
      | .error e => .error e
      | .ok (bs, t) => .ok (b :: bs, t)

end MountTable

/-- `fs_probe` finds a FAT on the device and `fat_mount` takes it. -/
structure Mountable (d : Disk) : Prop where
  probe : (fsProbe d).isFat = true
  mount : ∀ fs b, ∃ r u, fatMountInto fs ⟨b, d⟩ = .ok ((true, r), u)

/-- The mount point is a string of 1 to 30 bytes. -/
def MountOp.Allowed : MountOp → Prop
  | .mount p _ => p ≠ [] ∧ p.length < 31 ∧ 0 ∉ p
  | _ => True

/-- The mounted slots have different points and are the map. -/
structure Represents (t : MountTable) (m : MountMap) : Prop where
  devs : t.devs = m.devs
  distinct : ∀ p i j, t.mountedAt p i = true → t.mountedAt p j = true → i = j
  device : ∀ p dev, m.device p = some dev ↔
    ∃ i, t.mountedAt p i = true ∧ (t.slots i).dev = dev ∧ (t.slots i).fsDev = dev

/-- What the storage looks like between calls. -/
structure MountTable.Tidy (t : MountTable) : Prop where
  spare : ∀ i, (t.slots i).storage 30 = 0
  hasPoint : ∀ i, (t.slots i).mounted = true → (t.slots i).hasPoint = true
  nonempty : ∀ i, (t.slots i).mounted = true → (t.slots i).storage.string ≠ []
  fsDev : ∀ i, (t.slots i).mounted = true → (t.slots i).fsDev = (t.slots i).dev

namespace MountTable

variable {t : MountTable} {m : MountMap}

/-- A point of the map is the point of a slot. -/
theorem mem_points (hr : Represents t m) (ht : t.Tidy) {p : List UInt8} :
    p ∈ m.points ↔ ∃ i, t.mountedAt p i = true := by
  constructor
  · intro hp
    obtain ⟨dev, hdev⟩ := Option.ne_none_iff_exists'.1 hp
    obtain ⟨i, hi, -⟩ := (hr.device p dev).1 hdev
    exact ⟨i, hi⟩
  · rintro ⟨i, hi⟩
    have := (hr.device p _).2 ⟨i, hi, rfl, ht.fsDev i (mountedAt_iff.1 hi).1⟩
    change m.device p ≠ none
    rw [this]
    exact Option.some_ne_none _

/-- There are fewer than eight points exactly when a slot is free. -/
theorem ncard_points_lt (hr : Represents t m) (ht : t.Tidy) :
    m.points.ncard < 8 ↔ ∃ i, (t.slots i).mounted = false := by
  have himage : m.points = (fun i => (t.slots i).storage.string) '' {i | (t.slots i).mounted} := by
    ext p
    rw [mem_points hr ht]
    constructor
    · rintro ⟨i, hi⟩
      exact ⟨i, (mountedAt_iff.1 hi).1, (mountedAt_iff.1 hi).2.2⟩
    · rintro ⟨i, hi, rfl⟩
      exact ⟨i, mountedAt_iff.2 ⟨hi, ht.hasPoint i hi, rfl⟩⟩
  have hinj : Set.InjOn (fun i => (t.slots i).storage.string) {i | (t.slots i).mounted} := by
    intro i hi j hj hij
    exact hr.distinct _ i j (mountedAt_iff.2 ⟨hi, ht.hasPoint i hi, rfl⟩)
      (mountedAt_iff.2 ⟨hj, ht.hasPoint j hj, hij.symm⟩)
  rw [himage, hinj.ncard_image]
  constructor
  · intro hlt
    by_contra hno
    push Not at hno
    have : {i : Fin 8 | (t.slots i).mounted = true} = Set.univ := by
      ext i
      simpa using hno i
    rw [this, Set.ncard_univ, Nat.card_eq_fintype_card, Fintype.card_fin] at hlt
    omega
  · rintro ⟨i, hi⟩
    have hsub : {i : Fin 8 | (t.slots i).mounted = true} ⊂ Set.univ := by
      refine (Set.ssubset_univ_iff).2 fun h => ?_
      have : i ∈ {i : Fin 8 | (t.slots i).mounted = true} := h ▸ Set.mem_univ i
      rw [Set.mem_ofPred_eq, hi] at this
      cases this
    have := Set.ncard_lt_ncard hsub
    rwa [Set.ncard_univ, Nat.card_eq_fintype_card, Fintype.card_fin] at this

/-! ## The calls -/

theorem mountedAt_setSlot {i j : Fin 8} {s : MountSlot} {q : List UInt8} (h : j ≠ i) :
    (t.setSlot i s).mountedAt q j = t.mountedAt q j := by
  unfold mountedAt
  rw [setSlot_other t s h]

/-- A slot filled for `p`, being free or the one of `p`. -/
theorem represents_mounted (hr : Represents t m) {i : Fin 8} {s : MountSlot} {p : List UInt8}
    {dev : Nat} (hs : (t.setSlot i s).mountedAt p i = true) (hd : s.dev = dev)
    (hf : s.fsDev = dev) (hother : ∀ j, t.mountedAt p j = true → j = i)
    (hi : ∀ q, t.mountedAt q i = true → q = p) :
    Represents (t.setSlot i s) { m with device := Function.update m.device p (some dev) } := by
  have hpoint : ∀ q, (t.setSlot i s).mountedAt q i = true → q = p := by
    intro q hq
    rw [← (mountedAt_iff.1 hq).2.2, ← (mountedAt_iff.1 hs).2.2]
  have hown : ∀ j, (t.setSlot i s).mountedAt p j = true → j = i := by
    intro j hj
    by_contra hne
    rw [mountedAt_setSlot hne] at hj
    exact hne (hother j hj)
  refine ⟨hr.devs, fun q j k hj hk => ?_, fun q d => ?_⟩
  · by_cases hq : q = p
    · subst hq
      rw [hown j hj, hown k hk]
    · have hji : j ≠ i := fun h => hq (hpoint q (h ▸ hj))
      have hki : k ≠ i := fun h => hq (hpoint q (h ▸ hk))
      rw [mountedAt_setSlot hji] at hj
      rw [mountedAt_setSlot hki] at hk
      exact hr.distinct q j k hj hk
  · by_cases hq : q = p
    · subst hq
      simp only [Function.update_self, Option.some.injEq]
      constructor
      · rintro rfl
        exact ⟨i, hs, by rwa [setSlot_same], by rwa [setSlot_same]⟩
      · rintro ⟨j, hj, hjd, -⟩
        rw [hown j hj, setSlot_same, hd] at hjd
        exact hjd
    · simp only [Function.update_of_ne hq]
      rw [hr.device]
      refine exists_congr fun j => ?_
      by_cases hj : j = i
      · subst hj
        exact ⟨fun h => absurd (hi q h.1) hq, fun h => absurd (hpoint q h.1) hq⟩
      · rw [mountedAt_setSlot hj, setSlot_other t s hj]

/-- The slot of `p` marked as not mounted. -/
theorem represents_unmounted (hr : Represents t m) {i : Fin 8} {p : List UInt8}
    (hi : t.mountedAt p i = true) :
    Represents (t.setSlot i { t.slots i with mounted := false })
      { m with device := Function.update m.device p none } := by
  have hno : ∀ q, (t.setSlot i { t.slots i with mounted := false }).mountedAt q i ≠ true := by
    intro q hq
    have := (mountedAt_iff.1 hq).1
    rw [setSlot_same] at this
    cases this
  have hne : ∀ q j, (t.setSlot i { t.slots i with mounted := false }).mountedAt q j = true →
      j ≠ i := fun q j hj h => hno q (h ▸ hj)
  refine ⟨hr.devs, fun q j k hj hk => ?_, fun q d => ?_⟩
  · rw [mountedAt_setSlot (hne q j hj)] at hj
    rw [mountedAt_setSlot (hne q k hk)] at hk
    exact hr.distinct q j k hj hk
  · by_cases hq : q = p
    · subst hq
      simp only [Function.update_self, reduceCtorEq, false_iff]
      rintro ⟨j, hj, -⟩
      have hji := hne q j hj
      rw [mountedAt_setSlot hji] at hj
      exact hji (hr.distinct q j i hj hi)
    · simp only [Function.update_of_ne hq]
      rw [hr.device]
      refine exists_congr fun j => ?_
      by_cases hj : j = i
      · subst hj
        refine ⟨fun h => absurd ?_ hq, fun h => absurd h.1 (hno q)⟩
        rw [← (mountedAt_iff.1 h.1).2.2, (mountedAt_iff.1 hi).2.2]
      · rw [mountedAt_setSlot hj, setSlot_other t _ hj]

/-- A slot that keeps the table tidy. -/
theorem Tidy.setSlot (h : t.Tidy) {i : Fin 8} {s : MountSlot} (h30 : s.storage 30 = 0)
    (hm : s.mounted = true → s.hasPoint = true ∧ s.storage.string ≠ [] ∧ s.fsDev = s.dev) :
    (t.setSlot i s).Tidy := by
  have hslot : ∀ j, (t.setSlot i s).slots j = s ∨ (t.setSlot i s).slots j = t.slots j := by
    intro j
    by_cases hj : j = i
    · subst hj
      exact .inl (setSlot_same ..)
    · exact .inr (setSlot_other t s hj)
  refine ⟨fun j => ?_, fun j hj => ?_, fun j hj => ?_, fun j hj => ?_⟩
  · rcases hslot j with h1 | h1
    · rw [h1, h30]
    · rw [h1, h.spare]
  · rcases hslot j with h1 | h1
    · rw [h1] at hj ⊢
      exact (hm hj).1
    · rw [h1] at hj ⊢
      exact h.hasPoint j hj
  · rcases hslot j with h1 | h1
    · rw [h1] at hj ⊢
      exact (hm hj).2.1
    · rw [h1] at hj ⊢
      exact h.nonempty j hj
  · rcases hslot j with h1 | h1
    · rw [h1] at hj ⊢
      exact (hm hj).2.2
    · rw [h1] at hj ⊢
      exact h.fsDev j hj

/-- `vfs_mount` from the slot on, with a device that can be mounted. -/
theorem mountSlot_mountable (ht : t.Tidy) {p : List UInt8} {dev : Nat} (i : Fin 8)
    (hd : Mountable (t.disks dev)) (hp : p ≠ [] ∧ p.length < 31 ∧ 0 ∉ p) :
    ∃ s, t.mountSlot p dev i = .ok (true, t.setSlot i s) ∧ s.dev = dev ∧ s.fsDev = dev ∧
      (t.setSlot i s).mountedAt p i = true ∧ (t.setSlot i s).Tidy := by
  obtain ⟨st, hst, h30⟩ := strncpy_ok (t.slots i).storage hp.2.1
  obtain ⟨r, u, hu⟩ := hd.mount (t.slots i).fs (t.slots i).buf
  have hstr := strncpy_string hst hp.2.2 fun _ => ht.spare i
  unfold mountSlot
  rw [hst]
  simp only [hd.probe, if_true, hu]
  refine ⟨_, rfl, rfl, rfl, mountedAt_iff.2 ?_, ht.setSlot ?_ fun _ => ⟨rfl, ?_, rfl⟩⟩
  · rw [setSlot_same]
    exact ⟨rfl, rfl, hstr⟩
  · change Function.update st 31 0 30 = 0
    rw [Function.update_of_ne (by decide), h30, ht.spare]
  · change Storage.string (Function.update st 31 0) ≠ []
    rw [hstr]
    exact hp.1

theorem register_refines (hr : Represents t m) (ht : t.Tidy) (d : BlockDev) :
    ∃ t', t.step (.register d) = .ok ((m.step (.register d)).1, t') ∧
      Represents t' (m.step (.register d)).2 ∧ t'.Tidy ∧ t'.disks = t.disks := by
  have hany : (t.devs.any fun e => e.name = d.name) = true ↔ ∃ e ∈ t.devs, e.name = d.name := by
    simp
  simp only [step, MountMap.step, vfsRegisterDevice, ← hr.devs]
  by_cases h1 : ∃ e ∈ t.devs, e.name = d.name
  · rw [if_pos (Or.inl h1)]
    simp only [if_pos (hany.2 h1)]
    exact ⟨t, rfl, hr, ht, rfl⟩
  · by_cases h2 : 8 ≤ t.devs.length
    · rw [if_pos (Or.inr h2)]
      simp only [if_neg (mt hany.1 h1), ge_iff_le, if_pos h2]
      exact ⟨t, rfl, hr, ht, rfl⟩
    · rw [if_neg (not_or.2 ⟨h1, h2⟩)]
      simp only [if_neg (mt hany.1 h1), ge_iff_le, if_neg h2]
      refine ⟨_, rfl, ⟨rfl, hr.distinct, hr.device⟩, ?_, rfl⟩
      exact ⟨ht.spare, ht.hasPoint, ht.nonempty, ht.fsDev⟩

theorem mount_refines (hr : Represents t m) (ht : t.Tidy) (hd : ∀ n, Mountable (t.disks n))
    {p n : List UInt8} (hp : p ≠ [] ∧ p.length < 31 ∧ 0 ∉ p) :
    ∃ t', t.step (.mount p n) = .ok ((m.step (.mount p n)).1, t') ∧
      Represents t' (m.step (.mount p n)).2 ∧ t'.Tidy ∧ t'.disks = t.disks := by
  -- the slot is found, free or at `p`, exactly when the map has room for `p`
  have hgo : ∀ dev i, t.pickSlot p = some i → (∀ j, t.mountedAt p j = true → j = i) →
      (∀ q, t.mountedAt q i = true → q = p) → ∃ t', t.mountSlot p dev i = .ok (true, t') ∧
        Represents t' { m with device := Function.update m.device p (some dev) } ∧
        t'.Tidy ∧ t'.disks = t.disks := by
    intro dev i _ hother hi
    obtain ⟨s, hs, hsd, hsf, hat, htidy⟩ := mountSlot_mountable ht i (hd dev) hp
    exact ⟨_, hs, represents_mounted hr hat hsd hsf hother hi, htidy, rfl⟩
  simp only [step, MountMap.step, vfsMount, findDevice, hr.devs]
  cases m.devs.findIdx? fun d => d.name = n with
  | none => exact ⟨t, rfl, hr, ht, rfl⟩
  | some dev =>
    simp only
    cases hat : t.slotAt p with
    | some i =>
      have hi := slotAt_eq_some hat
      have hpick : t.pickSlot p = some i := by
        unfold pickSlot
        rw [hat]
      rw [if_pos (Or.inl ((mem_points hr ht).2 ⟨i, hi⟩)), hpick]
      refine hgo dev i hpick (fun j hj => hr.distinct p j i hj hi) fun q hq => ?_
      rw [← (mountedAt_iff.1 hq).2.2, (mountedAt_iff.1 hi).2.2]
    | none =>
      have hnot := slotAt_eq_none hat
      have hpick : t.pickSlot p = (List.finRange 8).find? fun i => !(t.slots i).mounted := by
        unfold pickSlot
        rw [hat]
      cases hfree : (List.finRange 8).find? fun i => !(t.slots i).mounted with
      | some i =>
        rw [hfree] at hpick
        have hi : (t.slots i).mounted = false := by simpa using List.find?_some hfree
        rw [if_pos (Or.inr ((ncard_points_lt hr ht).2 ⟨i, hi⟩)), hpick]
        refine hgo dev i hpick (fun j hj => absurd hj (hnot j)) fun q hq => ?_
        rw [(mountedAt_iff.1 hq).1] at hi
        cases hi
      | none =>
        rw [hfree] at hpick
        have hfull : ¬ (p ∈ m.points ∨ m.points.ncard < 8) := by
          rw [mem_points hr ht, ncard_points_lt hr ht]
          rintro (⟨i, hi⟩ | ⟨i, hi⟩)
          · exact hnot i hi
          · have := List.find?_eq_none.1 hfree i (List.mem_finRange i)
            rw [hi] at this
            exact this rfl
        rw [if_neg hfull, hpick]
        exact ⟨t, rfl, hr, ht, rfl⟩

theorem umount_refines (hr : Represents t m) (ht : t.Tidy) (p : List UInt8) :
    ∃ t', t.step (.umount p) = .ok ((m.step (.umount p)).1, t') ∧
      Represents t' (m.step (.umount p)).2 ∧ t'.Tidy ∧ t'.disks = t.disks := by
  simp only [step, MountMap.step, vfsUmount, Option.bind_some]
  cases hat : t.slotAt p with
  | none =>
    rw [if_neg]
    · exact ⟨t, rfl, hr, ht, rfl⟩
    · rw [mem_points hr ht]
      rintro ⟨i, hi⟩
      exact slotAt_eq_none hat i hi
  | some i =>
    have hi := slotAt_eq_some hat
    rw [if_pos ((mem_points hr ht).2 ⟨i, hi⟩)]
    refine ⟨_, rfl, represents_unmounted hr hi, ht.setSlot (ht.spare i) ?_, rfl⟩
    intro h
    cases h

/-- A call returns what the map's operation returns and keeps the table its representation. -/
theorem step_refines (hr : Represents t m) (ht : t.Tidy) (hd : ∀ n, Mountable (t.disks n))
    {o : MountOp} (ho : o.Allowed) :
    ∃ t', t.step o = .ok ((m.step o).1, t') ∧ Represents t' (m.step o).2 ∧ t'.Tidy ∧
      t'.disks = t.disks := by
  cases o with
  | register d => exact register_refines hr ht d
  | mount p n => exact mount_refines hr ht hd ho
  | umount p => exact umount_refines hr ht p

theorem run_refines (hr : Represents t m) (ht : t.Tidy) (hd : ∀ n, Mountable (t.disks n))
    {ops : List MountOp} (ho : ∀ o ∈ ops, o.Allowed) :
    ∃ t', t.run ops = .ok ((m.run ops).1, t') ∧ Represents t' (m.run ops).2 ∧ t'.Tidy := by
  induction ops generalizing t m with
  | nil => exact ⟨t, rfl, hr, ht⟩
  | cons o os ih =>
    obtain ⟨t1, h1, hr1, ht1, hd1⟩ := step_refines hr ht hd (ho o List.mem_cons_self)
    obtain ⟨t2, h2, hr2, ht2⟩ := ih hr1 ht1 (fun n => hd1 ▸ hd n)
      fun o' h' => ho o' (List.mem_cons_of_mem o h')
    refine ⟨t2, ?_, hr2, ht2⟩
    simp only [run, h1, h2, MountMap.run]

theorem represents_empty (disks : Nat → Disk) : Represents (empty disks) .empty := by
  have hno : ∀ p i, (empty disks).mountedAt p i ≠ true := fun p i h => by
    cases (mountedAt_iff.1 h).1
  refine ⟨rfl, fun p i j hi => absurd hi (hno p i), fun p dev => ?_⟩
  constructor
  · intro h
    cases h
  · rintro ⟨i, hi, -⟩
    exact absurd hi (hno p i)

theorem tidy_empty (disks : Nat → Disk) : (empty disks).Tidy := by
  have hno : ∀ i, ((empty disks).slots i).mounted ≠ true := fun i h => by cases h
  exact ⟨fun _ => rfl, fun i h => absurd h (hno i), fun i h => absurd h (hno i),
    fun i h => absurd h (hno i)⟩

end MountTable

/-! ## Devices that can be mounted -/

theorem mountable_of_accepts {d : Disk} (hp : (fsProbe d).isFat = true) (h : Accepts d) :
    Mountable d := by
  refine ⟨hp, fun fs b => ?_⟩
  obtain ⟨r, hr, -⟩ := fatBpbLoad_eq { fs with baseLba := d.volumeStart } ⟨bootSector d, d⟩
    h.signature h.type h.sectorSize
  refine ⟨r, ⟨bootSector d, d⟩, ?_⟩
  rw [fatMountInto_eq fs b h.first, if_pos (show d.readable d.volumeStart = true from h.boot)]
  unfold fatBpbLoadInto
  rw [bind_of_ok (bufRead_whole _ d), bind_of_ok hr]
  rfl

theorem accepts_floppy : Accepts (floppy true) :=
  ⟨rfl, rfl, by decide +kernel, by decide +kernel, by decide +kernel⟩

theorem mountable_floppy : Mountable (floppy true) :=
  mountable_of_accepts (by decide +kernel) accepts_floppy

/-! ## Paths -/

/-- `path` is `point` or goes on behind it with a slash, and `sub` is what follows, `none` when
that is nothing. -/
def Leaves (point path : List UInt8) (sub : Option (List UInt8)) : Prop :=
  path = point ∧ sub = none ∨
    ∃ rest, path = point ++ 0x2F :: rest ∧ sub = if rest = [] then none else some rest

/-- A path without one leading slash. -/
def withoutSlash (path : List UInt8) : List UInt8 :=
  if path.head? = some 0x2F then path.tail else path

/-- What a path resolves to, given which slot is mounted at which point: the slot and the path
below its point. -/
inductive Resolution (mounted : List UInt8 → Fin 8 → Prop) (path : List UInt8) :
    Option (Fin 8 × Option (List UInt8)) → Prop
  | longest {p : List UInt8} {i : Fin 8} {sub : Option (List UInt8)} (hp : mounted p i)
      (hl : Leaves p path sub)
      (hmax : ∀ q j s, mounted q j → Leaves q path s → q.length ≤ p.length) :
      Resolution mounted path (some (i, sub))
  | root {i : Fin 8} (hno : ∀ q j s, mounted q j → ¬ Leaves q path s)
      (hp : mounted Vfs.rootPoint i) : Resolution mounted path (some (i, some (withoutSlash path)))
  | none (hno : ∀ q j s, mounted q j → ¬ Leaves q path s)
      (hroot : ∀ i, ¬ mounted Vfs.rootPoint i) : Resolution mounted path none

/-- A mount point covers a path exactly when something is left of it. -/
theorem covers_of_leaves {point path : List UInt8} {sub : Option (List UInt8)}
    (h : Leaves point path sub) : Vfs.covers point path = true := by
  unfold Vfs.covers
  rcases h with ⟨rfl, -⟩ | ⟨rest, rfl, -⟩
  · simp
  · simp

theorem leaves_of_covers {point path : List UInt8} (h : Vfs.covers point path = true) :
    Leaves point path (if path.drop (point.length + 1) = [] then none
      else some (path.drop (point.length + 1))) := by
  simp only [Vfs.covers, decide_eq_true_eq, List.isPrefixOf_iff_prefix] at h
  obtain ⟨⟨rest, rfl⟩, h⟩ := h
  cases rest with
  | nil => exact .inl ⟨by simp, by simp⟩
  | cons c rest =>
    have hc : c = 0x2F := by simpa using h
    subst hc
    have hdrop : (point ++ 0x2F :: rest).drop (point.length + 1) = rest := by
      rw [show point ++ 0x2F :: rest = (point ++ [0x2F]) ++ rest by simp]
      exact List.drop_left' (by simp)
    exact .inr ⟨rest, rfl, by rw [hdrop]⟩

namespace MountTable

variable {t : MountTable}

theorem mountedAt_of_mounts {i : Fin 8} {mo : Mount} (h : t.toVfs.mounts i = some mo) :
    t.mountedAt mo.point i = true := by
  unfold toVfs at h
  simp only at h
  split at h
  · next hm =>
    cases h
    exact mountedAt_iff.2 ⟨hm.1, hm.2, rfl⟩
  · cases h

theorem mounts_of_mountedAt {p : List UInt8} {i : Fin 8} (h : t.mountedAt p i = true) :
    ∃ mo, t.toVfs.mounts i = some mo ∧ mo.point = p := by
  obtain ⟨hm, hp, hs⟩ := mountedAt_iff.1 h
  refine ⟨_, if_pos ⟨hm, hp⟩, hs⟩

theorem vfsResolve_resolution (ht : t.Tidy) {path : List UInt8} (hne : path ≠ []) :
    Resolution (fun p i => t.mountedAt p i = true) path (t.toVfs.vfsResolve (some path)) := by
  obtain ⟨c, rest, rfl⟩ := List.exists_cons_of_ne_nil hne
  unfold Vfs.vfsResolve
  simp only
  split
  · next i len hbest =>
    obtain ⟨⟨mo, hmo, hc, rfl⟩, hmax⟩ := Vfs.bestMount_eq_some hbest
    refine .longest (mountedAt_of_mounts hmo) (leaves_of_covers hc) fun q j s hq hl => ?_
    obtain ⟨mo', hmo', rfl⟩ := mounts_of_mountedAt hq
    exact hmax j mo' hmo' (covers_of_leaves hl)
  · next hbest =>
    have hno : ∀ q j s, t.mountedAt q j = true → ¬ Leaves q (c :: rest) s := by
      intro q j s hq hl
      obtain ⟨mo, hmo, rfl⟩ := mounts_of_mountedAt hq
      have hnil := Vfs.bestMount_eq_none hbest j hmo (covers_of_leaves hl)
      obtain ⟨hm, -, hs⟩ := mountedAt_iff.1 hq
      exact ht.nonempty j hm (hs.trans hnil)
    cases hroot : t.toVfs.rootMount with
    | none =>
      refine .none hno fun i hi => ?_
      obtain ⟨mo, hmo, hp⟩ := mounts_of_mountedAt hi
      exact Vfs.rootMount_eq_none hroot i hmo hp
    | some i =>
      obtain ⟨mo, hmo, hp⟩ := Vfs.rootMount_eq_some hroot
      have hat : t.mountedAt Vfs.rootPoint i = true := hp ▸ mountedAt_of_mounts hmo
      have hsub : (if c = 0x2F then rest else c :: rest) = withoutSlash (c :: rest) := by
        simp [withoutSlash]
      rw [Option.map_some, hsub]
      exact .root hno hat

end MountTable

/-- The table behaves as the map, and paths resolve to its longest mount point. -/
theorem mount_table_refines_map (disks : Nat → Disk) (hd : ∀ n, Mountable (disks n))
    (ops : List MountOp) (ho : ∀ o ∈ ops, o.Allowed) :
    ∃ t, (MountTable.empty disks).run ops = .ok ((MountMap.empty.run ops).1, t) ∧
      Represents t (MountMap.empty.run ops).2 ∧
      ∀ path, path ≠ [] → Resolution (fun p i => t.mountedAt p i = true) path
        (t.toVfs.vfsResolve (some path)) := by
  obtain ⟨t, ht, hr, htidy⟩ := MountTable.run_refines (MountTable.represents_empty disks)
    (MountTable.tidy_empty disks) hd ho
  exact ⟨t, ht, hr, fun path hne => MountTable.vfsResolve_resolution htidy hne⟩

/-- A floppy mounted at "/" and at "/a", and unmounted from "/a". -/
def floppyOps : List MountOp :=
  [.register ⟨fd0, 2880⟩, .mount [0x2F] fd0, .mount [0x2F, 0x61] fd0, .umount [0x2F, 0x61]]

theorem mount_table_refines_map_floppy :
    ∃ t, (MountTable.empty fun _ => floppy true).run floppyOps =
        .ok ((MountMap.empty.run floppyOps).1, t) ∧
      Represents t (MountMap.empty.run floppyOps).2 ∧
      ∀ path, path ≠ [] → Resolution (fun p i => t.mountedAt p i = true) path
        (t.toVfs.vfsResolve (some path)) :=
  mount_table_refines_map (fun _ => floppy true) (fun _ => mountable_floppy) floppyOps (by
    simp [floppyOps, MountOp.Allowed])

end HaoSys.Fs
