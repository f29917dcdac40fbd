import HaoSys.Lib.Walk

/-!
# Configuration descriptors (`driver/usb_controller.c`, `driver/usb_mass_storage.c`)

`find_hid_interface` and `find_msc_interface` walk over the records of a
configuration: the first byte of a record is its length, the second its type. They
look for the first interface of a class, and for the first IN and OUT endpoint
behind it.

Only the first byte of a record is compared with `total_len`. So a record that is
cut off is read past the end, and where a position passes 2^16 the walk goes on
from the start of the array.
-/

namespace HaoSys.Driver

open HaoSys.Lib

/-- The bytes from `config_data` on, whatever they belong to. -/
abbrev ConfigData := Nat → UInt8

def usbDescInterface : UInt8 := 0x04
def usbDescEndpoint : UInt8 := 0x05

/-- What is found: pointers into the array are positions. -/
structure Found where
  iface : Nat
  epIn : Option Nat
  epOut : Option Nat
  deriving DecidableEq

namespace Found

/-- An endpoint with this address byte is recorded, if it is the first of its direction. -/
def take (address : UInt8) (pos : Nat) (found : Found) : Found :=
  if address &&& 0x80 ≠ 0 ∧ found.epIn = none then { found with epIn := some pos }
  else if ¬ address &&& 0x80 ≠ 0 ∧ found.epOut = none then { found with epOut := some pos }
  else found

end Found

/-- The result of a walk that has looked at some bytes before. -/
def afterReads {α : Type} (reads : List Nat) (r : Option (α × List Nat)) : Option (α × List Nat) :=
  r.map fun (a, rs) => (a, reads ++ rs)

namespace ConfigData

/-- `pos += len`, in 16 bits. -/
def advance (config : ConfigData) (pos : Nat) : Nat := (pos + (config pos).toNat) % 2 ^ 16

/-- The inner loop, with the positions that it reads. With `bulk` it takes bulk endpoints only. -/
def collect (bulk : Bool) (config : ConfigData) (total : Nat) :
    Nat → Nat → Found → Option (Found × List Nat)
  | 0, _, _ => none
  | fuel + 1, pos, found =>
    if pos < total then
      if config pos = 0 then some (found, [pos])
      else if config (pos + 1) = usbDescEndpoint then
        if bulk ∧ config (pos + 3) &&& 0x03 ≠ 0x02 then
          afterReads [pos, pos + 1, pos + 3] (collect bulk config total fuel (config.advance pos) found)
        else
          afterReads ([pos, pos + 1] ++ (if bulk then [pos + 3] else []) ++ [pos + 2])
            (collect bulk config total fuel (config.advance pos) (found.take (config (pos + 2)) pos))
      else if config (pos + 1) = usbDescInterface then some (found, [pos, pos + 1])
      else afterReads [pos, pos + 1] (collect bulk config total fuel (config.advance pos) found)
    else some (found, [])

/-- The outer loop. The functions return `false` with `none`. All callers pass pointers to `NULL`
for the outputs. -/
def findInterface (interfaceClass : UInt8) (bulk : Bool) (config : ConfigData) (total : Nat) :
    Nat → Nat → Option (Option Found × List Nat)
  | 0, _ => none
  | fuel + 1, pos =>
    if pos < total then
      if config pos = 0 then some (none, [pos])
      else if config (pos + 1) = usbDescInterface then
        if config (pos + 5) = interfaceClass then
          afterReads [pos, pos + 1, pos + 5]
            ((collect bulk config total fuel (config.advance pos) ⟨pos, none, none⟩).map
              fun (found, reads) => (some found, reads))
        else
          afterReads [pos, pos + 1, pos + 5]
            (findInterface interfaceClass bulk config total fuel (config.advance pos))
      else
        afterReads [pos, pos + 1]
          (findInterface interfaceClass bulk config total fuel (config.advance pos))
    else some (none, [])

def findHidInterface (config : ConfigData) (totalLen : UInt16) (fuel : Nat) :
    Option (Option Found × List Nat) :=
  config.findInterface 0x03 false totalLen.toNat fuel 0

def findMscInterface (config : ConfigData) (totalLen : UInt16) (fuel : Nat) :
    Option (Option Found × List Nat) :=
  config.findInterface 0x08 true totalLen.toNat fuel 0

/-! ## What the records say -/

/-- A record starts here. -/
def isRecord (config : ConfigData) (total pos : Nat) : Bool := pos < total && config pos != 0

def isInterface (config : ConfigData) (pos : Nat) : Bool := config (pos + 1) == usbDescInterface

def isWanted (interfaceClass : UInt8) (config : ConfigData) (pos : Nat) : Bool :=
  config.isInterface pos && config (pos + 5) == interfaceClass

/-- An endpoint of this direction, and a bulk one if these are wanted. -/
def isEndpoint (bulk toHost : Bool) (config : ConfigData) (pos : Nat) : Bool :=
  config (pos + 1) == usbDescEndpoint && (!bulk || config (pos + 3) &&& 0x03 == 0x02) &&
    (config (pos + 2) &&& 0x80 != 0) == toHost

/-- The records from `pos` on, each where the one before it ends, and where the last one ends. -/
def records (config : ConfigData) (total pos : Nat) : List Nat × Nat :=
  walk (fun p => p + (config p).toNat) (config.isRecord total) total pos

/-- The records behind an interface, up to the next interface. -/
def interfaceRecords (config : ConfigData) (total iface : Nat) : List Nat :=
  (config.records total (iface + (config iface).toNat)).1.takeWhile (!config.isInterface ·)

/-- **What is to be found**: the first interface of the class, and its first endpoints. -/
structure Faithful (interfaceClass : UInt8) (bulk : Bool) (config : ConfigData) (total : Nat)
    (found : Found) : Prop where
  iface : (config.records total 0).1.find? (config.isWanted interfaceClass) = some found.iface
  epIn : found.epIn =
    (config.interfaceRecords total found.iface).find? (config.isEndpoint bulk true)
  epOut : found.epOut =
    (config.interfaceRecords total found.iface).find? (config.isEndpoint bulk false)

/-- The function returns, has read below `total` only, and what it has found is right. -/
def Correct (interfaceClass : UInt8) (bulk : Bool) (config : ConfigData) (total : Nat)
    (find : Nat → Option (Option Found × List Nat)) : Prop :=
  ∃ fuel result reads, find fuel = some (result, reads) ∧ (∀ i ∈ reads, i < total) ∧
    ∀ found, result = some found → config.Faithful interfaceClass bulk total found

/-! ## What a turn does -/

/-- The inner loop goes on. -/
def Passes (config : ConfigData) (total pos : Nat) : Prop :=
  config.isRecord total pos = true ∧ config.isInterface pos = false

/-- The outer loop goes on. -/
def Skips (interfaceClass : UInt8) (config : ConfigData) (total pos : Nat) : Prop :=
  config.isRecord total pos = true ∧ config.isWanted interfaceClass pos = false

def endpointReads (bulk : Bool) (config : ConfigData) (pos : Nat) : List Nat :=
  [pos, pos + 1] ++
    if config (pos + 1) = usbDescEndpoint then
      if bulk ∧ config (pos + 3) &&& 0x03 ≠ 0x02 then [pos + 3]
      else (if bulk then [pos + 3] else []) ++ [pos + 2]
    else []

def takeAt (bulk : Bool) (config : ConfigData) (found : Found) (pos : Nat) : Found :=
  if config (pos + 1) = usbDescEndpoint ∧ ¬ (bulk ∧ config (pos + 3) &&& 0x03 ≠ 0x02) then
    found.take (config (pos + 2)) pos
  else found

def headerReads (config : ConfigData) (pos : Nat) : List Nat :=
  [pos, pos + 1] ++ if config.isInterface pos then [pos + 5] else []

/-- Where a loop ends. -/
def endReads (config : ConfigData) (total pos : Nat) : List Nat :=
  if pos < total then if config pos = 0 then [pos] else [pos, pos + 1] else []

variable {interfaceClass : UInt8} {bulk : Bool} {config : ConfigData} {total : Nat}

theorem isRecord_iff {pos : Nat} :
    config.isRecord total pos = true ↔ pos < total ∧ config pos ≠ 0 := by
  simp [isRecord]

theorem isInterface_iff {pos : Nat} :
    config.isInterface pos = true ↔ config (pos + 1) = usbDescInterface := by
  simp [isInterface]

theorem collect_passes {pos : Nat} (h : config.Passes total pos) (fuel : Nat) (found : Found) :
    collect bulk config total (fuel + 1) pos found =
      afterReads (config.endpointReads bulk pos)
        (collect bulk config total fuel (config.advance pos) (config.takeAt bulk found pos)) := by
  obtain ⟨hrecord, hinterface⟩ := h
  obtain ⟨hpos, hlen⟩ := isRecord_iff.mp hrecord
  have hinterface' : config (pos + 1) ≠ usbDescInterface := by
    simpa [isInterface] using hinterface
  rw [collect, if_pos hpos, if_neg hlen]
  unfold endpointReads takeAt
  by_cases hendpoint : config (pos + 1) = usbDescEndpoint
  · by_cases hskip : bulk ∧ config (pos + 3) &&& 0x03 ≠ 0x02
    · rw [if_pos hendpoint, if_pos hskip, if_pos hendpoint, if_pos hskip,
        if_neg fun htake => htake.2 hskip]
      rfl
    · simp only [hendpoint, hskip, ↓reduceIte, not_false_eq_true, and_self, List.append_assoc]
  · simp only [hendpoint, hinterface', ↓reduceIte, false_and, List.append_nil]

/-- Where the inner loop ends. -/
theorem collect_end {pos : Nat} (h : ¬ config.Passes total pos) (fuel : Nat) (found : Found) :
    collect bulk config total (fuel + 1) pos found =
      some (found, config.endReads total pos) := by
  rw [collect]
  unfold endReads
  by_cases hpos : pos < total
  · by_cases hlen : config pos = 0
    · rw [if_pos hpos, if_pos hlen, if_pos hpos, if_pos hlen]
    · have hinterface : config (pos + 1) = usbDescInterface := by
        by_contra hne
        refine h ⟨isRecord_iff.mpr ⟨hpos, hlen⟩, ?_⟩
        rwa [← Bool.not_eq_true, isInterface_iff]
      have hendpoint : config (pos + 1) ≠ usbDescEndpoint := by
        rw [hinterface]
        decide
      rw [if_pos hpos, if_neg hlen, if_neg hendpoint, if_pos hinterface, if_pos hpos, if_neg hlen]
  · rw [if_neg hpos, if_neg hpos]

/-- **The inner loop** is a walk. -/
theorem collect_of_walk {pos z : Nat} {qs : List Nat}
    (h : Walk config.advance (config.Passes total) pos qs z) (found : Found) :
    collect bulk config total (qs.length + 1) pos found =
      some (qs.foldl (config.takeAt bulk) found,
        qs.flatMap (config.endpointReads bulk) ++ config.endReads total z) := by
  induction qs generalizing pos found with
  | nil =>
    obtain ⟨rfl, hz⟩ := walk_nil.mp h
    exact collect_end hz 0 found
  | cons q qs ih =>
    obtain ⟨rfl, hq, hrest⟩ := walk_cons.mp h
    rw [List.length_cons, collect_passes hq, ih hrest, List.foldl_cons, List.flatMap_cons,
      List.append_assoc]
    rfl

theorem walk_of_collect {fuel pos : Nat} {found found' : Found} {reads : List Nat}
    (h : collect bulk config total fuel pos found = some (found', reads)) :
    ∃ qs z, Walk config.advance (config.Passes total) pos qs z ∧
      found' = qs.foldl (config.takeAt bulk) found ∧
      reads = qs.flatMap (config.endpointReads bulk) ++ config.endReads total z := by
  induction fuel generalizing pos found reads with
  | zero => exact absurd h.symm (Option.some_ne_none _)
  | succ fuel ih =>
    by_cases hpass : config.Passes total pos
    · rw [collect_passes hpass] at h
      obtain ⟨⟨r, rs⟩, hr, heq⟩ := Option.map_eq_some_iff.mp h
      obtain ⟨rfl, rfl⟩ := Prod.mk.inj heq
      obtain ⟨qs, z, hwalk, rfl, rfl⟩ := ih hr
      refine ⟨pos :: qs, z, walk_cons.mpr ⟨rfl, hpass, hwalk⟩, rfl, ?_⟩
      rw [List.flatMap_cons, List.append_assoc]
    · rw [collect_end hpass] at h
      obtain ⟨rfl, rfl⟩ := Prod.mk.inj (Option.some.inj h)
      exact ⟨[], pos, walk_nil.mpr ⟨rfl, hpass⟩, rfl, rfl⟩

theorem findInterface_skips {pos : Nat} (h : config.Skips interfaceClass total pos) (fuel : Nat) :
    findInterface interfaceClass bulk config total (fuel + 1) pos =
      afterReads (config.headerReads pos)
        (findInterface interfaceClass bulk config total fuel (config.advance pos)) := by
  obtain ⟨hrecord, hwanted⟩ := h
  obtain ⟨hpos, hlen⟩ := isRecord_iff.mp hrecord
  rw [findInterface, if_pos hpos, if_neg hlen]
  unfold headerReads
  by_cases hinterface : config.isInterface pos = true
  · have hclass : config (pos + 5) ≠ interfaceClass := by
      simpa [isWanted, hinterface] using hwanted
    rw [if_pos (isInterface_iff.mp hinterface), if_neg hclass, if_pos hinterface]
    rfl
  · rw [if_neg (isInterface_iff.not.mp hinterface), if_neg hinterface]
    rfl

theorem findInterface_end {pos : Nat} (h : config.isRecord total pos = false) (fuel : Nat) :
    findInterface interfaceClass bulk config total (fuel + 1) pos =
      some (none, config.endReads total pos) := by
  rw [findInterface]
  unfold endReads
  by_cases hpos : pos < total
  · have hlen : config pos = 0 := by
      by_contra hne
      exact Bool.noConfusion (h.symm.trans (isRecord_iff.mpr ⟨hpos, hne⟩))
    rw [if_pos hpos, if_pos hlen, if_pos hpos, if_pos hlen]
  · rw [if_neg hpos, if_neg hpos]

theorem findInterface_wanted {pos : Nat} (hrecord : config.isRecord total pos = true)
    (hwanted : config.isWanted interfaceClass pos = true) (fuel : Nat) :
    findInterface interfaceClass bulk config total (fuel + 1) pos =
      afterReads [pos, pos + 1, pos + 5]
        ((collect bulk config total fuel (config.advance pos) ⟨pos, none, none⟩).map
          fun (found, reads) => (some found, reads)) := by
  obtain ⟨hpos, hlen⟩ := isRecord_iff.mp hrecord
  obtain ⟨hinterface, hclass⟩ := Bool.and_eq_true_iff.mp hwanted
  rw [findInterface, if_pos hpos, if_neg hlen, if_pos (isInterface_iff.mp hinterface),
    if_pos (beq_iff_eq.mp hclass)]

/-- Where the interface of the class is found, the inner loop has run. -/
theorem collect_of_wanted {pos fuel : Nat} {result : Option Found} {reads : List Nat}
    (hrecord : config.isRecord total pos = true)
    (hwanted : config.isWanted interfaceClass pos = true)
    (h : findInterface interfaceClass bulk config total (fuel + 1) pos = some (result, reads)) :
    ∃ found rs, collect bulk config total fuel (config.advance pos) ⟨pos, none, none⟩ =
        some (found, rs) ∧
      result = some found ∧ reads = [pos, pos + 1, pos + 5] ++ rs := by
  rw [findInterface_wanted hrecord hwanted] at h
  obtain ⟨⟨r, rs⟩, hr, heq⟩ := Option.map_eq_some_iff.mp h
  obtain ⟨⟨found, rs'⟩, hcollect, heq'⟩ := Option.map_eq_some_iff.mp hr
  obtain ⟨rfl, rfl⟩ := Prod.mk.inj heq
  obtain ⟨rfl, rfl⟩ := Prod.mk.inj heq'
  exact ⟨found, rs', hcollect, rfl, rfl⟩

theorem afterReads_afterReads {α : Type} (reads reads' : List Nat) (r : Option (α × List Nat)) :
    afterReads reads (afterReads reads' r) = afterReads (reads ++ reads') r := by
  cases r with
  | none => rfl
  | some r => simp [afterReads]

/-- **The outer loop** is a walk, and then one more turn. -/
theorem findInterface_of_walk {pos z : Nat} {ps : List Nat}
    (h : Walk config.advance (config.Skips interfaceClass total) pos ps z) (fuel : Nat) :
    findInterface interfaceClass bulk config total (ps.length + fuel) pos =
      afterReads (ps.flatMap config.headerReads)
        (findInterface interfaceClass bulk config total fuel z) := by
  induction ps generalizing pos with
  | nil =>
    obtain ⟨rfl, -⟩ := walk_nil.mp h
    rw [List.length_nil, Nat.zero_add]
    cases findInterface interfaceClass bulk config total fuel pos <;> rfl
  | cons p ps ih =>
    obtain ⟨rfl, hp, hrest⟩ := walk_cons.mp h
    have hfuel : (pos :: ps).length + fuel = ps.length + fuel + 1 := by
      rw [List.length_cons]
      omega
    rw [hfuel, findInterface_skips hp, ih hrest, afterReads_afterReads, List.flatMap_cons]

theorem walk_of_findInterface {fuel pos : Nat} {result : Option Found} {reads : List Nat}
    (h : findInterface interfaceClass bulk config total fuel pos = some (result, reads)) :
    ∃ ps z fuel' rest, Walk config.advance (config.Skips interfaceClass total) pos ps z ∧
      findInterface interfaceClass bulk config total (fuel' + 1) z = some (result, rest) ∧
      reads = ps.flatMap config.headerReads ++ rest := by
  induction fuel generalizing pos reads with
  | zero => exact absurd h.symm (Option.some_ne_none _)
  | succ fuel ih =>
    by_cases hskip : config.Skips interfaceClass total pos
    · rw [findInterface_skips hskip] at h
      obtain ⟨⟨r, rs⟩, hr, heq⟩ := Option.map_eq_some_iff.mp h
      obtain ⟨rfl, rfl⟩ := Prod.mk.inj heq
      obtain ⟨ps, z, fuel', rest, hwalk, hend, rfl⟩ := ih hr
      refine ⟨pos :: ps, z, fuel', rest, walk_cons.mpr ⟨rfl, hskip, hwalk⟩, hend, ?_⟩
      rw [List.flatMap_cons, List.append_assoc]
    · exact ⟨[], pos, fuel, reads, walk_nil.mpr ⟨rfl, hskip⟩, h, rfl⟩

/-! ## What is looked at -/

/-- The bytes of a record that the outer loop looks at are inside. -/
def HeaderInside (config : ConfigData) (total pos : Nat) : Prop :=
  pos + 1 < total ∧ (config.isInterface pos = true → pos + 5 < total)

/-- The bytes of a record that the inner loop looks at are inside. -/
def EndpointInside (bulk : Bool) (config : ConfigData) (total pos : Nat) : Prop :=
  pos + 1 < total ∧
    (config (pos + 1) = usbDescEndpoint → pos + (if bulk then 3 else 2) < total)

theorem headerReads_lt_iff {pos : Nat} :
    (∀ i ∈ config.headerReads pos, i < total) ↔ config.HeaderInside total pos := by
  unfold headerReads HeaderInside
  by_cases hinterface : config.isInterface pos = true
  · simp [hinterface]
    omega
  · simp [hinterface]
    omega

theorem endpointReads_lt_iff {pos : Nat} :
    (∀ i ∈ config.endpointReads bulk pos, i < total) ↔ config.EndpointInside bulk total pos := by
  unfold endpointReads EndpointInside
  by_cases hendpoint : config (pos + 1) = usbDescEndpoint
  · cases bulk with
    | true =>
      by_cases hskip : config (pos + 3) &&& 0x03 = 0x02
      · simp [hendpoint, hskip]
        omega
      · simp [hendpoint, hskip]
        omega
    | false =>
      simp [hendpoint]
      omega
  · simp [hendpoint]
    omega

theorem endReads_lt_iff {pos : Nat} :
    (∀ i ∈ config.endReads total pos, i < total) ↔
      (config.isRecord total pos = true → pos + 1 < total) := by
  unfold endReads
  rw [isRecord_iff]
  by_cases hpos : pos < total
  · by_cases hlen : config pos = 0
    · simp [hpos, hlen]
    · simp [hpos, hlen]
  · simp [hpos]

theorem takeAt_eq (found : Found) (pos : Nat) :
    config.takeAt bulk found pos =
      ⟨found.iface, found.epIn.or (if config.isEndpoint bulk true pos then some pos else none),
        found.epOut.or (if config.isEndpoint bulk false pos then some pos else none)⟩ := by
  obtain ⟨iface, epIn, epOut⟩ := found
  unfold takeAt
  by_cases hendpoint : config (pos + 1) = usbDescEndpoint ∧
      ¬ (bulk ∧ config (pos + 3) &&& 0x03 ≠ 0x02)
  · have hkind : (!bulk || config (pos + 3) &&& 0x03 == 0x02) = true := by
      cases bulk with
      | true => simpa using hendpoint.2
      | false => rfl
    rw [if_pos hendpoint]
    unfold isEndpoint Found.take
    simp only [hendpoint.1, hkind, beq_self_eq_true, Bool.true_and]
    by_cases hin : config (pos + 2) &&& 0x80 = 0
    · cases epOut <;> simp [hin]
    · cases epIn <;> simp [hin]
  · have hnone : ∀ toHost, config.isEndpoint bulk toHost pos = false := by
      intro toHost
      rw [← Bool.not_eq_true]
      intro h
      unfold isEndpoint at h
      rw [Bool.and_eq_true, Bool.and_eq_true, beq_iff_eq] at h
      refine hendpoint ⟨h.1.1, fun hskip => ?_⟩
      simp [hskip.1, hskip.2] at h
    rw [if_neg hendpoint, hnone, hnone]
    simp

/-- The endpoints that the inner loop keeps are the first ones. -/
theorem foldl_takeAt (qs : List Nat) (found : Found) :
    qs.foldl (config.takeAt bulk) found =
      ⟨found.iface, found.epIn.or (qs.find? (config.isEndpoint bulk true)),
        found.epOut.or (qs.find? (config.isEndpoint bulk false))⟩ := by
  have hcons : ∀ (p : Nat → Bool) (q : Nat) (qs : List Nat),
      (q :: qs).find? p = (if p q then some q else none).or (qs.find? p) := by
    intro p q qs
    rw [List.find?_cons]
    cases p q <;> rfl
  induction qs generalizing found with
  | nil => simp
  | cons q qs ih => rw [List.foldl_cons, ih, takeAt_eq, hcons, hcons, Option.or_assoc, Option.or_assoc]

/-! ## The condition -/

/-- Each record behind the interface is inside as far as it is looked at. Where a position passes
2^16 before the next interface, the walk that goes on from the start of the array ends, and finds
only endpoints of directions that have one. -/
structure EndpointsIntact (bulk : Bool) (config : ConfigData) (total iface : Nat) : Prop where
  inside : ∀ q ∈ config.interfaceRecords total iface, config.EndpointInside bulk total q
  next : ∀ i, (config.records total (iface + (config iface).toNat)).1.find? config.isInterface =
    some i → i + 1 < total
  rest : (config.records total (iface + (config iface).toNat)).1.find? config.isInterface = none →
    ∃ rs z, Walk config.advance (config.Passes total)
        ((config.records total (iface + (config iface).toNat)).2 % 2 ^ 16) rs z ∧
      (∀ q ∈ rs, config.EndpointInside bulk total q) ∧
      (config.isRecord total z = true → z + 1 < total) ∧
      ∀ toHost, (config.interfaceRecords total iface).find? (config.isEndpoint bulk toHost) = none →
        rs.find? (config.isEndpoint bulk toHost) = none

/-- **The condition**: each record up to the interface of the class is inside as far as it is looked
at, and so are those behind it. Where a position passes 2^16 and there is no such interface, the
walk that goes on from the start of the array ends, and finds none. -/
structure Intact (interfaceClass : UInt8) (bulk : Bool) (config : ConfigData) (total : Nat) : Prop
    where
  header : ∀ p ∈ (config.records total 0).1.takeWhile (!config.isWanted interfaceClass ·),
    config.HeaderInside total p
  unfound : (config.records total 0).1.find? (config.isWanted interfaceClass) = none →
    ∃ rs z, Walk config.advance (config.Skips interfaceClass total)
        ((config.records total 0).2 % 2 ^ 16) rs z ∧
      (∀ p ∈ rs, config.HeaderInside total p) ∧ config.isRecord total z = false
  found : ∀ w, (config.records total 0).1.find? (config.isWanted interfaceClass) = some w →
    w + 5 < total ∧ EndpointsIntact bulk config total w

/-! ## The records and the walks -/

theorem records_walk (config : ConfigData) (total pos : Nat) :
    Walk (fun p => p + (config p).toNat) (config.isRecord total · = true) pos
      (config.records total pos).1 (config.records total pos).2 := by
  refine walk_spec total (fun p hp => ?_) total pos (by omega)
  obtain ⟨hlt, hlen⟩ := isRecord_iff.mp hp
  have hpos : (config p).toNat ≠ 0 := fun hzero => hlen (UInt8.toNat_inj.mp hzero)
  omega

/-- A cell that a loop stops at, among the records, is below 2^16. -/
theorem record_of_find (htotal : total < 2 ^ 16) {pos s : Nat} {stop : Nat → Bool}
    (h : (config.records total pos).1.find? stop = some s) :
    config.isRecord total s = true ∧ stop s = true ∧ s % 2 ^ 16 = s := by
  have hrecord := (config.records_walk total pos).2.1 s (List.mem_of_find?_eq_some h)
  exact ⟨hrecord, List.find?_some h, Nat.mod_eq_of_lt (by have := (isRecord_iff.mp hrecord).1; omega)⟩

theorem walk_skips_iff (htotal : total < 2 ^ 16) {ps : List Nat} {z : Nat} :
    Walk config.advance (config.Skips interfaceClass total) 0 ps z ↔
      ∃ rs, ps = (config.records total 0).1.takeWhile (!config.isWanted interfaceClass ·) ++ rs ∧
        Walk config.advance (config.Skips interfaceClass total)
          (((config.records total 0).1.find? (config.isWanted interfaceClass)).getD
            (config.records total 0).2 % 2 ^ 16) rs z := by
  have hwalk := (config.records_walk total 0).until (config.isWanted interfaceClass)
  refine hwalk.mod_iff fun p hp => ?_
  have hlt := (isRecord_iff.mp hp.1).1
  omega

theorem walk_passes_iff (htotal : total < 2 ^ 16) {iface : Nat} {qs : List Nat} {z : Nat} :
    Walk config.advance (config.Passes total) (config.advance iface) qs z ↔
      ∃ rs, qs = config.interfaceRecords total iface ++ rs ∧
        Walk config.advance (config.Passes total)
          (((config.records total (iface + (config iface).toNat)).1.find? config.isInterface).getD
            (config.records total (iface + (config iface).toNat)).2 % 2 ^ 16) rs z := by
  have hwalk := (config.records_walk total (iface + (config iface).toNat)).until config.isInterface
  refine hwalk.mod_iff fun p hp => ?_
  have hlt := (isRecord_iff.mp hp.1).1
  omega

/-! ## Right if and only if intact -/

/-- **The inner loop**, from interface `iface`. -/
theorem collect_right_iff (htotal : total < 2 ^ 16) (iface : Nat) :
    (∃ fuel found reads,
        collect bulk config total fuel (config.advance iface) ⟨iface, none, none⟩ =
          some (found, reads) ∧
        (∀ i ∈ reads, i < total) ∧ found.iface = iface ∧
        found.epIn = (config.interfaceRecords total iface).find? (config.isEndpoint bulk true) ∧
        found.epOut = (config.interfaceRecords total iface).find? (config.isEndpoint bulk false)) ↔
      EndpointsIntact bulk config total iface := by
  constructor
  · rintro ⟨fuel, found, reads, hcollect, hreads, -, hin, hout⟩
    obtain ⟨qs, z, hwalk, rfl, rfl⟩ := walk_of_collect hcollect
    obtain ⟨rs, rfl, hrest⟩ := (walk_passes_iff htotal).mp hwalk
    rw [foldl_takeAt] at hin hout
    rw [List.forall_mem_append, endReads_lt_iff] at hreads
    obtain ⟨hlooks, hend⟩ := hreads
    have hinside : ∀ q ∈ config.interfaceRecords total iface ++ rs,
        config.EndpointInside bulk total q := fun q hq =>
      endpointReads_lt_iff.mp fun i hi => hlooks i (List.mem_flatMap.mpr ⟨q, hq, hi⟩)
    rw [List.forall_mem_append] at hinside
    refine ⟨hinside.1, fun i hi => ?_, fun hnone => ?_⟩
    · obtain ⟨hrecord, hinterface, hmod⟩ := record_of_find htotal hi
      rw [hi, Option.getD_some, hmod] at hrest
      have hstop : ¬ config.Passes total i := fun h => by simp [h.2] at hinterface
      obtain ⟨-, rfl⟩ := hrest.eq_nil hstop
      exact hend hrecord
    · rw [hnone, Option.getD_none] at hrest
      refine ⟨rs, z, hrest, hinside.2, hend, fun toHost hfirst => ?_⟩
      cases toHost with
      | true => simpa [List.find?_append, hfirst] using hin
      | false => simpa [List.find?_append, hfirst] using hout
  · rintro ⟨hinside, hnext, hrest⟩
    obtain ⟨rs, z, hwalk, hinside', hend, hfirst⟩ : ∃ rs z,
        Walk config.advance (config.Passes total)
          (((config.records total (iface + (config iface).toNat)).1.find? config.isInterface).getD
            (config.records total (iface + (config iface).toNat)).2 % 2 ^ 16) rs z ∧
        (∀ q ∈ rs, config.EndpointInside bulk total q) ∧
        (config.isRecord total z = true → z + 1 < total) ∧
        ∀ toHost, (config.interfaceRecords total iface).find? (config.isEndpoint bulk toHost) =
          none → rs.find? (config.isEndpoint bulk toHost) = none := by
      cases hi : (config.records total (iface + (config iface).toNat)).1.find? config.isInterface with
      | none => exact hrest hi
      | some i =>
        obtain ⟨hrecord, hinterface, hmod⟩ := record_of_find htotal hi
        have hstop : ¬ config.Passes total i := fun h => by simp [h.2] at hinterface
        refine ⟨[], i, walk_nil.mpr ⟨hmod, hstop⟩, by simp, fun _ => hnext i hi, ?_⟩
        exact fun _ _ => List.find?_nil
    have hsame : ∀ toHost,
        (config.interfaceRecords total iface ++ rs).find? (config.isEndpoint bulk toHost) =
          (config.interfaceRecords total iface).find? (config.isEndpoint bulk toHost) := by
      intro toHost
      rw [List.find?_append]
      cases h : (config.interfaceRecords total iface).find? (config.isEndpoint bulk toHost) with
      | none => rw [hfirst toHost h, Option.none_or]
      | some q => rfl
    refine ⟨_, _, _, collect_of_walk ((walk_passes_iff htotal).mpr ⟨rs, rfl, hwalk⟩) _, ?_, ?_⟩
    · rw [List.forall_mem_append, endReads_lt_iff]
      refine ⟨fun i hi => ?_, hend⟩
      obtain ⟨q, hq, hi⟩ := List.mem_flatMap.mp hi
      refine endpointReads_lt_iff.mpr ?_ i hi
      exact (List.mem_append.mp hq).elim (hinside q) (hinside' q)
    · rw [foldl_takeAt]
      exact ⟨rfl, hsame true, hsame false⟩

/-- **Both functions are right if and only if the array is intact.** -/
theorem correct_findInterface_iff (htotal : total < 2 ^ 16) :
    config.Correct interfaceClass bulk total
        (fun fuel => config.findInterface interfaceClass bulk total fuel 0) ↔
      config.Intact interfaceClass bulk total := by
  constructor
  · rintro ⟨fuel, result, reads, hfind, hreads, hfaithful⟩
    obtain ⟨ps, z, fuel', rest, hwalk, hlast, rfl⟩ := walk_of_findInterface hfind
    obtain ⟨rs, rfl, hrest⟩ := (walk_skips_iff htotal).mp hwalk
    rw [List.forall_mem_append] at hreads
    obtain ⟨hlooks, hlooks'⟩ := hreads
    have hheader : ∀ p ∈ (config.records total 0).1.takeWhile (!config.isWanted interfaceClass ·) ++
        rs, config.HeaderInside total p := fun p hp =>
      headerReads_lt_iff.mp fun i hi => hlooks i (List.mem_flatMap.mpr ⟨p, hp, hi⟩)
    rw [List.forall_mem_append] at hheader
    refine ⟨hheader.1, fun hnone => ?_, fun w hw => ?_⟩
    · rw [hnone, Option.getD_none] at hrest
      refine ⟨rs, z, hrest, hheader.2, ?_⟩
      -- what is found behind the wrap is not the first interface of the class
      by_contra hrecord
      rw [Bool.not_eq_false] at hrecord
      have hwanted : config.isWanted interfaceClass z = true := by
        by_contra hother
        exact hrest.2.2 ⟨hrecord, Bool.eq_false_iff.mpr hother⟩
      obtain ⟨found, -, -, hfound, -⟩ := collect_of_wanted hrecord hwanted hlast
      have hfirst := (hfaithful found hfound).iface
      rw [hnone] at hfirst
      exact absurd hfirst.symm (Option.some_ne_none _)
    · obtain ⟨hrecord, hwanted, hmod⟩ := record_of_find htotal hw
      rw [hw, Option.getD_some, hmod] at hrest
      have hstop : ¬ config.Skips interfaceClass total w := fun h => by simp [h.2] at hwanted
      obtain ⟨-, rfl⟩ := hrest.eq_nil hstop
      obtain ⟨found, rs', hcollect, hfound, rfl⟩ := collect_of_wanted hrecord hwanted hlast
      obtain ⟨hiface, hin, hout⟩ := hfaithful found hfound
      rw [hw] at hiface
      have hsame : found.iface = z := (Option.some.inj hiface).symm
      rw [hsame] at hin hout
      rw [List.forall_mem_append] at hlooks'
      refine ⟨hlooks'.1 _ (by simp), (collect_right_iff htotal z).mp ?_⟩
      exact ⟨fuel', found, rs', hcollect, hlooks'.2, hsame, hin, hout⟩
  · rintro ⟨hheader, hunfound, hfound⟩
    cases hw : (config.records total 0).1.find? (config.isWanted interfaceClass) with
    | none =>
      obtain ⟨rs, z, hrest, hheader', hend⟩ := hunfound hw
      have hwalk := (walk_skips_iff htotal).mpr
        ⟨rs, rfl, by rw [hw, Option.getD_none]; exact hrest⟩
      refine ⟨_, none, _, (findInterface_of_walk hwalk 1).trans
        (congrArg _ (findInterface_end hend 0)), ?_,
        fun found h => absurd h.symm (Option.some_ne_none found)⟩
      rw [List.forall_mem_append, endReads_lt_iff, hend]
      refine ⟨fun i hi => ?_, fun h => Bool.noConfusion h⟩
      obtain ⟨p, hp, hi⟩ := List.mem_flatMap.mp hi
      refine headerReads_lt_iff.mpr ?_ i hi
      exact (List.mem_append.mp hp).elim (hheader p) (hheader' p)
    | some w =>
      obtain ⟨hrecord, hwanted, hmod⟩ := record_of_find htotal hw
      have hstop : ¬ config.Skips interfaceClass total w := fun h => by simp [h.2] at hwanted
      obtain ⟨hclass, hendpoints⟩ := hfound w hw
      obtain ⟨fuel, found, reads, hcollect, hreads, hiface, hin, hout⟩ :=
        (collect_right_iff htotal w).mpr hendpoints
      have hwalk := (walk_skips_iff htotal (z := w)).mpr
        ⟨[], rfl, by rw [hw, Option.getD_some, hmod]; exact walk_nil.mpr ⟨rfl, hstop⟩⟩
      have hturn : findInterface interfaceClass bulk config total (fuel + 1) w =
          some (some found, [w, w + 1, w + 5] ++ reads) := by
        rw [findInterface_wanted hrecord hwanted, hcollect]
        rfl
      refine ⟨_, some found, _, (findInterface_of_walk hwalk (fuel + 1)).trans
        (congrArg _ hturn), ?_, fun found' h => ?_⟩
      · rw [List.forall_mem_append, List.append_nil]
        refine ⟨fun i hi => ?_, ?_⟩
        · obtain ⟨p, hp, hi⟩ := List.mem_flatMap.mp hi
          exact headerReads_lt_iff.mpr (hheader p hp) i hi
        · rw [List.forall_mem_append]
          refine ⟨fun i hi => ?_, hreads⟩
          simp only [List.mem_cons, List.not_mem_nil, or_false] at hi
          omega
      · obtain rfl := Option.some.inj h
        rw [← hiface] at hw hin hout
        exact ⟨hw, hin, hout⟩

/-- In an array in which no position passes 2^16, the walks have no rest. -/
theorem records_end_lt (htotal : total ≤ 0xFF01) {pos : Nat} (hpos : pos < 2 ^ 16) :
    config.isRecord total ((config.records total pos).2 % 2 ^ 16) = false := by
  have hwalk := config.records_walk total pos
  have hlt : (config.records total pos).2 < 2 ^ 16 := by
    refine hwalk.end (P := (· < 2 ^ 16)) hpos fun p hp => ?_
    have hrecord := (isRecord_iff.mp hp).1
    have hlen := (config p).toNat_lt
    omega
  rw [Nat.mod_eq_of_lt hlt]
  exact Bool.eq_false_iff.mpr hwalk.2.2

/-- **The condition for the callers**, whose arrays have 256 bytes at most. -/
theorem intact_iff (htotal : total ≤ 0xFF01) :
    config.Intact interfaceClass bulk total ↔
      (∀ p ∈ (config.records total 0).1.takeWhile (!config.isWanted interfaceClass ·),
        config.HeaderInside total p) ∧
      ∀ w, (config.records total 0).1.find? (config.isWanted interfaceClass) = some w →
        w + 5 < total ∧
        (∀ q ∈ config.interfaceRecords total w, config.EndpointInside bulk total q) ∧
        ∀ i, (config.records total (w + (config w).toNat)).1.find? config.isInterface = some i →
          i + 1 < total := by
  constructor
  · rintro ⟨hheader, -, hfound⟩
    refine ⟨hheader, fun w hw => ?_⟩
    obtain ⟨hclass, hinside, hnext, -⟩ := hfound w hw
    exact ⟨hclass, hinside, hnext⟩
  · rintro ⟨hheader, hfound⟩
    refine ⟨hheader, fun _ => ?_, fun w hw => ?_⟩
    · have hend := config.records_end_lt htotal (show 0 < 2 ^ 16 by decide)
      exact ⟨[], _, walk_nil.mpr ⟨rfl, fun h => Bool.noConfusion (hend.symm.trans h.1)⟩, by simp, hend⟩
    · obtain ⟨hclass, hinside, hnext⟩ := hfound w hw
      refine ⟨hclass, hinside, hnext, fun _ => ?_⟩
      have hpos : w + (config w).toNat < 2 ^ 16 := by
        have hlen := (config w).toNat_lt
        omega
      have hend := config.records_end_lt htotal hpos
      refine ⟨[], _, walk_nil.mpr ⟨rfl, fun h => Bool.noConfusion (hend.symm.trans h.1)⟩, by simp,
        fun h => Bool.noConfusion (hend.symm.trans h), fun _ _ => List.find?_nil⟩

end ConfigData

/-- **Descriptor parsing.** For every array and `total_len`, each of the two functions returns, reads
below `total_len` only and finds the first interface of its class with its first endpoints, if and
only if the array is intact. -/
theorem find_correct_iff (config : ConfigData) (totalLen : UInt16) :
    (config.Correct 0x03 false totalLen.toNat (config.findHidInterface totalLen) ↔
        config.Intact 0x03 false totalLen.toNat) ∧
      (config.Correct 0x08 true totalLen.toNat (config.findMscInterface totalLen) ↔
        config.Intact 0x08 true totalLen.toNat) :=
  ⟨ConfigData.correct_findInterface_iff totalLen.toNat_lt,
    ConfigData.correct_findInterface_iff totalLen.toNat_lt⟩

/-- A configuration whose second record has only its length byte: its type is read behind the end. -/
theorem cut_off_record_read :
    let config : ConfigData := fun i => [9, 2, 10, 0, 1, 1, 0, 0x80, 50, 9].getD i 0
    ¬ config.Correct 0x03 false (10 : UInt16).toNat (config.findHidInterface 10) ∧
      ¬ config.Correct 0x08 true (10 : UInt16).toNat (config.findMscInterface 10) := by
  intro config
  have hrecord : ∀ (interfaceClass : UInt8) (bulk : Bool), interfaceClass = 0x03 ∨
      interfaceClass = 0x08 → ¬ config.Intact interfaceClass bulk (10 : UInt16).toNat := by
    rintro interfaceClass bulk (rfl | rfl) hintact
    · exact absurd (hintact.header 9 (by decide)).1 (by decide)
    · exact absurd (hintact.header 9 (by decide)).1 (by decide)
  constructor
  · exact fun h => hrecord 0x03 false (Or.inl rfl)
      ((ConfigData.correct_findInterface_iff (by decide)).mp h)
  · exact fun h => hrecord 0x08 true (Or.inr rfl)
      ((ConfigData.correct_findInterface_iff (by decide)).mp h)

end HaoSys.Driver
