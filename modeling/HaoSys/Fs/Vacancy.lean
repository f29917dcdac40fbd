import HaoSys.Fs.Create
import HaoSys.Fs.Lookup

/-!
# Room for a name

`Vacancy` is a directory with a free slot for a name that it does not have, and
`Passes` is the way there through directories in which the driver's listings
stay. Once an entry stands in the slot (`Filled`) it is the first of its name,
every other name is where it was, and the way is the same, if a listing of the
directory still stays in it (`Vacancy.Room`).
-/

namespace HaoSys.Fs

open HaoSys.Lib Prog DirSlot

namespace DirSlot

variable {pre post : List DirSlot} {t t' : DirSlot} {name : Name83}

theorem live_append_of_isLive (hpre : ∀ s ∈ pre, s.entry.IsLive) (ys : List DirSlot) :
    live (pre ++ ys) = pre ++ live ys := by
  induction pre with
  | nil => rfl
  | cons s pre ih =>
    obtain ⟨h0, h5⟩ := hpre s List.mem_cons_self
    rw [List.cons_append, live_cons, if_neg h0, if_neg h5,
      ih fun x hx => hpre x (List.mem_cons_of_mem _ hx), List.cons_append]

/-- The first free slot, filled: the entry follows the live ones before it. -/
theorem live_filled (hpre : ∀ s ∈ pre, s.entry.IsLive) (hlive : t'.entry.IsLive) :
    live (pre ++ t' :: post) = pre ++ t' :: live post := by
  rw [live_append_of_isLive hpre, live_cons, if_neg hlive.1, if_neg hlive.2]

/-- Before it was filled. -/
theorem live_gap (hpre : ∀ s ∈ pre, s.entry.IsLive)
    (hfree : t.entry 0 = 0x00 ∨ t.entry 0 = 0xE5) (post : List DirSlot) :
    live (pre ++ t :: post) = pre ∨ live (pre ++ t :: post) = pre ++ live post := by
  rw [live_append_of_isLive hpre, live_cons]
  obtain h0 | h5 := hfree
  · rw [if_pos h0, List.append_nil]
    exact .inl rfl
  · rw [if_neg (by rw [h5]; decide), if_pos h5]
    exact .inr rfl

/-- Behind live entries of other names the entry that fills the slot is the first of its name. -/
theorem find?_filled_self (hpre : ∀ s ∈ pre, s.entry.IsLive)
    (hother : ∀ s ∈ pre, s.entry.upperName ≠ name) (hlen : pre.length < 128)
    (hlive : t'.entry.IsLive) (hname : t'.entry.upperName = name) (post : List DirSlot) :
    ((live (pre ++ t' :: post)).take 128).find? (fun t => t.entry.upperName = name) = some t' := by
  have hnone : pre.find? (fun t => decide (t.entry.upperName = name)) = none :=
    List.find?_eq_none.2 fun s hmem => by simpa using hother s hmem
  obtain ⟨m, hmlen⟩ : ∃ m, 128 - pre.length = m + 1 := ⟨127 - pre.length, by omega⟩
  rw [live_filled hpre hlive, List.take_append, hmlen, List.take_succ_cons,
    List.take_of_length_le (by omega), List.find?_append, hnone, Option.none_or,
    List.find?_cons_of_pos (by simpa using hname)]

/-- Another name is found where it was. -/
theorem find?_filled_other (hpre : ∀ s ∈ pre, s.entry.IsLive)
    (ht : (t.entry 0 = 0x00 ∨ t.entry 0 = 0xE5) ∨ t.entry.IsLive ∧ t.entry.upperName = name)
    (hfew : (live (pre ++ t :: post)).length < 128) (hlive : t'.entry.IsLive)
    (hname : t'.entry.upperName = name) {n : Name83} (hne : name ≠ n) {u : DirSlot}
    (hu : ((live (pre ++ t :: post)).take 128).find? (fun t => t.entry.upperName = n) = some u) :
    ((live (pre ++ t' :: post)).take 128).find? (fun t => t.entry.upperName = n) = some u := by
  rw [List.take_of_length_le (by omega)] at hu
  rw [live_filled hpre hlive]
  obtain hfree | ⟨hold, hsame⟩ := ht
  · obtain hgone | hthere := live_gap hpre hfree post
    · -- the slot was the end marker
      rw [hgone] at hu hfew
      rw [List.take_append, List.take_of_length_le (by omega), List.find?_append, hu, Option.some_or]
    · rw [hthere] at hu hfew
      rw [List.length_append] at hfew
      rw [List.take_of_length_le (by simp only [List.length_append, List.length_cons]; omega)]
      rw [List.find?_append] at hu ⊢
      rw [List.find?_cons_of_neg (by simpa [hname] using hne)]
      exact hu
  · -- the slot had the name already
    rw [live_filled hpre hold] at hu hfew
    simp only [List.length_append, List.length_cons] at hfew
    rw [List.take_of_length_le (by simp only [List.length_append, List.length_cons]; omega)]
    rw [List.find?_append] at hu ⊢
    rw [List.find?_cons_of_neg (by simpa [hsame] using hne)] at hu
    rw [List.find?_cons_of_neg (by simpa [hname] using hne)]
    exact hu

/-- What is found among the first entries is found among more of them. -/
theorem find?_of_take {xs : List DirSlot} {p : DirSlot → Bool} {u : DirSlot} {m k : Nat}
    (hmk : m ≤ k) (h : (xs.take m).find? p = some u) : (xs.take k).find? p = some u := by
  rw [← Nat.add_sub_cancel' hmk, List.take_add, List.find?_append, h, Option.some_or]

/-- Behind the new entry another name is found one slot further back. -/
theorem find?_filled_pushed (hpre : ∀ s ∈ pre, s.entry.IsLive)
    (hfree : t.entry 0 = 0x00 ∨ t.entry 0 = 0xE5) (hlen : pre.length < 128)
    (hlive : t'.entry.IsLive) (hname : t'.entry.upperName = name) {n : Name83} (hne : name ≠ n)
    {u : DirSlot}
    (hu : ((live (pre ++ t :: post)).take 127).find? (fun t => t.entry.upperName = n) = some u) :
    ((live (pre ++ t' :: post)).take 128).find? (fun t => t.entry.upperName = n) = some u := by
  rw [live_filled hpre hlive, List.take_append, List.take_of_length_le (by omega),
    List.find?_append]
  obtain hgone | hthere := live_gap hpre hfree post
  · -- the slot was the end marker
    rw [hgone, List.take_of_length_le (by omega)] at hu
    rw [hu, Option.some_or]
  · obtain ⟨m, hm⟩ : ∃ m, 128 - pre.length = m + 1 := ⟨127 - pre.length, by omega⟩
    rw [hthere, List.take_append, List.take_of_length_le (by omega), List.find?_append,
      show 127 - pre.length = m by omega] at hu
    rw [hm, List.take_succ_cons, List.find?_cons_of_neg (by simpa [hname] using hne)]
    exact hu

end DirSlot

namespace FatFs

variable {fs : FatFs} {d d' : Disk} {fuel : Nat} {dir z c lba offset : UInt32}
  {ps cs : List UInt32} {name : Name83} {pre post : List DirSlot} {t : DirSlot} {path : List UInt8}

/-! ## The directories on the path -/

/-- A listing of 128 entries does not go on behind the directory. There is nothing to go on with at
the number 1 either. -/
def Stays (fs : FatFs) (d : Disk) (dir : UInt32) (cs : List UInt32) (z : UInt32) : Prop :=
  fs.StaysIn d 128 dir cs z ∨ z = 1

/-- The directory `dir` lies in the places `cs`, of the volume and in use, and a listing of 128
entries stays in it. -/
structure Sits (fs : FatFs) (d : Disk) (dir : UInt32) (cs : List UInt32) (z : UInt32) : Prop where
  walk : fs.DirAt d dir cs z
  stays : fs.Stays d dir cs z
  places : ∀ c ∈ cs, fs.Place c
  used : ∀ c ∈ cs, c = 0 ∨ fs.table d c ≠ 0

/-- What a lookup finds in a directory in which the listing stays. -/
theorem DirAt.lookup (hd : fs.DirAt d dir cs z) (hstays : fs.StaysIn d 128 dir cs z)
    (hs : fs.Sound) (hr : ∀ a, d.readable a = true) (n : Name83) (hfuel : cs.length ≤ fuel) :
    Reads (dirFindName fuel fs dir n) d ((((live (fs.dirSlots d cs)).take 128).find?
      fun t => t.entry.upperName = n).map DirSlot.entry) := by
  have hread := hd.readDir_inside hs.sized hs.initialized hr
    (show (128 : UInt32) ≠ 0 by decide) hstays hfuel
  refine dirFindName_iff.2 ⟨_, hread, ?_⟩
  rw [show (128 : UInt32).toNat = 128 from rfl, ← List.map_take, find?_map_entry]

theorem DirAt.lookup_stays (hd : fs.DirAt d dir cs z) (hstays : fs.Stays d dir cs z)
    (hs : fs.Sound) (hr : ∀ a, d.readable a = true) (n : Name83) (hfuel : cs.length < fuel) :
    Reads (dirFindName fuel fs dir n) d ((((live (fs.dirSlots d cs)).take 128).find?
      fun t => t.entry.upperName = n).map DirSlot.entry) := by
  by_cases hin : fs.StaysIn d 128 dir cs z
  · exact hd.lookup hin hs hr n (Nat.le_of_lt hfuel)
  · -- the walk goes on at 1, and stops there
    obtain rfl : z = 1 := hstays.resolve_left hin
    obtain ⟨f, rfl⟩ : ∃ f, fuel = cs.length + f := ⟨fuel - cs.length, by omega⟩
    have hlast : fs.IsLast d 1 := .inl rfl
    refine dirFindName_iff.2 ⟨_, (hd.readDir_behind hs.sized hs.initialized hr
      (show (128 : UInt32) ≠ 0 by decide) hin f).2
      ⟨0, by omega, ⟨.inr hlast, fun j hj => absurd hj (Nat.not_lt_zero j)⟩, rfl⟩, ?_⟩
    have hseen : fs.seenTo d 1 0 = [] := by
      unfold seenTo FatFs.seen
      exact if_pos rfl
    rw [hseen, scan_nil (by simp), show (128 : UInt32).toNat = 128 from rfl, ← List.map_take,
      find?_map_entry]

theorem Sits.not_free (h : fs.Sits d dir cs z) :
    ∀ c ∈ cs, fs.Place c ∧ ¬ fs.Free d c := by
  refine fun c hc => ⟨h.places c hc, fun hfree => ?_⟩
  obtain rfl | hused := h.used c hc
  · exact absurd hfree.1.1 (by decide)
  · exact hused hfree.2

/-- The directory of a new name: `t` is its first free slot, with fewer than 128 entries before it,
and the name is not there. -/
structure Vacancy (fs : FatFs) (d : Disk) (dir : UInt32) (ps : List UInt32) (z : UInt32)
    (name : Name83) (pre : List DirSlot) (t : DirSlot) (post : List DirSlot) : Prop where
  sits : fs.Sits d dir ps z
  nodup : ps.Nodup
  split : fs.dirSlots d ps = pre ++ t :: post
  before : ∀ s ∈ pre, s.entry.IsLive
  free : t.entry 0 = 0x00 ∨ t.entry 0 = 0xE5
  near : pre.length < 128
  new : ∀ s ∈ live (fs.dirSlots d ps), s.entry.upperName ≠ name

/-- The same for a chain that ends outside the data area, with an end marker behind the slot. -/
structure Gap (fs : FatFs) (d : Disk) (dir : UInt32) (ps : List UInt32) (z : UInt32)
    (name : Name83) (pre : List DirSlot) (t : DirSlot) (post : List DirSlot) : Prop where
  sits : fs.Sits d dir ps z
  last : ¬ fs.Cluster z
  split : fs.dirSlots d ps = pre ++ t :: post
  before : ∀ s ∈ pre, s.entry.IsLive
  free : t.entry 0 = 0x00 ∨ t.entry 0 = 0xE5
  marker : ended post = true
  few : (live (fs.dirSlots d ps)).length < 128
  new : ∀ s ∈ live (fs.dirSlots d ps), s.entry.upperName ≠ name

/-- With an entry in the slot a listing of 128 entries stays in the directory: it is the fixed root
region, its chain ends where every walk does, or fewer than 128 entries precede its end marker. -/
def Vacancy.Room (fs : FatFs) (dir z : UInt32) (pre post : List DirSlot) : Prop :=
  dirStart fs dir = 0 ∨ z ≥ endOfChain ∨ z = 1 ∨
    ended post = true ∧ pre.length + (live post).length < 127

/-- A chain that ends outside the data area visits no cluster twice. -/
theorem Gap.vacancy (h : fs.Gap d dir ps z name pre t post) :
    fs.Vacancy d dir ps z name pre t post := by
  have hnear : pre.length < 128 := by
    have hfew := h.few
    rw [h.split, live_append_of_isLive h.before, List.length_append] at hfew
    omega
  refine ⟨h.sits, ?_, h.split, h.before, h.free, hnear, h.new⟩
  obtain ⟨-, rfl⟩ | ⟨hw, -⟩ := h.sits.walk
  · simp
  · refine hw.follows.nodup fun hz => ?_
    obtain h0 | hc := h.sits.places z hz
    · exact absurd (hw.valid z hz).1 (by rw [h0]; decide)
    · exact h.last hc

/-- Where a free slot that is found can be. -/
theorem slot_offset (h : DirSlot.findSlot name (fs.dirSlots d ps) = some (.free lba offset)) :
    (∃ c ∈ ps, lba ∈ fs.regionSectors c) ∧ ∃ j, j < 16 ∧ offset = UInt32.ofNat (32 * j) := by
  obtain ⟨pre, u, post, hsplit, hpick, -⟩ := findSlot_eq_some h
  obtain ⟨-, rfl, rfl⟩ := pick_eq_free hpick
  obtain ⟨c, hc, hl, j, hj, hoff, -⟩ :=
    mem_dirSlots (show u ∈ fs.dirSlots d ps by rw [hsplit]; simp)
  exact ⟨⟨c, hc, hl⟩, j, hj, hoff⟩

namespace Vacancy

theorem names (h : fs.Vacancy d dir ps z name pre t post) :
    ∀ s ∈ pre, s.entry.upperName ≠ name := by
  intro s hs
  refine h.new s ?_
  rw [h.split, live_append_of_isLive h.before]
  exact List.mem_append_left _ hs

/-- The slot that `dir_find_slot` takes. -/
theorem findSlot (h : fs.Vacancy d dir ps z name pre t post) :
    DirSlot.findSlot name (fs.dirSlots d ps) = some (.free t.lba t.offset) := by
  have hnone : DirSlot.findSlot name pre = none := List.findSome?_eq_none_iff.2 fun s hs => by
    unfold pick
    rw [if_neg (not_or.2 (h.before s hs)), if_neg (h.names s hs)]
  rw [h.split, findSlot_append, hnone, Option.none_or]
  unfold DirSlot.findSlot
  rw [List.findSome?_cons]
  unfold pick
  rw [if_pos h.free]

theorem place (h : fs.Vacancy d dir ps z name pre t post) :
    (∃ c ∈ ps, t.lba ∈ fs.regionSectors c) ∧ ∃ j, j < 16 ∧ t.offset = UInt32.ofNat (32 * j) :=
  slot_offset h.findSlot

/-- The name is not found. -/
theorem findName (h : fs.Vacancy d dir ps z name pre t post) (hs : fs.Sound)
    (hr : ∀ a, d.readable a = true) (hfuel : ps.length < fuel) :
    Reads (dirFindName fuel fs dir name) d none := by
  have hnone : ((live (fs.dirSlots d ps)).take 128).find?
      (fun t => decide (t.entry.upperName = name)) = none :=
    List.find?_eq_none.2 fun s hmem => by
      simpa using h.new s (List.mem_of_mem_take hmem)
  have hfind := h.sits.walk.lookup_stays h.sits.stays hs hr name hfuel
  rwa [hnone] at hfind

end Vacancy

/-- The directory of the new name and the directories that share nothing with it. -/
def Beside (ps cs : List UInt32) : Prop := cs = ps ∨ ∀ c ∈ cs, c ∉ ps

/-- Among how many entries of the directory in `cs` a lookup has to find a name, when the one in
`ps` gets one more. -/
def sight (ps cs : List UInt32) : Nat := if cs = ps then 127 else 128

theorem sight_le (ps cs : List UInt32) : sight ps cs ≤ 128 := by
  unfold sight
  split <;> decide

/-- Following names from `dir` through directories whose listings stay in them ends in `dir'`. -/
inductive Passes (fs : FatFs) (d : Disk) (ps : List UInt32) (dir' : UInt32) :
    List Name83 → UInt32 → Prop
  | here : Passes fs d ps dir' [] dir'
  | step {n : Name83} {ns : List Name83} {dir : UInt32} {cs : List UInt32} {z : UInt32}
      {t : DirSlot} (sits : fs.Sits d dir cs z) (beside : Beside ps cs)
      (found : ((live (fs.dirSlots d cs)).take (sight ps cs)).find?
        (fun t => t.entry.upperName = n) = some t)
      (isDir : t.entry.isDir = true) (rest : Passes fs d ps dir' ns t.entry.firstCluster) :
      Passes fs d ps dir' (n :: ns) dir

/-- The driver follows the names. -/
theorem Passes.walkDirs {ns : List Name83} (h : fs.Passes d ps dir ns c) (hs : fs.Sound)
    (hr : ∀ a, d.readable a = true) (f : Dirent) :
    ∃ f₀ f', ∀ fuel ≥ f₀, Reads (walkDirs fuel fs ns (c, f)) d (some (dir, f')) := by
  induction h generalizing f with
  | here => exact ⟨0, f, fun _ _ => .pure _⟩
  | @step n ns dir cs z t sits _ found isDir _ ih =>
    obtain ⟨f₀, f', hf⟩ := ih t.entry
    refine ⟨max f₀ (cs.length + 1), f', fun fuel hfuel => ?_⟩
    have hread := sits.walk.lookup_stays sits.stays hs hr n (show cs.length < fuel by omega)
    rw [find?_of_take (sight_le ps cs) found] at hread
    refine hread.bind ?_
    simp only [Option.map_some, isDir, if_true]
    exact hf fuel (by omega)

/-! ## The entry in the slot -/

/-- From `d` to `d'` the entry `e` of the name was put into the slot. Besides that, entries and
sectors of clusters that were free may have changed. -/
structure Filled (fs : FatFs) (d d' : Disk) (name : Name83) (t : DirSlot) (e : Dirent) : Prop where
  fills : fs.Fills (fs.Free d) (fs.Free d) t.lba t.offset e d d'
  isLive : e.IsLive
  named : e.upperName = name

section Filled

variable {dir' z' : UInt32} {e : Dirent} (h : fs.Filled d d' name t e)
  (hv : fs.Vacancy d dir ps z name pre t post) (hs : fs.Sound)

include h in
theorem Filled.dirAt (hsits : fs.Sits d dir' cs z') : fs.DirAt d' dir' cs z' :=
  hsits.walk.imp_right fun ⟨hw, hne⟩ =>
    ⟨⟨hw.follows.congr fun x hx => h.fills.table x (hsits.not_free x hx).2, hw.valid⟩, hne⟩

include h hv hs

/-- Every directory in use shows the entry, if the slot is one of its own. -/
theorem Filled.dirSlots (hcs : ∀ x ∈ cs, fs.Place x ∧ ¬ fs.Free d x) :
    fs.dirSlots d' cs = put t.lba t.offset e (fs.dirSlots d cs) := by
  obtain ⟨-, j, hj, hoff⟩ := hv.place
  exact h.fills.dirSlots hs (fun _ hc => hc.1) hj hoff hcs

theorem Filled.dirSlots_other (hcs : ∀ x ∈ cs, fs.Place x ∧ ¬ fs.Free d x)
    (hne : ∀ x ∈ cs, x ∉ ps) : fs.dirSlots d' cs = fs.dirSlots d cs := by
  rw [h.dirSlots hv hs hcs, put_of_not_mem]
  rintro s hmem ⟨hlba, -⟩
  obtain ⟨⟨x, hx, hl⟩, -⟩ := hv.place
  obtain ⟨y, hy, hl', -⟩ := mem_dirSlots hmem
  rw [hlba] at hl'
  have := hs.region_inj (hcs y hy).1 (hv.sits.places x hx) hl' hl
  exact hne y hy (this ▸ hx)

theorem Filled.parent_slots : fs.dirSlots d' ps = pre ++ ⟨t.lba, t.offset, e⟩ :: post := by
  have hapart := hs.apart (d := d) hv.sits.places hv.nodup
  rw [hv.split] at hapart
  rw [h.dirSlots hv hs hv.sits.not_free, hv.split, put_split hapart]

theorem Filled.parent_live :
    live (fs.dirSlots d' ps) = pre ++ ⟨t.lba, t.offset, e⟩ :: live post := by
  rw [h.parent_slots hv hs]
  exact live_filled hv.before h.isLive

/-- Listings of the parent still stay in it, under any number it has. -/
theorem Filled.parent_stays (hroom : Vacancy.Room fs dir z pre post) (hsits : fs.Sits d dir' ps z') :
    fs.Stays d' dir' ps z' := by
  by_cases h0 : dirStart fs dir = 0
  · -- the fixed root region
    have hroot : ps = [0] := by
      obtain ⟨-, hps⟩ | ⟨hw, hne⟩ := hv.sits.walk
      · exact hps
      · rw [h0] at hw
        exact absurd rfl (dirStart_of_walk hw hne).1
    obtain ⟨hstart, -⟩ | ⟨hw, -⟩ := hsits.walk
    · exact .inl (.inl hstart)
    · exact absurd (hw.valid 0 (by rw [hroot]; simp)).1 (by decide)
  · obtain ⟨hw, hne⟩ := hv.sits.walk.resolve_left fun hroot => h0 hroot.1
    have hw' : DirWalk fs d (dirStart fs dir') ps z' := by
      obtain ⟨-, rfl⟩ | ⟨hw', -⟩ := hsits.walk
      · exact absurd (hw.valid 0 (by simp)).1 (by decide)
      · exact hw'
    obtain rfl : z = z' := hw.follows.end_eq hw'.follows hne
    obtain hz | hz | rfl | ⟨hmark, hlt⟩ := hroom
    · exact absurd hz h0
    · exact .inl (.inr (.inr hz))
    · exact .inr rfl
    · refine .inl (.inr (.inl ⟨?_, ?_⟩))
      · rw [h.parent_slots hv hs, ended_append, ended_cons, hmark, Bool.or_true, Bool.or_true]
      · rw [h.parent_live hv hs]
        simp only [List.length_append, List.length_cons]
        omega

/-- The new entry is the first of its name. -/
theorem Filled.parent_new : ((live (fs.dirSlots d' ps)).take 128).find?
    (fun t => t.entry.upperName = name) = some ⟨t.lba, t.offset, e⟩ := by
  rw [h.parent_slots hv hs]
  exact find?_filled_self hv.before hv.names hv.near h.isLive h.named post

/-- The other names are where they were. -/
theorem Filled.parent_still {n : Name83} {u : DirSlot}
    (hu : ((live (fs.dirSlots d ps)).take 127).find? (fun t => t.entry.upperName = n) = some u) :
    ((live (fs.dirSlots d' ps)).take 128).find? (fun t => t.entry.upperName = n) = some u := by
  have hne : name ≠ n := by
    rintro rfl
    exact hv.new u (List.mem_of_mem_take (List.mem_of_find?_eq_some hu))
      (by simpa using List.find?_some hu)
  rw [hv.split] at hu
  rw [h.parent_slots hv hs]
  exact find?_filled_pushed hv.before hv.free hv.near h.isLive h.named hne hu

/-- **The new entry is found.** -/
theorem Filled.findName (hroom : Vacancy.Room fs dir z pre post) (hr : ∀ a, d'.readable a = true)
    (hfuel : ps.length < fuel) : Reads (dirFindName fuel fs dir name) d' (some e) := by
  have hlook := (h.dirAt hv.sits).lookup_stays (h.parent_stays hv hs hroom hv.sits) hs hr name hfuel
  rwa [h.parent_new hv hs] at hlook

end Filled

/-- The driver still follows the names, with fuel that does not depend on what was put there. -/
theorem Passes.walkDirs_filled {ns : List Name83} {start : UInt32}
    (h : fs.Passes d ps dir ns start) (hv : fs.Vacancy d dir ps z name pre t post) (hs : fs.Sound)
    (hroom : Vacancy.Room fs dir z pre post) :
    ∃ f₀, ∀ d' e, fs.Filled d d' name t e → (∀ a, d'.readable a = true) → ∀ f, ∃ f',
      ∀ fuel ≥ f₀, Reads (Fs.walkDirs fuel fs ns (start, f)) d' (some (dir, f')) := by
  induction h with
  | here => exact ⟨0, fun _ _ _ _ f => ⟨f, fun _ _ => .pure _⟩⟩
  | @step n ns dir₁ cs z₁ u sits beside found isDir _ ih =>
    obtain ⟨f₀, hf⟩ := ih
    refine ⟨max f₀ (cs.length + 1), fun d' e h hr f => ?_⟩
    obtain ⟨f', hf⟩ := hf d' e h hr u.entry
    refine ⟨f', fun fuel hfuel => ?_⟩
    have hread : Reads (dirFindName fuel fs dir₁ n) d' (some u.entry) := by
      obtain rfl | hne := beside
      · -- the parent itself
        rw [sight, if_pos rfl] at found
        have hlook := (h.dirAt sits).lookup_stays (h.parent_stays hv hs hroom sits) hs hr n
          (show cs.length < fuel by omega)
        rwa [h.parent_still hv hs found] at hlook
      · have hsame := h.dirSlots_other hv hs sits.not_free hne
        have hstays : fs.Stays d' dir₁ cs z₁ := by
          unfold Stays StaysIn
          rw [hsame]
          exact sits.stays
        have hlook := (h.dirAt sits).lookup_stays hstays hs hr n (show cs.length < fuel by omega)
        rwa [hsame, find?_of_take (sight_le ps cs) found] at hlook
    refine hread.bind ?_
    simp only [isDir, if_true]
    exact hf fuel (by omega)

end FatFs

end HaoSys.Fs
