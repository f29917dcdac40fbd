import HaoSys.Mm.Pmm

/-!
# The memory map from the loader to the kernel (`boot/stage2.asm`)

The loader asks the BIOS for the E820 map, lays the answers out behind 0x1010
and a Multiboot1 information block at 0x1000, and `pmm_init` reads them through
`multiboot_info_t` and `multiboot_mmap_entry_t`. The two sides agree on the
stride only: the loader writes the fields of an entry as two 32-bit halves each,
the kernel reads four 64-bit fields; and the loader puts the length and the
address of the table into the block after it has laid entries over them.

The loader runs at 0x9000. A table that reaches it overwrites the code that
writes it, so `stage2` then has no result.
-/

namespace HaoSys.Boot

open HaoSys.Lib HaoSys.Mm

/-- The 20 bytes of `e820buf`. -/
structure E820Entry where
  baseLo : UInt32
  baseHi : UInt32
  lenLo : UInt32
  lenHi : UInt32
  type : UInt32
  deriving DecidableEq

/-- The `(base, length, type)` the BIOS means. -/
def E820Entry.triple (e : E820Entry) : Nat × Nat × UInt32 :=
  (e.baseLo.toNat + 2 ^ 32 * e.baseHi.toNat, e.lenLo.toNat + 2 ^ 32 * e.lenHi.toNat, e.type)

/-! ## The loader -/

structure Stage2 where
  mem : Mem
  mmapWritePtr : UInt32
  mmapLen : UInt32
  memUpperKb : UInt32

/-- Store words one behind the other. -/
def writeWords (m : Mem) (p : UInt32) : List UInt32 → Mem
  | [] => m
  | w :: ws => writeWords (store32 m p w) (p + 4) ws

/-- The words of a table entry. -/
def E820Entry.words (e : E820Entry) : List UInt32 :=
  [20, e.baseLo, e.baseHi, e.lenLo, e.lenHi, e.type]

/-- One answer of the BIOS: the entry behind the others, and the end of the highest usable region
in `mem_upper_kb`. -/
def Stage2.push (s : Stage2) (e : E820Entry) : Option Stage2 :=
  if s.mmapWritePtr + 24 > 0x9000 then none
  else
    let upper := e.lenLo + e.baseLo
    some
      { mem := writeWords s.mem s.mmapWritePtr e.words
        mmapWritePtr := s.mmapWritePtr + 24
        mmapLen := s.mmapLen + 24
        memUpperKb := if e.type = 1 ∧ upper > s.memUpperKb then upper else s.memUpperKb }

/-- The E820 loop. An answer is the entry and the continuation value the BIOS leaves in `ebx`; the
list ends at a call that fails (carry, or no `SMAP`). -/
def e820Loop : List (E820Entry × UInt32) → Stage2 → Option Stage2
  | [], s => some s
  | (e, ebx) :: replies, s => do
    let s ← s.push e
    if ebx = 0 then some s else e820Loop replies s

/-- The entries the loop takes. -/
def returned : List (E820Entry × UInt32) → List E820Entry
  | [] => []
  | (e, ebx) :: replies => e :: if ebx = 0 then [] else returned replies

/-- The information block at 0x1000. -/
def Stage2.fillInfo (s : Stage2) : Mem :=
  let upper := (s.memUpperKb - 0x100000) >>> 10
  let m := store32 s.mem 0x1000 0x40
  let m := store32 m 0x1004 640
  let m := store32 m 0x1008 upper
  let m := store32 m (0x1000 + 44) s.mmapLen
  store32 m (0x1000 + 48) 0x1010

/-- Steps 3 and 4 of the loader. -/
def stage2 (m : Mem) (replies : List (E820Entry × UInt32)) : Option Mem := do
  let s ← e820Loop replies ⟨m, 0x1010, 0, 0⟩
  some s.fillInfo

/-! ## The kernel's side -/

/-- The fields of a `multiboot_mmap_entry_t` that `pmm_init` reads: `base_addr_low`, `length_low`
(64 bits each) and `type`. -/
def mmapEntry (m : Mem) (p : UInt32) : Nat × Nat × UInt32 :=
  (load64 m (p + 4), load64 m (p + 20), load32 m (p + 36))

/-- The MMAP walk of `pmm_init`, with the entries it sees. -/
def mmapEntries (m : Mem) (limit : UInt32) : Nat → UInt32 → Option (List (Nat × Nat × UInt32))
  | 0, _ => none
  | fuel + 1, p =>
    if p < limit then do
      let rest ← mmapEntries m limit fuel (p + load32 m p + 4)
      some (mmapEntry m p :: rest)
    else some []

/-- `mmapEntry` is what `pmm_init` marks. -/
theorem markMmapEntry_eq (s : Pmm) (p : UInt32) :
    s.markMmapEntry p =
      let (base, length, type) := mmapEntry s.mem p
      if base < 0xFFFFFFFF ∧ length > 0 then
        s.markRegion (UInt32.ofNat base) (UInt32.ofNat length) (type == 1)
      else s := rfl

/-- What the kernel reads from the block at 0x1000. -/
def handedOver (m : Mem) (fuel : Nat) : Option (List (Nat × Nat × UInt32)) :=
  if load32 m 0x1000 &&& 0x40 ≠ 0 then
    let mmapAddr := load32 m (0x1000 + 48)
    mmapEntries m (mmapAddr + load32 m (0x1000 + 44)) fuel mmapAddr
  else none

/-- The kernel sees the entries the BIOS has returned. -/
def HandsOver (m : Mem) (replies : List (E820Entry × UInt32)) : Prop :=
  ∃ image fuel, stage2 m replies = some image ∧
    handedOver image fuel = some ((returned replies).map E820Entry.triple)

/-! ## The words of the image -/

/-- Words off the written ones. -/
theorem load32_writeWords_other {m : Mem} {a : UInt32} (ha : a.toNat % 4 = 0) (ws : List UInt32) :
    ∀ {p : UInt32}, p.toNat % 4 = 0 → p.toNat + 4 * ws.length ≤ 2 ^ 32 →
      (a.toNat < p.toNat ∨ p.toNat + 4 * ws.length ≤ a.toNat) →
      load32 (writeWords m p ws) a = load32 m a := by
  induction ws generalizing m with
  | nil =>
    intro p _ _ _
    rfl
  | cons w ws ih =>
    intro p hp hlen hoff
    rw [List.length_cons] at hlen hoff
    have hne : a ≠ p := by
      rintro rfl
      omega
    rw [writeWords]
    by_cases hws : ws = []
    · subst hws
      exact load32_store32_of_aligned_ne ha hp hne
    · have hpos : 0 < ws.length := List.length_pos_iff.2 hws
      have hnext : (p + 4).toNat = p.toNat + 4 := by
        simp only [UInt32.toNat_add, UInt32.reduceToNat]
        omega
      rw [ih (by omega) (by omega) (by omega), load32_store32_of_aligned_ne ha hp hne]

/-- The written words. -/
theorem load32_writeWords {m : Mem} (ws : List UInt32) :
    ∀ {p : UInt32} {i : Nat}, p.toNat % 4 = 0 → p.toNat + 4 * ws.length ≤ 2 ^ 32 →
      (hi : i < ws.length) → load32 (writeWords m p ws) (p + UInt32.ofNat (4 * i)) = ws[i] := by
  induction ws generalizing m with
  | nil =>
    intro p i _ _ hi
    cases hi
  | cons w ws ih =>
    intro p i hp hlen hi
    rw [List.length_cons] at hlen
    rw [writeWords]
    cases i with
    | zero =>
      change load32 _ (p + 0) = w
      rw [UInt32.add_zero]
      by_cases hws : ws = []
      · subst hws
        exact load32_store32_self m p w
      · have hpos : 0 < ws.length := List.length_pos_iff.2 hws
        have hnext : (p + 4).toNat = p.toNat + 4 := by
          simp only [UInt32.toNat_add, UInt32.reduceToNat]
          omega
        rw [load32_writeWords_other hp ws (by omega) (by omega) (by omega), load32_store32_self]
    | succ i =>
      have hi' : i < ws.length := Nat.lt_of_succ_lt_succ hi
      have hnext : (p + 4).toNat = p.toNat + 4 := by
        simp only [UInt32.toNat_add, UInt32.reduceToNat]
        omega
      have haddr : p + UInt32.ofNat (4 * (i + 1)) = p + 4 + UInt32.ofNat (4 * i) := by
        rw [Nat.mul_add, UInt32.ofNat_add, UInt32.add_assoc, UInt32.add_comm (UInt32.ofNat (4 * i))]
        rfl
      rw [haddr, ih (by omega) (by omega) hi']
      rfl

theorem writeWords_append (m : Mem) (p : UInt32) (ws us : List UInt32) :
    writeWords m p (ws ++ us) =
      writeWords (writeWords m p ws) (p + UInt32.ofNat (4 * ws.length)) us := by
  induction ws generalizing m p with
  | nil =>
    change writeWords m p us = writeWords m (p + 0) us
    rw [UInt32.add_zero]
  | cons w ws ih =>
    rw [List.cons_append, writeWords, ih, writeWords, List.length_cons, Nat.mul_add,
      UInt32.ofNat_add, UInt32.add_comm (UInt32.ofNat (4 * ws.length)), ← UInt32.add_assoc]
    rfl

/-- The table of the entries. -/
def tableWords (es : List E820Entry) : List UInt32 := es.flatMap E820Entry.words

theorem length_tableWords (es : List E820Entry) : (tableWords es).length = 6 * es.length := by
  unfold tableWords
  induction es with
  | nil => rfl
  | cons e es ih =>
    rw [List.flatMap_cons, List.length_append, ih, List.length_cons]
    change 6 + _ = _
    omega

/-- Word `r` of entry `k`. -/
theorem getElem?_tableWords (es : List E820Entry) (k r : Nat) (hr : r < 6) :
    (tableWords es)[6 * k + r]? = es[k]?.bind fun e => e.words[r]? := by
  unfold tableWords
  induction es generalizing k with
  | nil => rfl
  | cons e es ih =>
    rw [List.flatMap_cons]
    cases k with
    | zero =>
      rw [Nat.mul_zero, Nat.zero_add, List.getElem?_append_left hr]
      rfl
    | succ k =>
      rw [List.getElem?_append_right (by change 6 ≤ _; omega)]
      change (es.flatMap E820Entry.words)[6 * (k + 1) + r - 6]? = _
      rw [show 6 * (k + 1) + r - 6 = 6 * k + r by omega, ih]
      rfl

/-- The loop lays the returned entries out one behind the other, if they fit below the loader. -/
theorem e820Loop_eq (replies : List (E820Entry × UInt32)) :
    ∀ {s : Stage2}, s.mmapWritePtr.toNat ≤ 0x9000 →
      (s.mmapWritePtr.toNat + 24 * (returned replies).length ≤ 0x9000 →
        ∃ upper, e820Loop replies s = some
          { mem := writeWords s.mem s.mmapWritePtr (tableWords (returned replies))
            mmapWritePtr := s.mmapWritePtr + UInt32.ofNat (24 * (returned replies).length)
            mmapLen := s.mmapLen + UInt32.ofNat (24 * (returned replies).length)
            memUpperKb := upper }) ∧
      (0x9000 < s.mmapWritePtr.toNat + 24 * (returned replies).length →
        e820Loop replies s = none) := by
  induction replies with
  | nil =>
    intro s hs
    refine ⟨fun _ => ⟨s.memUpperKb, ?_⟩, fun h => ?_⟩
    · change some s = some { s with
        mmapWritePtr := s.mmapWritePtr + 0
        mmapLen := s.mmapLen + 0 }
      rw [UInt32.add_zero, UInt32.add_zero]
    · change 0x9000 < s.mmapWritePtr.toNat + 0 at h
      omega
  | cons reply replies ih =>
    obtain ⟨e, ebx⟩ := reply
    intro s hs
    have hptr : (s.mmapWritePtr + 24).toNat = s.mmapWritePtr.toNat + 24 := by
      simp only [UInt32.toNat_add, UInt32.reduceToNat]
      omega
    have hlen : (returned ((e, ebx) :: replies)).length =
        (if ebx = 0 then [] else returned replies).length + 1 := by
      rw [returned, List.length_cons]
    have htable : tableWords (returned ((e, ebx) :: replies)) =
        e.words ++ tableWords (if ebx = 0 then [] else returned replies) := by
      rw [returned, tableWords, List.flatMap_cons]
      rfl
    rw [hlen, htable]
    by_cases hfit : s.mmapWritePtr + 24 > 0x9000
    · -- this entry already reaches the loader
      have hgt : 0x9000 < s.mmapWritePtr.toNat + 24 := hptr ▸ UInt32.lt_iff_toNat_lt.1 hfit
      refine ⟨fun h => by omega, fun _ => ?_⟩
      rw [e820Loop, Stage2.push, if_pos hfit]
      rfl
    have hle : s.mmapWritePtr.toNat + 24 ≤ 0x9000 :=
      hptr ▸ Nat.not_lt.1 fun h => hfit (UInt32.lt_iff_toNat_lt.2 h)
    obtain ⟨t, ht, htmem, htptr, htlen⟩ : ∃ t, s.push e = some t ∧
        t.mem = writeWords s.mem s.mmapWritePtr e.words ∧
        t.mmapWritePtr = s.mmapWritePtr + 24 ∧ t.mmapLen = s.mmapLen + 24 := by
      rw [Stage2.push, if_neg hfit]
      exact ⟨_, rfl, rfl, rfl, rfl⟩
    have hstep : e820Loop ((e, ebx) :: replies) s =
        if ebx = 0 then some t else e820Loop replies t := by
      rw [e820Loop, ht]
      rfl
    rw [hstep]
    have hadd : ∀ (a : UInt32) (n : Nat),
        a + UInt32.ofNat (24 * (n + 1)) = a + 24 + UInt32.ofNat (24 * n) := by
      intro a n
      rw [Nat.mul_add, UInt32.ofNat_add, UInt32.add_assoc, UInt32.add_comm (UInt32.ofNat (24 * n))]
      rfl
    have hwords : ∀ ws : List UInt32, writeWords s.mem s.mmapWritePtr (e.words ++ ws) =
        writeWords t.mem t.mmapWritePtr ws := by
      intro ws
      rw [writeWords_append, htmem, htptr]
      rfl
    simp only [hadd, hwords]
    split
    · refine ⟨fun _ => ⟨t.memUpperKb, ?_⟩, fun h => ?_⟩
      · change some t = some { t with
          mmapWritePtr := s.mmapWritePtr + 24 + 0
          mmapLen := s.mmapLen + 24 + 0 }
        rw [UInt32.add_zero, UInt32.add_zero, ← htptr, ← htlen]
      · rw [List.length_nil] at h
        omega
    · obtain ⟨hsome, hnone⟩ := ih (s := t) (by rw [htptr]; omega)
      rw [htptr, htlen, hptr] at hsome
      rw [htptr, hptr] at hnone
      rw [htptr]
      exact ⟨fun h => hsome (by omega), fun h => hnone (by omega)⟩

/-! ## What the kernel reads -/

/-- The address of word `j` behind 0x1010. -/
def wordAddr (j : Nat) : UInt32 := 0x1010 + UInt32.ofNat (4 * j)

theorem wordAddr_toNat {j : Nat} (hj : j < 2 ^ 29) : (wordAddr j).toNat = 0x1010 + 4 * j := by
  unfold wordAddr
  simp only [UInt32.toNat_add, UInt32.toNat_ofNat', UInt32.reduceToNat]
  omega

theorem wordAddr_add (j i : Nat) : wordAddr j + UInt32.ofNat (4 * i) = wordAddr (j + i) := by
  unfold wordAddr
  rw [Nat.mul_add, UInt32.ofNat_add, UInt32.add_assoc]

/-- Word `j` behind 0x1010 as the loader leaves it: the table over the old memory, and the length
and the address of the table over words 7 and 8. -/
def imageWord (m : Mem) (es : List E820Entry) (j : Nat) : UInt32 :=
  if j = 7 then UInt32.ofNat (24 * es.length)
  else if j = 8 then 0x1010
  else (tableWords es)[j]?.getD (load32 m (wordAddr j))

/-- The image of a table that fits. -/
structure Laid (m : Mem) (es : List E820Entry) (image : Mem) : Prop where
  flags : load32 image 0x1000 = 0x40
  word : ∀ j, j < 0x4000 → load32 image (wordAddr j) = imageWord m es j

theorem laid_fillInfo {m : Mem} {es : List E820Entry} {s : Stage2} (hfit : es.length ≤ 1364)
    (hmem : s.mem = writeWords m 0x1010 (tableWords es))
    (hlen : s.mmapLen = UInt32.ofNat (24 * es.length)) : Laid m es s.fillInfo := by
  have htable := length_tableWords es
  have hstore : ∀ (m : Mem) (a c v : UInt32), a.toNat % 4 = 0 → c.toNat % 4 = 0 → a ≠ c →
      load32 (store32 m c v) a = load32 m a := fun m a c v ha hc hne =>
    load32_store32_of_aligned_ne ha hc hne
  have e44 : (0x1000 + 44 : UInt32) = wordAddr 7 := by decide
  have e48 : (0x1000 + 48 : UInt32) = wordAddr 8 := by decide
  refine ⟨?_, fun j hj => ?_⟩
  · unfold Stage2.fillInfo
    simp only
    rw [hstore _ _ _ _ (by decide) (by decide) (by decide),
      hstore _ _ _ _ (by decide) (by decide) (by decide),
      hstore _ _ _ _ (by decide) (by decide) (by decide),
      hstore _ _ _ _ (by decide) (by decide) (by decide), load32_store32_self]
  · have haddr := wordAddr_toNat (show j < 2 ^ 29 by omega)
    have haligned : (wordAddr j).toNat % 4 = 0 := by omega
    have hne : ∀ a : UInt32, a.toNat < 0x1010 → wordAddr j ≠ a := by
      rintro a ha rfl
      omega
    have hneWord : ∀ i, i < 2 ^ 29 → j ≠ i → wordAddr j ≠ wordAddr i := by
      intro i hi hji heq
      have := congrArg UInt32.toNat heq
      rw [haddr, wordAddr_toNat hi] at this
      omega
    unfold Stage2.fillInfo imageWord
    simp only
    rw [e44, e48, ← hlen]
    by_cases h8 : j = 8
    · subst h8
      rw [load32_store32_self]
      rfl
    rw [hstore _ _ _ _ haligned (by decide) (hneWord 8 (by decide) h8)]
    by_cases h7 : j = 7
    · subst h7
      rw [load32_store32_self]
      rfl
    rw [hstore _ _ _ _ haligned (by decide) (hneWord 7 (by decide) h7),
      hstore _ _ _ _ haligned (by decide) (hne 0x1008 (by decide)),
      hstore _ _ _ _ haligned (by decide) (hne 0x1004 (by decide)),
      hstore _ _ _ _ haligned (by decide) (hne 0x1000 (by decide)), if_neg h7, if_neg h8, hmem]
    have hbase : (0x1010 : UInt32).toNat = 0x1010 := by decide
    by_cases hin : j < (tableWords es).length
    · rw [List.getElem?_eq_getElem hin, Option.getD_some]
      exact load32_writeWords _ (by decide) (by omega) hin
    · rw [List.getElem?_eq_none (by omega), Option.getD_none]
      exact load32_writeWords_other haligned _ (by decide) (by omega) (.inr (by omega))

/-- The entries the walk sees are `n` in number and 24 bytes apart. -/
theorem mmapEntries_eq {m image : Mem} {es : List E820Entry} (h : Laid m es image)
    (hfit : es.length ≤ 1364) :
    ∀ {n k : Nat}, k + n = es.length → ∀ fuel,
      mmapEntries image (wordAddr (6 * es.length)) fuel (wordAddr (6 * k)) =
        if n < fuel then some ((List.range' k n).map fun j => mmapEntry image (wordAddr (6 * j)))
        else none := by
  intro n
  induction n with
  | zero =>
    intro k hk fuel
    rw [Nat.add_zero] at hk
    subst hk
    cases fuel with
    | zero => rfl
    | succ fuel =>
      rw [mmapEntries, if_neg (UInt32.lt_irrefl _), if_pos (Nat.succ_pos fuel)]
      rfl
  | succ n ih =>
    intro k hk fuel
    cases fuel with
    | zero => rw [mmapEntries, if_neg (Nat.not_lt_zero _)]
    | succ fuel =>
      have hlt : wordAddr (6 * k) < wordAddr (6 * es.length) := by
        rw [UInt32.lt_iff_toNat_lt, wordAddr_toNat (by omega), wordAddr_toNat (by omega)]
        omega
      have hsize : load32 image (wordAddr (6 * k)) = 20 := by
        have hget := getElem?_tableWords es k 0 (by omega)
        rw [Nat.add_zero, List.getElem?_eq_getElem (show k < es.length by omega),
          Option.bind_some] at hget
        rw [h.word _ (by omega), imageWord, if_neg (by omega), if_neg (by omega), hget]
        rfl
      have hnext : wordAddr (6 * k) + 20 + 4 = wordAddr (6 * (k + 1)) := by
        rw [UInt32.add_assoc]
        exact wordAddr_add (6 * k) 6
      rw [mmapEntries, if_pos hlt, hsize, hnext, ih (by omega), List.range'_succ, List.map_cons]
      by_cases hf : n < fuel
      · rw [if_pos hf, if_pos (Nat.succ_lt_succ hf)]
        rfl
      · rw [if_neg hf, if_neg fun h => hf (Nat.lt_of_succ_lt_succ h)]
        rfl

/-- What stands behind the last entry when the loader starts. -/
def behind (m : Mem) (es : List E820Entry) (r : Nat) : UInt32 :=
  load32 m (wordAddr (6 * es.length + r))

/-- The entries that the kernel happens to read back: the length's low word is the type, its high
word is the size field behind the entry, the type is the low word of the next entry's length, and
the second base is the pair of words the loader writes over it. -/
def Coincides (m : Mem) (es : List E820Entry) : Prop :=
  es.length ≤ 1364 ∧ ∀ k e, es[k]? = some e →
    (k = 1 → e.baseLo = UInt32.ofNat (24 * es.length) ∧ e.baseHi = 0x1010) ∧
    e.lenLo = e.type ∧
    e.lenHi = (es[k + 1]?.elim (behind m es 0) fun _ => 20) ∧
    e.type = (es[k + 1]?.elim (behind m es 3) fun f => f.lenLo)

/-- Word `r` of entry `k` in the image, where the block does not overlay it. -/
theorem imageWord_entry {m : Mem} {es : List E820Entry} {k r : Nat} {e : E820Entry} {w : UInt32}
    (he : es[k]? = some e) (hw : e.words[r]? = some w) (hr : r < 6) (hoff : k ≠ 1 ∨ r ≠ 1 ∧ r ≠ 2) :
    imageWord m es (6 * k + r) = w := by
  rw [imageWord, if_neg (by omega), if_neg (by omega), getElem?_tableWords es k r hr, he,
    Option.bind_some, hw, Option.getD_some]

/-- The two words the kernel takes from behind entry `k`. -/
theorem imageWord_next {m : Mem} {es : List E820Entry} {k r : Nat} {w : E820Entry → UInt32}
    (hk : k < es.length) (hr : r = 0 ∨ r = 3) (hw : ∀ e : E820Entry, e.words[r]? = some (w e)) :
    imageWord m es (6 * (k + 1) + r) = es[k + 1]?.elim (behind m es r) w := by
  cases he : es[k + 1]? with
  | some e => exact imageWord_entry he (hw e) (by omega) (by omega)
  | none =>
    have hlen : k + 1 = es.length := by
      have := List.getElem?_eq_none_iff.1 he
      omega
    rw [imageWord, if_neg (by omega), if_neg (by omega), getElem?_tableWords es _ r (by omega), he,
      hlen]
    rfl

theorem load64_wordAddr (m : Mem) (j : Nat) :
    load64 m (wordAddr j) =
      (load32 m (wordAddr j)).toNat + 2 ^ 32 * (load32 m (wordAddr (j + 1))).toNat := by
  rw [load64, ← wordAddr_add j 1]
  rfl

theorem pair_inj (a b c d : UInt32) :
    a.toNat + 2 ^ 32 * b.toNat = c.toNat + 2 ^ 32 * d.toNat ↔ a = c ∧ b = d := by
  rw [← UInt32.toNat_inj, ← UInt32.toNat_inj]
  have := a.toNat_lt
  have := c.toNat_lt
  omega

/-- The kernel reads entry `k` back exactly in the coincidence. -/
theorem mmapEntry_eq_triple {m image : Mem} {es : List E820Entry} (h : Laid m es image)
    (hfit : es.length ≤ 1364) {k : Nat} {e : E820Entry} (he : es[k]? = some e) :
    mmapEntry image (wordAddr (6 * k)) = e.triple ↔
      (k = 1 → e.baseLo = UInt32.ofNat (24 * es.length) ∧ e.baseHi = 0x1010) ∧
      e.lenLo = e.type ∧
      e.lenHi = (es[k + 1]?.elim (behind m es 0) fun _ => 20) ∧
      e.type = (es[k + 1]?.elim (behind m es 3) fun f => f.lenLo) := by
  have hk : k < es.length := (List.getElem?_eq_some_iff.1 he).1
  have h1 : wordAddr (6 * k) + 4 = wordAddr (6 * k + 1) := wordAddr_add (6 * k) 1
  have h5 : wordAddr (6 * k) + 20 = wordAddr (6 * k + 5) := wordAddr_add (6 * k) 5
  have h9 : wordAddr (6 * k) + 36 = wordAddr (6 * (k + 1) + 3) := wordAddr_add (6 * k) 9
  have htype : imageWord m es (6 * k + 5) = e.type :=
    imageWord_entry he rfl (by decide) (.inr (by decide))
  have hsize := imageWord_next (m := m) hk (.inl rfl) (w := fun _ => 20) fun _ => rfl
  have hlen := imageWord_next (m := m) hk (.inr rfl) (w := fun f => f.lenLo) fun _ => rfl
  unfold mmapEntry E820Entry.triple
  rw [h1, h5, h9, load64_wordAddr, load64_wordAddr, h.word _ (by omega), h.word _ (by omega),
    h.word _ (by omega), h.word _ (by omega), h.word _ (by omega), htype,
    show 6 * k + 5 + 1 = 6 * (k + 1) + 0 by omega, hsize, hlen, show 6 * k + 1 + 1 = 6 * k + 2 from rfl]
  simp only [Prod.mk.injEq, pair_inj]
  -- the base is overlaid in entry 1 only
  have hbase : (imageWord m es (6 * k + 1) = e.baseLo ∧ imageWord m es (6 * k + 2) = e.baseHi) ↔
      (k = 1 → e.baseLo = UInt32.ofNat (24 * es.length) ∧ e.baseHi = 0x1010) := by
    by_cases h1 : k = 1
    · subst h1
      change (UInt32.ofNat (24 * es.length) = e.baseLo ∧ (0x1010 : UInt32) = e.baseHi) ↔ _
      rw [eq_comm, eq_comm (a := (0x1010 : UInt32))]
      exact ⟨fun h _ => h, fun h => h rfl⟩
    · rw [imageWord_entry he (r := 1) rfl (by decide) (.inl h1),
        imageWord_entry he (r := 2) rfl (by decide) (.inl h1)]
      exact ⟨fun _ h => absurd h h1, fun _ => ⟨rfl, rfl⟩⟩
  rw [hbase, and_assoc, eq_comm (a := e.type) (b := e.lenLo), eq_comm (b := e.lenHi),
    eq_comm (b := e.type) (a := es[k + 1]?.elim (behind m es 3) fun f => f.lenLo)]

/-- **The memory map reaches the kernel only by coincidence.** -/
theorem memory_map_handed_over_iff (m : Mem) (replies : List (E820Entry × UInt32)) :
    HandsOver m replies ↔ Coincides m (returned replies) := by
  generalize hes : returned replies = es
  have hstart : (0x1010 : UInt32).toNat = 0x1010 := by decide
  obtain ⟨hsome, hnone⟩ := e820Loop_eq replies (s := ⟨m, 0x1010, 0, 0⟩) (by simp [hstart])
  rw [hes] at hsome hnone
  simp only [hstart, UInt32.zero_add] at hsome hnone
  by_cases hfit : es.length ≤ 1364
  · obtain ⟨upper, hloop⟩ := hsome (by omega)
    obtain ⟨s, hloop, hmem, hlen⟩ : ∃ s, e820Loop replies ⟨m, 0x1010, 0, 0⟩ = some s ∧
        s.mem = writeWords m 0x1010 (tableWords es) ∧
        s.mmapLen = UInt32.ofNat (24 * es.length) := ⟨_, hloop, rfl, rfl⟩
    have hlaid : Laid m es s.fillInfo := laid_fillInfo hfit hmem hlen
    have hstage : stage2 m replies = some s.fillInfo := by
      rw [stage2, hloop]
      rfl
    -- the block gives the walk its bounds
    have hover : ∀ fuel, handedOver s.fillInfo fuel =
        if es.length < fuel then
          some ((List.range' 0 es.length).map fun j => mmapEntry s.fillInfo (wordAddr (6 * j)))
        else none := by
      intro fuel
      have haddr : load32 s.fillInfo (0x1000 + 48) = 0x1010 := hlaid.word 8 (by decide)
      have hlength : load32 s.fillInfo (0x1000 + 44) = UInt32.ofNat (24 * es.length) :=
        hlaid.word 7 (by decide)
      have hlimit : 0x1010 + UInt32.ofNat (24 * es.length) = wordAddr (6 * es.length) := by
        rw [wordAddr, ← Nat.mul_assoc]
      rw [handedOver, hlaid.flags, if_pos (by decide), haddr, hlength]
      simp only
      rw [hlimit]
      exact mmapEntries_eq hlaid hfit (Nat.zero_add _) fuel
    have hread : HandsOver m replies ↔
        (List.range' 0 es.length).map (fun j => mmapEntry s.fillInfo (wordAddr (6 * j))) =
          es.map E820Entry.triple := by
      unfold HandsOver
      rw [hes]
      constructor
      · rintro ⟨image, fuel, himage, hread⟩
        rw [hstage] at himage
        cases himage
        rw [hover] at hread
        split at hread
        · exact Option.some.inj hread
        · cases hread
      · intro heq
        exact ⟨_, es.length + 1, hstage, by rw [hover, if_pos (Nat.lt_succ_self _), heq]⟩
    rw [hread, Coincides, and_iff_right hfit, List.ext_getElem?_iff]
    refine forall_congr' fun k => ?_
    rw [List.getElem?_map, List.getElem?_map]
    cases he : es[k]? with
    | none =>
      have hge := List.getElem?_eq_none_iff.1 he
      rw [List.getElem?_eq_none (by rw [List.length_range']; exact hge)]
      simp
    | some e =>
      have hk := (List.getElem?_eq_some_iff.1 he).1
      rw [List.getElem?_range' hk, Nat.zero_add, Nat.one_mul]
      simp only [Option.map_some, Option.some.injEq, forall_eq']
      exact mmapEntry_eq_triple hlaid hfit he
  · have hstage : stage2 m replies = none := by
      rw [stage2, hnone (by omega)]
      rfl
    refine iff_of_false ?_ fun h => hfit h.1
    rintro ⟨image, fuel, himage, -⟩
    rw [hstage] at himage
    cases himage

/-- 127 MB of usable memory from 1 MB on, in one entry. -/
def usableEntry : E820Entry := ⟨0x100000, 0, 0x7F00000, 0, 1⟩

/-- The kernel takes the type for the length of the region. -/
theorem memory_map_not_handed_over : ¬ HandsOver (fun _ => 0) [(usableEntry, 0)] := by
  rw [memory_map_handed_over_iff]
  intro h
  obtain ⟨-, hlen, -⟩ := h.2 0 usableEntry rfl
  exact absurd hlen (by decide)

end HaoSys.Boot
