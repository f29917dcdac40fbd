import HaoSys.Lib.Loop
import HaoSys.Mm.Memory

/-!
# The physical memory manager (`mm/pmm.c`)

A bitmap (one bit a page, 1 = free) placed at `_end`, a free list threaded
through the first word of every free page, and a page counter. The bitmap and
the links live in the memory the manager hands out, so `Pmm.mem` holds them
both; the `static` variables are the other fields.

`size_t` and pointers are 32 bits wide. A result `none` means that the code
does not return: the `hlt` loop of `pmm_init`, or a `while` loop still running
when `fuel` is used up.
-/

namespace HaoSys.Mm

open HaoSys.Lib

structure Pmm where
  mem : Mem
  bitmap : UInt32
  totalPages : UInt32
  freePages : UInt32
  totalMemory : UInt32
  freeListHead : UInt32

/-- `(uint32_t)-1`, the end of the free list. -/
def nilLink : UInt32 := 0xFFFFFFFF

def addrToIndex (addr : UInt32) : UInt32 := addr / 4096

def indexToAddr (idx : UInt32) : UInt32 := idx * 4096

namespace Pmm

/-! ## The bitmap -/

def getPageBit (s : Pmm) (idx : UInt32) : Bool :=
  (s.mem (s.bitmap + idx / 8) >>> (idx % 8).toUInt8) &&& 1 != 0

def setPageBit (s : Pmm) (idx : UInt32) (available : Bool) : Pmm :=
  let a := s.bitmap + idx / 8
  let mask : UInt8 := 1 <<< (idx % 8).toUInt8
  { s with mem := store8 s.mem a (if available then s.mem a ||| mask else s.mem a &&& ~~~mask) }

/-- `for (i = startIdx; i <= endIdx && i < total_pages; i++) body`. -/
def forPages (s : Pmm) (startIdx endIdx : UInt32) (body : UInt32 → Pmm → Pmm) : Pmm :=
  forUp startIdx.toNat (min (endIdx.toNat + 1) s.totalPages.toNat)
    (fun i => body (UInt32.ofNat i)) s

def markRegion (s : Pmm) (start length : UInt32) (available : Bool) : Pmm :=
  if length = 0 then s
  else s.forPages (addrToIndex start) (addrToIndex (start + length - 1))
    fun i t => t.setPageBit i available

/-! ## `pmm_init` -/

/-- `MULTIBOOT2_MAGIC`. -/
def multiboot2Magic : UInt32 := 0x36D76289

/-- The tag loop of a Multiboot2 information block: the last basic-meminfo tag wins. -/
def mb2Meminfo (m : Mem) (limit : UInt32) : Nat → UInt32 → UInt32 × UInt32 →
    Option (UInt32 × UInt32)
  | 0, _, _ => none
  | fuel + 1, p, mem =>
    if p + 8 ≤ limit then
      let type := load32 m p
      let size := load32 m (p + 4)
      if type = 0 ∨ size < 8 then some mem
      else
        let mem := if type = 4 ∧ size ≥ 16 then (load32 m (p + 8), load32 m (p + 12)) else mem
        mb2Meminfo m limit fuel (p + ((size + 7) &&& ~~~7)) mem
    else some mem

/-- `(mem_lower, mem_upper)` in KB. -/
def memInfo (fuel : Nat) (m : Mem) (magic infoAddr : UInt32) : Option (UInt32 × UInt32) :=
  if magic = multiboot2Magic then
    mb2Meminfo m (infoAddr + load32 m infoAddr) fuel (infoAddr + 8) (0, 0)
  else some (load32 m (infoAddr + 4), load32 m (infoAddr + 8))

/-- One `multiboot_mmap_entry_t` at `p` (packed: `size` at 0, the 64-bit
`base_addr_low` at 4 and `length_low` at 20, `type` at 36). -/
def markMmapEntry (s : Pmm) (p : UInt32) : Pmm :=
  let base := load64 s.mem (p + 4)
  let length := load64 s.mem (p + 20)
  if base < 0xFFFFFFFF ∧ length > 0 then
    s.markRegion (UInt32.ofNat base) (UInt32.ofNat length) (load32 s.mem (p + 36) == 1)
  else s

/-- The MMAP walk: entries are `size + 4` bytes apart. -/
def markMmap (limit : UInt32) : Nat → UInt32 → Pmm → Option Pmm
  | 0, _, _ => none
  | fuel + 1, p, s =>
    if p < limit then
      let t := s.markMmapEntry p
      markMmap limit fuel (p + load32 t.mem p + 4) t
    else some s

/-- `free_pages`, counted from the bitmap. -/
def countFree (s : Pmm) : UInt32 :=
  forUp 0 s.totalPages.toNat (fun i n => if s.getPageBit (UInt32.ofNat i) then n + 1 else n) 0

/-- Take the pages `startIdx, …, endIdx` away from the free ones. -/
def reservePages (s : Pmm) (startIdx endIdx : UInt32) : Pmm :=
  s.forPages startIdx endIdx fun i t =>
    if t.getPageBit i then { t.setPageBit i false with freePages := t.freePages - 1 } else t

/-- Push page `i` on the free list. -/
def pushFree (s : Pmm) (i : UInt32) : Pmm :=
  { s with mem := store32 s.mem (indexToAddr i) s.freeListHead, freeListHead := i }

def buildFreeList (s : Pmm) : Pmm :=
  forUp 0 s.totalPages.toNat
    (fun i t => if t.getPageBit (UInt32.ofNat i) then t.pushFree (UInt32.ofNat i) else t)
    { s with freeListHead := nilLink }

/-- `bitmap_size`. -/
def bitmapSize (s : Pmm) : UInt32 := (s.totalPages + 7) / 8

/-- The variables as `pmm_init` sets them from the memory size, the bitmap cleared. -/
def cleared (m : Mem) (endAddr memLower memUpper : UInt32) : Pmm :=
  let totalKb := if memLower + memUpper = 0 then 16 * 1024 else memLower + memUpper
  let totalMemory := totalKb * 1024
  let s : Pmm :=
    { mem := m, bitmap := endAddr, totalPages := totalMemory / 4096, freePages := 0
      totalMemory := totalMemory, freeListHead := nilLink }
  forUp 0 s.bitmapSize.toNat
    (fun i t => { t with mem := store8 t.mem (t.bitmap + UInt32.ofNat i) 0 }) s

/-- The end of `pmm_init`, once the regions are marked: count, take the kernel image and the
bitmap away, and thread the list. -/
def finishInit (s : Pmm) (endAddr : UInt32) : Option Pmm :=
  let s := { s with freePages := s.countFree }
  let s := s.reservePages (addrToIndex 0x100000) (addrToIndex (endAddr - 1))
  let s := s.reservePages (addrToIndex s.bitmap) (addrToIndex (s.bitmap + s.bitmapSize - 1))
  if s.freePages = 0 then none else some s.buildFreeList

/-- The MMAP part of `pmm_init` (Multiboot1 only, when bit 6 of `flags` is set). -/
def markRegions (fuel : Nat) (magic infoAddr : UInt32) (s : Pmm) : Option Pmm :=
  if magic ≠ multiboot2Magic ∧ load32 s.mem infoAddr &&& 0x40 ≠ 0 then
    let mmapAddr := load32 s.mem (infoAddr + 48)
    markMmap (mmapAddr + load32 s.mem (infoAddr + 44)) fuel mmapAddr s
  else some s

/-- `pmm_init(magic, info_addr)` with the kernel image ending at `endAddr` (`_end`). -/
def pmmInit (fuel : Nat) (endAddr magic infoAddr : UInt32) (m : Mem) : Option Pmm := do
  let (memLower, memUpper) ← memInfo fuel m magic infoAddr
  let s := cleared m endAddr memLower memUpper
  let s ← markRegions fuel magic infoAddr
    (s.markRegion 0x100000 (s.totalMemory - 0x100000) true)
  s.finishInit endAddr

/-! ## Allocation -/

/-- The link word of page `idx`. -/
def link (s : Pmm) (idx : UInt32) : UInt32 := load32 s.mem (indexToAddr idx)

/-- `pmm_alloc_page`: the page's address, or `NULL`. -/
def pmmAllocPage (s : Pmm) : UInt32 × Pmm :=
  if s.freeListHead = nilLink then (0, s)
  else
    let idx := s.freeListHead
    let s := { s with freeListHead := s.link idx }
    let s := s.setPageBit idx false
    (indexToAddr idx, { s with freePages := s.freePages - 1 })

/-- The inner loop of `pmm_alloc_contiguous`: the number `j` of free pages from `i` on,
cut off at `count` and at the last page. -/
def contiguousFrom (s : Pmm) (count i : UInt32) : Nat → UInt32 → UInt32
  | 0, j => j
  | fuel + 1, j =>
    if j < count ∧ i + j < s.totalPages ∧ s.getPageBit (i + j) then
      contiguousFrom s count i fuel (j + 1)
    else j

/-- The outer loop: the first `i` with `count` free pages in a row. -/
def findContiguous (s : Pmm) (count : UInt32) : Nat → UInt32 → Option UInt32
  | 0, _ => none
  | fuel + 1, i =>
    if i < s.totalPages then
      if s.getPageBit i then
        let j := s.contiguousFrom count i s.totalPages.toNat 1
        if j = count then some i else findContiguous s count fuel (i + j + 1)
      else findContiguous s count fuel (i + 1)
    else none

/-- Walk the free list to `target`: `(prev, cur)` where the walk stops. -/
def findPrev (s : Pmm) (target : UInt32) : Nat → UInt32 → UInt32 → Option (UInt32 × UInt32)
  | 0, _, _ => none
  | fuel + 1, prev, cur =>
    if cur ≠ nilLink ∧ cur ≠ target then findPrev s target fuel cur (s.link cur)
    else some (prev, cur)

/-- One turn of the unlinking loop: page `target` leaves the list and the bitmap. -/
def takePage (fuel : Nat) (s : Pmm) (target : UInt32) : Option Pmm := do
  let (prev, cur) ← s.findPrev target fuel nilLink s.freeListHead
  let s :=
    if cur = target then
      if prev = nilLink then { s with freeListHead := s.link cur }
      else { s with mem := store32 s.mem (indexToAddr prev) (s.link cur) }
    else s
  let s := s.setPageBit target false
  return { s with freePages := s.freePages - 1 }

/-- `for (k = 0; k < count; k++)` over `takePage`. -/
def takePages (fuel : Nat) : Nat → UInt32 → Pmm → Option Pmm
  | 0, _, s => some s
  | n + 1, i, s => do takePages fuel n (i + 1) (← s.takePage fuel i)

/-- `pmm_alloc_contiguous(count)`. -/
def pmmAllocContiguous (fuel : Nat) (s : Pmm) (count : UInt32) : Option (UInt32 × Pmm) :=
  if count = 0 then some (0, s)
  else
    match s.findContiguous count (s.totalPages.toNat + 1) 0 with
    | none => some (0, s)
    | some i => do return (indexToAddr i, ← takePages fuel count.toNat i s)

/-- `pmm_free_page(addr)`. -/
def pmmFreePage (s : Pmm) (addr : UInt32) : Pmm :=
  let idx := addrToIndex addr
  if idx ≥ s.totalPages then s
  else if s.getPageBit idx then s
  else
    let s := s.setPageBit idx true
    let s := { s with mem := store32 s.mem addr s.freeListHead, freeListHead := idx }
    { s with freePages := s.freePages + 1 }

end Pmm

end HaoSys.Mm
