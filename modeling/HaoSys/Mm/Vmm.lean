import HaoSys.Mm.Pmm

/-!
# The virtual memory manager (`mm/vmm.c`)

Two-level x86 paging. A page directory and a page table are pages of 1024
words; the kernel's own directory is the `static` array at
`kernelPageDirectory`, inside the kernel image. Every other directory and
every table is a page from the physical memory manager, so the state is the
`Pmm` and the two pointers. A pointer is an address, `NULL` is 0. Writes to
CR0/CR3 and `invlpg` leave no trace in this state.
-/

namespace HaoSys.Mm

open HaoSys.Lib

structure Vmm where
  pmm : Pmm
  kernelPageDirectory : UInt32
  currentDirectory : UInt32

def pagePresent : UInt32 := 1
def pageWrite : UInt32 := 2
def pageUser : UInt32 := 4

/-- `zero_memory(ptr, size)`. -/
def zeroMemory (m : Mem) (ptr : UInt32) (size : Nat) : Mem := fun a =>
  if (a - ptr).toNat < size then 0 else m a

/-- The value `set_entry` stores. -/
def mkEntry (physAddr flags : UInt32) : UInt32 :=
  (physAddr &&& 0xFFFFF000) ||| (flags &&& 0xFFF) ||| pagePresent

def isPresent (entry : UInt32) : Bool := entry &&& pagePresent != 0

/-- The table or page an entry points to. -/
def frameOf (entry : UInt32) : UInt32 := entry &&& 0xFFFFF000

def pdIndex (virt : UInt32) : UInt32 := virt >>> 22

def ptIndex (virt : UInt32) : UInt32 := (virt >>> 12) &&& 0x3FF

/-- `table[i]` for a directory or table at address `table`. -/
def entryAt (m : Mem) (table i : UInt32) : UInt32 := load32 m (table + 4 * i)

/-- `table[i] = e`. -/
def storeEntry (m : Mem) (table i e : UInt32) : Mem := store32 m (table + 4 * i) e

namespace Vmm

def mem (v : Vmm) : Mem := v.pmm.mem

def setMem (v : Vmm) (m : Mem) : Vmm := { v with pmm := { v.pmm with mem := m } }

/-- `pmm_alloc_page` followed by zeroing the page (`allocate_pt`). -/
def allocatePt (v : Vmm) : UInt32 × Vmm :=
  let (pt, pmm) := v.pmm.pmmAllocPage
  let v := { v with pmm := pmm }
  if pt = 0 then (0, v) else (pt, v.setMem (zeroMemory v.mem pt 4096))

/-! ## `vmm_init` -/

/-- The PTEs of identity table `i`: from slot `j` on, until physical memory ends. -/
def fillIdentity (memSize pt basePhys : UInt32) : Nat → UInt32 → Mem → Mem
  | 0, _, m => m
  | n + 1, j, m =>
    let phys := basePhys + j * 4096
    if phys ≥ memSize then m
    else fillIdentity memSize pt basePhys n (j + 1) (storeEntry m pt j (mkEntry phys pageWrite))

/-- Identity tables `i`, `i + 1`, …; `false` when a page cannot be had. -/
def identityTables : Nat → UInt32 → Vmm → Bool × Vmm
  | 0, _, v => (true, v)
  | n + 1, i, v =>
    let (pt, v) := v.allocatePt
    if pt = 0 then (false, v)
    else
      let m := fillIdentity v.pmm.totalMemory pt (i * 1024 * 4096) 1024 0 v.mem
      identityTables n (i + 1)
        (v.setMem (storeEntry m v.kernelPageDirectory i (mkEntry pt pageWrite)))

def vmmInit (v : Vmm) : Vmm :=
  let v := v.setMem (zeroMemory v.mem v.kernelPageDirectory 4096)
  let totalPages := v.pmm.totalMemory / 4096
  if totalPages = 0 then v
  else
    let numPageTables := (totalPages + 1023) / 1024
    let numPageTables := if numPageTables > 1024 then 1024 else numPageTables
    match identityTables numPageTables.toNat 0 v with
    | (false, v) => v
    | (true, v) => { v with currentDirectory := v.kernelPageDirectory }

/-! ## Directories and mappings -/

/-- Copy the kernel's PDEs from slot `i` on. -/
def copyKernelPdes (kernelDir dir : UInt32) : Nat → UInt32 → Mem → Mem
  | 0, _, m => m
  | n + 1, i, m =>
    copyKernelPdes kernelDir dir n (i + 1) (storeEntry m dir i (entryAt m kernelDir i))

/-- `vmm_create_directory`: the new directory, or `NULL`. -/
def vmmCreateDirectory (v : Vmm) : UInt32 × Vmm :=
  let (dir, v) := v.allocatePt
  if dir = 0 then (0, v)
  else (dir, v.setMem (copyKernelPdes v.kernelPageDirectory dir 1024 0 v.mem))

/-- The bound of the scans over the kernel's PDEs. -/
def kernelPdes (v : Vmm) : UInt32 :=
  let n := v.pmm.totalMemory / (1024 * 4096) + 1
  if n > 1024 then 1024 else n

/-- Whether the scan recognises `ptPhys` as a table of the kernel. -/
def isKernelTable (v : Vmm) (ptPhys : UInt32) : Bool :=
  (List.range v.kernelPdes.toNat).any fun k =>
    let pde := entryAt v.mem v.kernelPageDirectory (UInt32.ofNat k)
    isPresent pde && frameOf pde == ptPhys

/-- The end of `vmm_map_page`: an existing PTE is never overwritten. -/
def mapInTable (v : Vmm) (pt ptIdx phys flags : UInt32) : Bool × Vmm :=
  if isPresent (entryAt v.mem pt ptIdx) then (false, v)
  else (true, v.setMem (storeEntry v.mem pt ptIdx (mkEntry phys (flags ||| pagePresent))))

def vmmMapPage (v : Vmm) (dir virtAddr physAddr flags : UInt32) : Bool × Vmm :=
  if dir = 0 then (false, v)
  else
    let virt := virtAddr &&& 0xFFFFF000
    let phys := physAddr &&& 0xFFFFF000
    let pdIdx := pdIndex virt
    let pde := entryAt v.mem dir pdIdx
    if !isPresent pde then
      let (pt, v) := v.allocatePt
      if pt = 0 then (false, v)
      else
        let pdeFlags := pagePresent ||| pageWrite
        let pdeFlags := if flags &&& pageUser ≠ 0 then pdeFlags ||| pageUser else pdeFlags
        (v.setMem (storeEntry v.mem dir pdIdx (mkEntry pt pdeFlags))).mapInTable pt
          (ptIndex virt) phys flags
    else if flags &&& pageUser ≠ 0 then
      if v.isKernelTable (frameOf pde) then (false, v)
      else
        let v := v.setMem (storeEntry v.mem dir pdIdx (pde ||| pageUser))
        v.mapInTable (frameOf (entryAt v.mem dir pdIdx)) (ptIndex virt) phys flags
    else v.mapInTable (frameOf pde) (ptIndex virt) phys flags

def vmmUnmapPage (v : Vmm) (dir virtAddr : UInt32) : Bool × Vmm :=
  if dir = 0 then (false, v)
  else
    let virt := virtAddr &&& 0xFFFFF000
    let pde := entryAt v.mem dir (pdIndex virt)
    if !isPresent pde then (false, v)
    else if !isPresent (entryAt v.mem (frameOf pde) (ptIndex virt)) then (false, v)
    else (true, v.setMem (storeEntry v.mem (frameOf pde) (ptIndex virt) 0))

/-- `pmm_free_page(a)`. -/
def freePage (v : Vmm) (a : UInt32) : Vmm := { v with pmm := v.pmm.pmmFreePage a }

/-- `free_pt(pt)`, with what it passes to `pmm_free_page`. -/
def freePt (v : Vmm) (pt : UInt32) : List UInt32 × Vmm :=
  if pt = 0 then ([], v) else ([pt], v.freePage pt)

/-- The loop of `vmm_destroy_directory`, from slot `i` on. -/
def destroyTables (dir : UInt32) : Nat → UInt32 → Vmm → List UInt32 × Vmm
  | 0, _, v => ([], v)
  | n + 1, i, v =>
    let pde := entryAt v.mem dir i
    if !isPresent pde then destroyTables dir n (i + 1) v
    else if v.isKernelTable (frameOf pde) then destroyTables dir n (i + 1) v
    else
      let (freed, v) := v.freePt (frameOf pde)
      let (rest, v) := destroyTables dir n (i + 1) v
      (freed ++ rest, v)

/-- `vmm_destroy_directory`, with the addresses it passes to `pmm_free_page`, in order. -/
def vmmDestroyDirectory (v : Vmm) (dir : UInt32) : List UInt32 × Vmm :=
  if dir = 0 then ([], v)
  else
    let (freed, v) := destroyTables dir 1024 0 v
    (freed ++ [dir], v.freePage dir)

/-- `vmm_switch_directory`. -/
def vmmSwitchDirectory (v : Vmm) (dir : UInt32) : Vmm :=
  if dir = 0 then v else { v with currentDirectory := dir }

/-! ## Lookups -/

/-- The walk of `vmm_get_phys_addr`, with `none` for an unmapped address. -/
def translate (v : Vmm) (dir virtAddr : UInt32) : Option UInt32 :=
  let pde := entryAt v.mem dir (pdIndex virtAddr)
  if !isPresent pde then none
  else
    let pte := entryAt v.mem (frameOf pde) (ptIndex virtAddr)
    if !isPresent pte then none else some (frameOf pte ||| (virtAddr &&& 0xFFF))

/-- `vmm_get_phys_addr`: 0 for an unmapped address. -/
def vmmGetPhysAddr (v : Vmm) (dir virtAddr : UInt32) : UInt32 :=
  if dir = 0 then 0 else (v.translate dir virtAddr).getD 0

/-- `vmm_is_user_accessible`: the page is mapped and its PTE carries `PAGE_USER`. -/
def vmmIsUserAccessible (v : Vmm) (virtAddr : UInt32) : Bool :=
  if v.currentDirectory = 0 then false
  else
    let pde := entryAt v.mem v.currentDirectory (pdIndex virtAddr)
    if !isPresent pde then false
    else
      let pte := entryAt v.mem (frameOf pde) (ptIndex virtAddr)
      if !isPresent pte then false else pte &&& pageUser != 0

end Vmm

end HaoSys.Mm
