import Neobird64.Pmm

/-! `kern/mm/vmm.c`: the page tables. A `page_map *` is modelled by its `pml4addr`. -/

namespace Neobird64

/-- `PAGE_SIZE`. -/
def PAGE_SIZE : Word := 4096

/-- `ALIGN_UP(x, PAGE_SIZE)`. -/
def alignUp (x : Word) : Word := (x + PAGE_SIZE - 1) &&& ~~~(PAGE_SIZE - 1)

/-- `ALIGN_DOWN(x, PAGE_SIZE)`. -/
def alignDown (x : Word) : Word := x &&& ~~~(PAGE_SIZE - 1)

def PTE_BIT_PRESENT : Word := 1 <<< 0
def PTE_BIT_READ_WRITE : Word := 1 <<< 1
def PTE_BIT_ACCESS_ALL : Word := 1 <<< 2
def PTE_BIT_WRITE_THROUGH_CACHING : Word := 1 <<< 3
def PTE_BIT_DISABLE_CACHING : Word := 1 <<< 4
def PTE_BIT_PDE_OR_PTE_ACCESSED : Word := 1 <<< 5
def PTE_BIT_DIRTY : Word := 1 <<< 6
def PTE_BIT_PAT_SUPPORTED : Word := 1 <<< 7
def PTE_BIT_GLOBAL : Word := 1 <<< 8
def PTE_BIT_EXECUTE_DISABLE : Word := 1 <<< 63

/-- Loads CR3 with the physical address of the top-level table. -/
def vmmSetCtx (s : State) (pageMap : Word) : State := { s with cr3 := pageMap - s.hhdmoffset }

/-- The table below entry `indx` of `pageMapPtr`, allocated when the entry is not present. -/
def getLowerTable (s : State) (pageMapPtr indx : Word) : Except Halt (Word × State) :=
  let entry := s.load64 .hhdm (pageMapPtr + 8 * indx)
  if entry &&& PTE_BIT_PRESENT ≠ 0 then
    .ok ((entry &&& 0x000ffffffffff000) + s.hhdmoffset, s)
  else
    let (newPage, s) := pmmAllocBlock s
    if newPage = 0 then .error (.panic "PMM failed to allocate block for the vmm")
    else
      let s := memset .hhdm s (newPage + s.hhdmoffset) 0 PAGE_SIZE.toNat
      let s := s.store64 .hhdm (pageMapPtr + 8 * indx)
        (newPage ||| PTE_BIT_PRESENT ||| PTE_BIT_READ_WRITE ||| PTE_BIT_ACCESS_ALL)
      .ok (newPage + s.hhdmoffset, s)

def getPt (s : State) (pageMap virtualAddr : Word) : Except Halt (Word × State) := do
  let pmdIndex := (virtualAddr >>> 21) &&& 0x1ff
  let pudIndex := (virtualAddr >>> 30) &&& 0x1ff
  let pgdIndex := (virtualAddr >>> 39) &&& 0x1ff
  let (pgd, s) ← getLowerTable s pageMap pgdIndex
  if pgd = 0 then return (0, s)
  let (pud, s) ← getLowerTable s pgd pudIndex
  if pud = 0 then return (0, s)
  let (pt, s) ← getLowerTable s pud pmdIndex
  if pt = 0 then return (0, s)
  return (pt, s)

def vmmMapPage (s : State) (pageMap virtualAddr physicalAddr flags : Word) : Except Halt State := do
  let ptIndex := (virtualAddr >>> 12) &&& 0x1ff
  let (pt, s) ← getPt s pageMap virtualAddr
  if pt = 0 then throw (.panic "Page table not recieved")
  return s.store64 .hhdm (pt + 8 * ptIndex) (physicalAddr ||| flags)

/-- The page table is used without the NULL check that `vmm_map_page` makes. -/
def vmmFreePage (s : State) (pageMap virtualAddr : Word) : Except Halt State := do
  let ptIndex := (virtualAddr >>> 12) &&& 0x1ff
  let (pt, s) ← getPt s pageMap virtualAddr
  if pt = 0 then throw .fault
  let s := pmmFreeBlock s (s.load64 .hhdm (pt + 8 * ptIndex) &&& 0x000ffffffffff000)
  return s.store64 .hhdm (pt + 8 * ptIndex) 0

/-! ### `vmm_init`, loop by loop -/

/-- Allocate and clear the top-level table. -/
def newPageMap (s : State) : Except Halt State :=
  let (pml4, s) := pmmAllocBlock s
  if pml4 = 0 then .error (.panic "Allocating block for page map failed")
  else
    let s := { s with kernelPageMap := pml4 + s.hhdmoffset }
    .ok (memset .hhdm s s.kernelPageMap 0 PAGE_SIZE.toNat)

/-- Map the bitmap at its HHDM address. -/
def mapBitmap (s : State) : Except Halt State :=
  forPages 0 (s.pmmBlockCount / 8) (fun s i =>
    vmmMapPage s s.kernelPageMap (s.pmmUsableAddr + s.hhdmoffset + i) (s.pmmUsableAddr + i)
      (PTE_BIT_PRESENT ||| PTE_BIT_READ_WRITE)) s

/-- The flags with which `vmm_init` maps the entries of a type at their HHDM addresses. -/
def entryFlags : MemmapType → Option Word
  | .usable => some (PTE_BIT_PRESENT ||| PTE_BIT_READ_WRITE)
  | .framebuffer => some (PTE_BIT_PRESENT ||| PTE_BIT_READ_WRITE ||| PTE_BIT_EXECUTE_DISABLE)
  | .bootloaderReclaimable => some (PTE_BIT_PRESENT ||| PTE_BIT_READ_WRITE)
  | .acpiReclaimable => some (PTE_BIT_PRESENT ||| PTE_BIT_READ_WRITE)
  | _ => none

/-- Map the usable entries, the framebuffer and the reclaimable entries. -/
def mapEntries (s : State) : Except Halt State :=
  s.memmap.foldlM (fun s e =>
    match entryFlags e.type with
    | some flags =>
      forPages 0 e.length (fun s j =>
        vmmMapPage s s.kernelPageMap (e.base + j + s.hhdmoffset) (e.base + j) flags) s
    | none => .ok s) s

/-- Map a section of the kernel where the boot loader put it. -/
def mapSection (k : KernelAddress) (start stop flags : Word) (s : State) : Except Halt State :=
  forPages (alignDown start) (alignUp stop) (fun s addr =>
    vmmMapPage s s.kernelPageMap addr (addr - k.virtualBase + k.physicalBase) flags) s

/-- Identity map everything in 32-bit address space, except page 0. -/
def mapIdentity (s : State) : Except Halt State :=
  forPages 0x1000 0x100000000 (fun s base =>
    vmmMapPage s s.kernelPageMap base base
      (PTE_BIT_PRESENT ||| PTE_BIT_READ_WRITE ||| PTE_BIT_EXECUTE_DISABLE)) s

/-- Map the LAPICs. -/
def mapLapic (s : State) : Except Halt State :=
  let lapic := s.lapicAddr.setWidth 64
  vmmMapPage s s.kernelPageMap (alignDown (lapic + s.hhdmoffset)) (alignDown lapic)
    (PTE_BIT_PRESENT ||| PTE_BIT_READ_WRITE)

def vmmInit (b : Boot) (s : State) : Except Halt State := do
  let s := { s with hhdmoffset := b.hhdm }
  if s.hhdmoffset = 0 then throw (.panic "HHDM offset not recieved")
  match b.kernelAddress with
  | none => throw (.panic "Kernel address not recieved")
  | some k =>
    let s ← newPageMap s
    let s ← mapBitmap s
    let s ← mapEntries s
    let s ← mapSection k b.sections.textStart b.sections.textEnd PTE_BIT_PRESENT s
    let s ← mapSection k b.sections.rodataStart b.sections.rodataEnd
      (PTE_BIT_PRESENT ||| PTE_BIT_EXECUTE_DISABLE) s
    let s ← mapSection k b.sections.dataStart b.sections.dataEnd
      (PTE_BIT_PRESENT ||| PTE_BIT_READ_WRITE ||| PTE_BIT_EXECUTE_DISABLE) s
    let s ← mapIdentity s
    let s ← mapLapic s
    return vmmSetCtx s s.kernelPageMap

end Neobird64
