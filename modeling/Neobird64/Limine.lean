import Mathlib.Data.BitVec

/-! What the boot loader hands to the kernel (`limine.h`), and the symbols of `linker.ld`. -/

namespace Neobird64

/-- `uint64_t`, and the pointers of the kernel. -/
abbrev Word := BitVec 64

/-- The `LIMINE_MEMMAP_*` types, in the order of their values 0 to 7. -/
inductive MemmapType
  | usable
  | reserved
  | acpiReclaimable
  | acpiNvs
  | badMemory
  | bootloaderReclaimable
  | kernelAndModules
  | framebuffer
deriving DecidableEq, Repr

structure MemmapEntry where
  base : Word
  length : Word
  type : MemmapType
deriving DecidableEq, Repr

structure KernelAddress where
  physicalBase : Word
  virtualBase : Word
deriving DecidableEq, Repr

/-- The addresses that `linker.ld` gives to the bounds of the kernel's sections. -/
structure Sections where
  textStart : Word
  textEnd : Word
  rodataStart : Word
  rodataEnd : Word
  dataStart : Word
  dataEnd : Word
deriving DecidableEq, Repr

/-- The responses to the kernel's requests; `none` is a response pointer that is NULL. `vmm_init` reads
    the HHDM response without that check. The responses are values, not bytes of the memory: no write of
    the kernel changes them, so the stores of `pmm_init` outside of its bitmap are taken to miss Limine's entries. -/
structure Boot where
  memmap : Option (List MemmapEntry)
  hhdm : Word
  kernelAddress : Option KernelAddress
  rsdp : Option Word
  sections : Sections
deriving DecidableEq, Repr

end Neobird64
