import Neobird64.Vmm
import Neobird64.InitAcpi

/-! `_start` of `kern/kern.c`, from `pmm_init` to `vmm_init`. -/

namespace Neobird64

/-- The state at the entry of the kernel: any memory, and every global as its C initialiser. -/
def entryState (mem : Memory) : State := { mem }

/-- `pmm_init(); init_acpi(); vmm_init();` -/
def startMemory (b : Boot) (d : Devices) (mem : Memory) : Except Halt State := do
  let s ← pmmInit b (entryState mem)
  let s ← initAcpi b d s
  vmmInit b s

end Neobird64
