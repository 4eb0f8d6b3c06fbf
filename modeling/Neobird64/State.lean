import Neobird64.Limine
import Neobird64.Lib.Memory
import Neobird64.Lib.Loop

/-! The machine as the kernel sees it: physical memory and the kernel's globals. The registers of
    devices are not part of the memory. -/

namespace Neobird64

/-- Why a kernel function does not return. -/
inductive Halt
  /-- `log_panic` prints the message and hangs the computer. -/
  | panic (msg : String)
  /-- A loop that never ends. -/
  | hang
  /-- An access through a NULL pointer. -/
  | fault
deriving DecidableEq, Repr

/-- Physical memory and the globals, which start as their C initialisers. -/
structure State where
  mem : Memory
  memmap : List MemmapEntry := []
  pmmUsableAddr : Word := 0
  pmmBlockCount : Word := 0
  pmmMemSize : Word := 0
  pmmBitmap : Word := 0
  hhdmoffset : Word := 0
  /-- `kernel_page_map.pml4addr`. -/
  kernelPageMap : Word := 0
  cr3 : Word := 0
  rsdt : Word := 0
  xsdt : Word := 0
  madt : Word := 0
  fadt : Word := 0
  lapicAddr : BitVec 32 := 0

/-- How a pointer of the kernel reaches physical memory. Pointers that were computed while `hhdmoffset`
    was still 0 (`pmm_bitmap`, the ACPI tables) go through the identity map, and those of page tables
    through the direct map at `hhdmoffset`. -/
inductive Window
  | identity
  | hhdm
deriving DecidableEq, Repr

namespace State

/-- The physical address behind the pointer `p`. The functions take the loaded page tables to lead there: those of the
    boot loader until `vmm_init` is done, and then the kernel's own, for which `SelfMapped` says it. -/
def phys (s : State) : Window → Word → Nat
  | .identity, p => p.toNat
  | .hhdm, p => (p - s.hhdmoffset).toNat

def loadByte (s : State) (w : Window) (p : Word) : BitVec 8 := s.mem (s.phys w p)

def load32 (s : State) (w : Window) (p : Word) : BitVec 32 := s.mem.read32 (s.phys w p)

def load64 (s : State) (w : Window) (p : Word) : Word := s.mem.read64 (s.phys w p)

def storeByte (s : State) (w : Window) (p : Word) (b : BitVec 8) : State :=
  { s with mem := s.mem.set (s.phys w p) b }

def store64 (s : State) (w : Window) (p : Word) (v : Word) : State :=
  { s with mem := s.mem.write64 (s.phys w p) v }

end State

/-- `memset` of `string.c`. -/
def memset (w : Window) (s : State) (p : Word) (c : BitVec 8) (n : Nat) : State :=
  (List.range n).foldl (fun s i => s.storeByte w (p + BitVec.ofNat 64 i) c) s

/-- `memcmp` of `string.c`, over the bytes that the two pointers reach. -/
def memcmp (p1 p2 : Nat → BitVec 8) (n : Nat) : Int :=
  ((List.range n).findSome? fun i =>
    if p1 i ≠ p2 i then some (if (p1 i).toNat < (p2 i).toNat then -1 else 1) else none).getD 0

/-- The conversion of a `uint64_t` to `int`, which keeps the low 32 bits. -/
def toInt (x : Word) : Int := (x.setWidth 32).toInt

/-- More tests than a loop over `uint64_t` that steps by a page makes when it ends: its index takes at
    most 2^52 values. -/
def pageFuel : Nat := 2 ^ 52 + 1

/-- `for (uint64_t i = start; i < stop; i += 4096) body`. -/
def forPages (start stop : Word) (body : State → Word → Except Halt State) (s : State) : Except Halt State :=
  Loop.forLoop .hang (fun i => decide (i < stop)) (fun i => i + 4096) body pageFuel start s

end Neobird64
