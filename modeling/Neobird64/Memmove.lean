import Neobird64.Video

/-! `memmove` and `memcpy` of `kern/include/string.c`. -/

namespace Neobird64

/-- `pdest[i] = psrc[i]`. -/
def copyByte (pdest psrc : Word) (mem : VirtualMemory) (i : Nat) : VirtualMemory :=
  Function.update mem (pdest + BitVec.ofNat 64 i) (mem (psrc + BitVec.ofNat 64 i))

/-- `for (size_t i = 0; i < n; i++) pdest[i] = psrc[i]`. -/
def copyForward (pdest psrc : Word) (n : Nat) (mem : VirtualMemory) : VirtualMemory :=
  (List.range n).foldl (copyByte pdest psrc) mem

/-- `for (size_t i = n; i > 0; i--) pdest[i-1] = psrc[i-1]`. -/
def copyBackward (pdest psrc : Word) : Nat → VirtualMemory → VirtualMemory
  | 0, mem => mem
  | i + 1, mem => copyBackward pdest psrc i (copyByte pdest psrc mem i)

/-- `memmove(dest, src, n)`: what it returns, and the memory after it. -/
def memmove (mem : VirtualMemory) (dest src n : Word) : Word × VirtualMemory :=
  if src > dest then (dest, copyForward dest src n.toNat mem)
  else if src < dest then (dest, copyBackward dest src n.toNat mem)
  else (dest, mem)

/-- `memcpy(dest, src, n)`. -/
def memcpy (mem : VirtualMemory) (dest src n : Word) : Word × VirtualMemory := (dest, copyForward dest src n.toNat mem)

end Neobird64
