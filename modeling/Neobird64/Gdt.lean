import Neobird64.Limine
import Mathlib.Logic.Function.Basic

/-! `kern/sys/gdt.c` and `gdt.asm`: the segment descriptors, and what the processor does with the TSS
    descriptor when `ltr` loads it. -/

namespace Neobird64

structure GdtDesc where
  limitLow : BitVec 16
  baseLow : BitVec 16
  baseMiddle : BitVec 8
  access : BitVec 8
  granularity : BitVec 8
  baseHigh : BitVec 8
deriving DecidableEq, Repr

/-- `gdt`, with its `GDTSEGMENTS` descriptors. -/
abbrev Gdt := Fin 7 → GdtDesc

/-- A store of `gdt_set_entry` to a descriptor. The one of `granularity |= v` has a load before it. -/
inductive EntryStep
  | baseLow (v : BitVec 16)
  | baseMiddle (v : BitVec 8)
  | baseHigh (v : BitVec 8)
  | limitLow (v : BitVec 16)
  | granularity (v : BitVec 8)
  | loadGranularity
  | orGranularity (v : BitVec 8)
  | access (v : BitVec 8)
deriving DecidableEq, Repr

/-- The descriptor after the step, and the granularity that the processor has loaded. -/
def EntryStep.exec (x : GdtDesc × BitVec 8) : EntryStep → GdtDesc × BitVec 8
  | .baseLow v => ({ x.1 with baseLow := v }, x.2)
  | .baseMiddle v => ({ x.1 with baseMiddle := v }, x.2)
  | .baseHigh v => ({ x.1 with baseHigh := v }, x.2)
  | .limitLow v => ({ x.1 with limitLow := v }, x.2)
  | .granularity v => ({ x.1 with granularity := v }, x.2)
  | .loadGranularity => (x.1, x.1.granularity)
  | .orGranularity v => ({ x.1 with granularity := x.2 ||| v }, x.2)
  | .access v => ({ x.1 with access := v }, x.2)

/-- The body of `gdt_set_entry`. -/
def entrySteps (base limit : Word) (access granularity : BitVec 8) : List EntryStep :=
  [.baseLow ((base &&& 0xFFFF).setWidth 16), .baseMiddle (((base >>> 16) &&& 0xFF).setWidth 8),
    .baseHigh (((base >>> 24) &&& 0xFF).setWidth 8), .limitLow ((limit &&& 0xFFFF).setWidth 16),
    .granularity (((limit >>> 16) &&& 0x0F).setWidth 8), .loadGranularity, .orGranularity ((granularity &&& 0xF) <<< 4),
    .access access]

/-- A call of `gdt_set_entry` that no other processor interferes with. -/
def gdtSetEntry (gdt : Gdt) (num : Fin 7) (base limit : Word) (access granularity : BitVec 8) : Gdt :=
  Function.update gdt num ((entrySteps base limit access granularity).foldl EntryStep.exec (gdt num, 0)).1

theorem gdtSetEntry_eq (gdt : Gdt) (num : Fin 7) (base limit : Word) (access granularity : BitVec 8) :
    gdtSetEntry gdt num base limit access granularity = Function.update gdt num {
      baseLow := (base &&& 0xFFFF).setWidth 16
      baseMiddle := ((base >>> 16) &&& 0xFF).setWidth 8
      baseHigh := ((base >>> 24) &&& 0xFF).setWidth 8
      limitLow := (limit &&& 0xFFFF).setWidth 16
      granularity := ((limit >>> 16) &&& 0x0F).setWidth 8 ||| (granularity &&& 0xF) <<< 4
      access := access } := rfl

/-- `sizeof(tss)`. -/
def sizeofTss : Word := 104

/-- The descriptors that `gdt_init` writes, with the TSS at `tss`. -/
def gdtInitEntries (tss : Word) (gdt : Gdt) : Gdt :=
  let gdt := gdtSetEntry gdt 0 0 0 0 0
  let gdt := gdtSetEntry gdt 1 0 0xFFFFF 0x9A 0xA
  let gdt := gdtSetEntry gdt 2 0 0xFFFFF 0x92 0xA
  let gdt := gdtSetEntry gdt 3 0 0xFFFFF 0xFA 0xA
  let gdt := gdtSetEntry gdt 4 0 0xFFFFF 0xF2 0xA
  gdtSetEntry gdt 5 tss sizeofTss 0x89 0x0

/-- The eight bytes of a packed `gdtdesc`, little-endian. -/
def GdtDesc.bits (d : GdtDesc) : BitVec 64 :=
  d.baseHigh ++ d.granularity ++ d.access ++ d.baseMiddle ++ d.baseLow ++ d.limitLow

/-- The base in a system descriptor of 16 bytes in long mode, as the processor reads it. -/
def systemBase (low high : BitVec 64) : Word := high.extractLsb' 0 32 ++ low.extractLsb' 56 8 ++ low.extractLsb' 16 24

/-- The base of the TSS, from the descriptor at selector 0x28. -/
def tssBase (gdt : Gdt) : Word := systemBase (gdt 5).bits (gdt 6).bits

/-- `ltr` takes a present system descriptor of the type of an available 64-bit TSS. -/
def GdtDesc.availableTss (d : GdtDesc) : Bool := d.access &&& 0x9F = 0x89

/-- `ltr` of entry 5, as `s_settss` executes it: it marks the TSS busy, or faults. -/
def ltr (gdt : Gdt) : Option Gdt :=
  if (gdt 5).availableTss then some (Function.update gdt 5 { gdt 5 with access := (gdt 5).access ||| 0x02 }) else none

/-- `gdt` before the first `gdt_init`. -/
def gdtStart : Gdt := fun _ => ⟨0, 0, 0, 0, 0, 0⟩

/-- `gdt_init`, with the TSS at `tss`. -/
def gdtInit (tss : Word) (gdt : Gdt) : Option Gdt := ltr (gdtInitEntries tss gdt)

end Neobird64
