import Neobird64.Idt

/-! `idt_set_gate` and `idt_init` of `kern/sys/idt.c`, and the gates as the processor reads them. -/

namespace Neobird64

/-- `idtentry`. -/
structure IdtEntry where
  isrLow : BitVec 16
  kernelCs : BitVec 16
  ist : BitVec 8
  attributes : BitVec 8
  isrMid : BitVec 16
  isrHigh : BitVec 32
  reserved : BitVec 32
deriving DecidableEq, Repr

/-- `idt[256]`: the index is an `unsigned char`. -/
abbrev Idt := BitVec 8 → IdtEntry

/-- `idt` before the first call of `idt_set_gate`. -/
def idtStart : Idt := fun _ => ⟨0, 0, 0, 0, 0, 0, 0⟩

def idtSetGate (idt : Idt) (vector : BitVec 8) (isr : Word) (flags : BitVec 8) : Idt :=
  Function.update idt vector {
    isrLow := (isr &&& 0xFFFF).setWidth 16
    kernelCs := 0x08
    ist := 0
    attributes := flags
    isrMid := ((isr >>> 16) &&& 0xFFFF).setWidth 16
    isrHigh := ((isr >>> 32) &&& 0xFFFFFFFF).setWidth 32
    reserved := 0 }

/-- A call of `idt_set_gate`. -/
structure GateCall where
  vector : BitVec 8
  isr : Word
  flags : BitVec 8
deriving DecidableEq, Repr

/-- `idt` after the calls, in order. -/
def idtRun (calls : List GateCall) : Idt := calls.foldl (fun idt c => idtSetGate idt c.vector c.isr c.flags) idtStart

/-- The calls of `idt_init`, with the addresses that the linker gives to the stubs. -/
def idtInitCalls (sIsr : Nat → Word) : List GateCall :=
  isrStubs.map fun stub => ⟨BitVec.ofNat 8 stub.1, sIsr stub.1, 0x8E⟩

def idtInit (sIsr : Nat → Word) : Idt := idtRun (idtInitCalls sIsr)

/-! ### The processor -/

/-- The sixteen bytes of a packed `idtentry`, little-endian. -/
def IdtEntry.bits (e : IdtEntry) : BitVec 128 :=
  e.reserved ++ e.isrHigh ++ e.isrMid ++ e.attributes ++ e.ist ++ e.kernelCs ++ e.isrLow

/-- A gate in long mode. -/
structure Gate where
  offset : Word
  selector : BitVec 16
  ist : BitVec 3
  /-- The type of the gate, its privilege level and the present bit. -/
  attributes : BitVec 8
deriving DecidableEq, Repr

def Gate.present (g : Gate) : Bool := g.attributes.getLsbD 7

/-- The gate in sixteen bytes of the table. -/
def decodeGate (bits : BitVec 128) : Gate where
  offset := bits.extractLsb' 64 32 ++ bits.extractLsb' 48 16 ++ bits.extractLsb' 0 16
  selector := bits.extractLsb' 16 16
  ist := bits.extractLsb' 32 3
  attributes := bits.extractLsb' 40 8

/-- The gate that the processor finds for a vector. -/
def gateOf (idt : Idt) (vector : BitVec 8) : Gate := decodeGate (idt vector).bits

end Neobird64
