import Neobird64.IdtGates
import Neobird64.Lib.BitFields
import Neobird64.Lib.LastWrite

/-! The gates that the processor reads after any calls of `idt_set_gate`: those of the last calls. -/

namespace Neobird64
open BitFields LastWrite

/-- The gate of a vector is that of the last call for it, and not present without one. -/
structure GateDecoded (calls : List GateCall) (vector : BitVec 8) : Prop where
  last : ∀ before c after, calls = before ++ c :: after → c.vector = vector → (∀ c' ∈ after, c'.vector ≠ vector) →
    gateOf (idtRun calls) vector = ⟨c.isr, 0x08, 0, c.flags⟩
  never : (∀ c ∈ calls, c.vector ≠ vector) → (gateOf (idtRun calls) vector).present = false

section
variable {idt : Idt} {vector : BitVec 8} {isr : Word} {flags : BitVec 8} {calls before after : List GateCall} {c : GateCall}
variable {e : IdtEntry}

/-! ### One entry -/

theorem decodeGate_bits : decodeGate e.bits =
    ⟨e.isrHigh ++ e.isrMid ++ e.isrLow, e.kernelCs, e.ist.setWidth 3, e.attributes⟩ := by
  rw [decodeGate, Gate.mk.injEq]
  refine ⟨?_, ?_, ?_, ?_⟩
  all_goals
    apply BitVec.eq_of_getLsbD_eq
    intro i hi
    simp only [IdtEntry.bits, BitVec.getLsbD_append, BitVec.getLsbD_extractLsb', BitVec.getLsbD_setWidth]
    grind

/-- The three parts of an address, put together again. -/
theorem isr_parts (isr : Word) : ((isr >>> 32) &&& 0xFFFFFFFF).setWidth 32 ++ ((isr >>> 16) &&& 0xFFFF).setWidth 16 ++
    (isr &&& 0xFFFF).setWidth 16 = isr := by
  rw [field_eq 32 32 rfl, field_eq 16 16 rfl, lowField_eq 16 rfl,
    BitVec.extractLsb'_append_extractLsb'_eq_extractLsb' (rfl : 32 = 16 + 16),
    BitVec.extractLsb'_append_extractLsb'_eq_extractLsb' (rfl : 16 = 0 + 16)]
  exact BitVec.extractLsb'_eq_self

/-- What `idt_set_gate` writes. -/
def GateCall.entry (c : GateCall) : IdtEntry := idtSetGate idtStart c.vector c.isr c.flags c.vector

theorem decodeGate_entry (c : GateCall) : decodeGate c.entry.bits = ⟨c.isr, 0x08, 0, c.flags⟩ := by
  rw [decodeGate_bits, GateCall.entry, idtSetGate, Function.update_self, isr_parts]
  rfl

/-! ### The table -/

/-- The table is a map of which the last write to each vector wins. -/
theorem idtRun_eq (calls : List GateCall) : idtRun calls = apply (calls.map fun c => (c.vector, c.entry)) idtStart := by
  have hset : ∀ (idt : Idt) (c : GateCall), idtSetGate idt c.vector c.isr c.flags = Function.update idt c.vector c.entry := by
    intro idt c
    rw [GateCall.entry, idtSetGate, idtSetGate, Function.update_self]
  rw [idtRun, apply, List.foldl_map]
  simp only [hset]

theorem idtRun_last (h : ∀ c' ∈ after, c'.vector ≠ c.vector) : idtRun (before ++ c :: after) c.vector = c.entry := by
  have hafter : ∀ w ∈ after.map fun c => (c.vector, c.entry), w.1 ≠ c.vector := by
    rintro w hw
    obtain ⟨c', hc', rfl⟩ := List.mem_map.mp hw
    exact h c' hc'
  rw [idtRun_eq, List.map_append, List.map_cons, apply_append, apply_cons, apply_of_not_mem hafter]
  exact Function.update_self _ _ _

theorem idtRun_never (h : ∀ c ∈ calls, c.vector ≠ vector) : idtRun calls vector = idtStart vector := by
  rw [idtRun_eq]
  refine apply_of_not_mem fun w hw => ?_
  obtain ⟨c, hc, rfl⟩ := List.mem_map.mp hw
  exact h c hc

theorem start_not_present (vector : BitVec 8) : (decodeGate (idtStart vector).bits).present = false := by
  rw [decodeGate_bits, Gate.present, idtStart]
  decide

/-- After any calls of `idt_set_gate` the processor finds the gate of the last call for each vector. -/
theorem gate_decoded (calls : List GateCall) (vector : BitVec 8) : GateDecoded calls vector where
  last := by
    rintro before c after rfl rfl h
    rw [gateOf, idtRun_last h, decodeGate_entry]
  never h := by
    rw [gateOf, idtRun_never h]
    exact start_not_present vector

/-! ### `idt_init` -/

theorem isrStubs_nodup : (isrStubs.map fun stub => BitVec.ofNat 8 stub.1).Nodup := by decide

/-- The call of `idt_init` for a stub. -/
def stubCall (sIsr : Nat → Word) (stub : Nat × List X86.Instr) : GateCall := ⟨BitVec.ofNat 8 stub.1, sIsr stub.1, 0x8E⟩

theorem idtInitCalls_eq (sIsr : Nat → Word) : idtInitCalls sIsr = isrStubs.map (stubCall sIsr) := rfl

/-- After `idt_init` the interrupts with a stub go to it, and the other gates are not present. -/
theorem idtInit_gates (sIsr : Nat → Word) :
    (∀ stub ∈ isrStubs, gateOf (idtInit sIsr) (BitVec.ofNat 8 stub.1) = ⟨sIsr stub.1, 0x08, 0, 0x8E⟩) ∧
    ∀ vector, (∀ stub ∈ isrStubs, BitVec.ofNat 8 stub.1 ≠ vector) → (gateOf (idtInit sIsr) vector).present = false := by
  constructor
  · intro stub hstub
    obtain ⟨before, after, hsplit⟩ := List.append_of_mem hstub
    have hnodup := isrStubs_nodup
    rw [hsplit, List.map_append, List.map_cons, List.nodup_append] at hnodup
    have hafter : ∀ c' ∈ after.map (stubCall sIsr), c'.vector ≠ (stubCall sIsr stub).vector := by
      intro c' hc' heq
      obtain ⟨stub', hstub', rfl⟩ := List.mem_map.mp hc'
      exact (List.nodup_cons.mp hnodup.2.1).1 (List.mem_map.mpr ⟨stub', hstub', heq⟩)
    have hvector : BitVec.ofNat 8 stub.1 = (stubCall sIsr stub).vector := rfl
    rw [gateOf, idtInit, idtInitCalls_eq, hsplit, List.map_append, List.map_cons, hvector, idtRun_last hafter,
      decodeGate_entry]
    rfl
  · intro vector h
    have hnever : ∀ c ∈ isrStubs.map (stubCall sIsr), c.vector ≠ vector := by
      intro c hc
      obtain ⟨stub, hstub, rfl⟩ := List.mem_map.mp hc
      exact h stub hstub
    rw [gateOf, idtInit, idtInitCalls_eq, idtRun_never hnever]
    exact start_not_present vector

end

end Neobird64
