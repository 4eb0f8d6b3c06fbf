import Neobird64.Acpi
import Neobird64.IoApic
import Neobird64.PmTimer
import Neobird64.Ps2Controller

/-! `init_apic` of `kern/sys/acpi/apic.c` and `init_acpi` of `kern/sys/acpi/acpi.c`, with every way in which they do not
    return. Of the LAPIC's registers they read nothing that decides what they do. -/

namespace Neobird64

/-- The devices of the machine, but for the LAPICs. -/
structure Devices where
  /-- What `inl` gives for a port, one read after the other. -/
  inl : BitVec 32 → List (BitVec 32)
  /-- The I/O APICs by address. -/
  ioapics : Word → IoApic
  ps2 : Ps2Controller

/-- Offsets of the packed `fadt_t`. -/
def offsetofPMTimerBlock : Word := 76
def offsetofPMTimerLength : Word := 91

/-- `pmt_delay(us)` with the registers that the FADT names; it hangs when the timer does not get to its target. -/
def waitPmTimer (d : Devices) (s : State) (us : Word) : Except Halt Unit := do
  let reads := d.inl (s.load32 .identity (s.fadt + offsetofPMTimerBlock))
  match ← pmtDelay (s.loadByte .identity (s.fadt + offsetofPMTimerLength)) us reads with
  | some _ => return ()
  | none => throw .hang

/-- `init_apic`. The pointers to the LAPIC and the I/O APIC are NULL when the MADT has no address for them. A MADT with
    more records than `ics_array` has entries overruns it, which `icsSafe_iff` is about: nothing is said here of what
    stands behind it. -/
def initApic (d : Devices) (s : State) : Except Halt (State × Devices) := do
  let g ← getMadtTables s s.madt {}
  let lapicAddr := s.load32 .identity (s.madt + offsetofLapicaddr)
  if lapicAddr = 0 then throw .fault
  -- `calibrate_timer`
  waitPmTimer d s 50000
  if g.ioapicAddress = 0 then throw .fault
  let ioapic ← maskPins (d.ioapics g.ioapicAddress)
  -- `ps2_int_init`
  let run ← ps2Init d.ps2
  let ioapics := ps2IntInit s g (Function.update d.ioapics g.ioapicAddress ioapic)
  return ({ s with lapicAddr }, { d with ioapics, ps2 := run.controller })

/-- `init_acpi`. -/
def initAcpi (b : Boot) (d : Devices) (s : State) : Except Halt State := do
  let s ← lookupTables b s
  let (s, _) ← initApic d s
  return s

end Neobird64
