import Neobird64.Acpi
import Neobird64.Lib.Paging
import Mathlib.Logic.Function.Basic

/-! `kern/sys/acpi/apic.c`: the records of the MADT, the registers of the LAPIC and its timer. What the
    functions print is left out. -/

namespace Neobird64
open Paging

/-! ### The MADT -/

/-- `madt_ics_t`. -/
structure MadtIcs where
  address : Word := 0
  type : BitVec 8 := 0
  apicId : BitVec 8 := 0
  present : Bool := false
deriving DecidableEq, Repr

/-- The globals that `get_madt_tables` writes and its local `i`. The entries of `ics_array` from 64 on are
    the memory behind the array. -/
structure MadtTables where
  icsArray : Nat → MadtIcs := fun _ => {}
  ioapicAddress : Word := 0
  i : Nat := 0

/-- Offsets and sizes of the packed structs of the MADT. -/
def sizeofMadt : Nat := 46
def offsetofFirstIcs : Word := 44
def offsetofRecordLength : Word := 1
def offsetofApicID : Word := 3
def offsetofFlags : Word := 4
def offsetofIoapicaddr : Word := 4
def offsetofSource : Word := 3
def offsetofGsi : Word := 4

/-- `madt->lapicaddr` as a pointer. -/
def madtLapicaddr (s : State) : Word := (s.load32 .identity (s.madt + offsetofLapicaddr)).setWidth 64

/-- The body of the `switch` for the record at `cur_ics`. -/
def listRecord (s : State) (g : MadtTables) (cur : Word) : MadtTables :=
  let type := s.loadByte .identity cur
  if type = 0 then
    if s.load32 .identity (cur + offsetofFlags) = 0 then g
    else
      let apicId := s.loadByte .identity (cur + offsetofApicID)
      { g with icsArray := Function.update g.icsArray g.i ⟨cur, type, apicId, true⟩, i := g.i + 1 }
  else if type = 1 then
    { icsArray := Function.update g.icsArray g.i { g.icsArray g.i with address := cur, type }
      ioapicAddress := (s.load32 .identity (cur + offsetofIoapicaddr)).setWidth 64
      i := g.i + 1 }
  else if type = 2 then
    { g with icsArray := Function.update g.icsArray g.i { g.icsArray g.i with address := cur, type }, i := g.i + 1 }
  else g

/-- The loop variables `cur_ics` and `length` of `get_madt_tables`. -/
structure MadtCursor where
  cur : Word
  length : Int

def MadtCursor.next (s : State) (c : MadtCursor) : MadtCursor :=
  let recordLength := s.loadByte .identity (c.cur + offsetofRecordLength)
  ⟨c.cur + recordLength.setWidth 64, c.length - recordLength.toNat⟩

/-- `int length = madt->header.length - sizeof(madt_t) + 2`: computed in `size_t`. -/
def madtLength (s : State) (madt : Word) : Int :=
  toInt ((tableLength s madt).setWidth 64 - BitVec.ofNat 64 sizeofMadt + 2)

/-- `length` is below 2^31, so a loop that makes more tests has met a record of length 0 and never ends. -/
def recordFuel : Nat := 2 ^ 31

/-- The loop of `get_madt_tables`, with what it does at each record. -/
def forRecords {σ : Type} (s : State) (madt : Word) (body : σ → Word → σ) (g : σ) : Except Halt σ :=
  Loop.forLoop .hang (fun c : MadtCursor => decide (0 < c.length)) (MadtCursor.next s)
    (fun g c => .ok (body g c.cur)) recordFuel ⟨madt + offsetofFirstIcs, madtLength s madt⟩ g

def getMadtTables (s : State) (madt : Word) (g : MadtTables) : Except Halt MadtTables :=
  forRecords s madt (listRecord s) { g with i := 0 }

/-- The values of `cur_ics` with which the loop runs its body, in order. -/
def visitedRecords (s : State) (madt : Word) : Except Halt (List Word) :=
  forRecords s madt (fun visited cur => visited ++ [cur]) []

/-- Whether the body of the `switch` writes `ics_array[i]` for the record at `cur_ics`. -/
def writesIcs (s : State) (cur : Word) : Bool :=
  let type := s.loadByte .identity cur
  (type = 0 && s.load32 .identity (cur + offsetofFlags) ≠ 0) || type = 1 || type = 2

/-- The values of `i` with which `get_madt_tables` writes `ics_array[i]`, in order. -/
def icsIndices (s : State) (madt : Word) (g : MadtTables) : Except Halt (List Nat) :=
  (forRecords s madt (fun acc cur => (listRecord s acc.1 cur, if writesIcs s cur then acc.2 ++ [acc.1.i] else acc.2))
    ({ g with i := 0 }, [])).map Prod.snd

/-- The I/O APIC pin of an ISA interrupt. -/
def findGsi (s : State) (icsArray : Nat → MadtIcs) (legacyPin : BitVec 32) : BitVec 32 :=
  ((List.range 64).findSome? fun i =>
    let iso := (icsArray i).address
    if (icsArray i).type = 2 ∧ (s.loadByte .identity (iso + offsetofSource)).setWidth 32 = legacyPin then
      some (s.load32 .identity (iso + offsetofGsi))
    else none).getD legacyPin

/-! ### The bytes that the MADT code reads, as pointers with a number of bytes -/

/-- The reads of the body of the loop at the record `cur_ics`. -/
def recordReads (s : State) (cur : Word) : List (Word × Nat) :=
  let type := s.loadByte .identity cur
  let fields :=
    if type = 0 then
      if s.load32 .identity (cur + offsetofFlags) = 0 then [(cur + offsetofFlags, 4)]
      else [(cur + offsetofFlags, 4), (cur + offsetofApicID, 1)]
    else if type = 1 then [(cur + offsetofIoapicaddr, 4)]
    else []
  (cur, 1) :: (cur + offsetofRecordLength, 1) :: fields

/-- The reads of `get_madt_tables` from the records. -/
def madtReads (s : State) (madt : Word) : Except Halt (List (Word × Nat)) :=
  forRecords s madt (fun reads cur => reads ++ recordReads s cur) []

/-- The reads of `find_gsi` from the records that the slots point to. -/
def gsiReads (s : State) (legacyPin : BitVec 32) : List MadtIcs → List (Word × Nat)
  | [] => []
  | ics :: slots =>
    if ics.type = 2 then
      let source := ics.address + offsetofSource
      if (s.loadByte .identity source).setWidth 32 = legacyPin then [(source, 1), (ics.address + offsetofGsi, 4)]
      else (source, 1) :: gsiReads s legacyPin slots
    else gsiReads s legacyPin slots

def findGsiReads (s : State) (icsArray : Nat → MadtIcs) (legacyPin : BitVec 32) : List (Word × Nat) :=
  gsiReads s legacyPin ((List.range 64).map icsArray)

/-! ### The registers of the LAPIC -/

/-- The 32-bit registers of devices, by the physical address at which they are accessed. -/
abbrev Registers := Nat → BitVec 32

/-- What the processor makes of a virtual address; `none` is a page fault. -/
abbrev Mmu := Word → Option Translation

/-- The translation under the page map that is loaded. -/
def State.mmu (s : State) : Mmu := fun va => if Low va ∨ High va then walk s.mem s.cr3.toNat va else none

/-- The virtual address that `apic_read` reads. -/
def apicReadPtr (apicBase : Word) (reg : BitVec 32) : Word := apicBase + reg.setWidth 64

/-- The virtual address that `apic_write` writes. -/
def apicWritePtr (hhdmoffset apicBase : Word) (reg : BitVec 32) : Word := apicBase + reg.setWidth 64 + hhdmoffset

def apicRead (mmu : Mmu) (regs : Registers) (apicBase : Word) (reg : BitVec 32) : Option (BitVec 32) :=
  let va := apicReadPtr apicBase reg
  (mmu va).map fun tr => regs (tr.page + va.toNat % 4096)

/-- A page that is not writable faults. -/
def apicWrite (mmu : Mmu) (hhdmoffset : Word) (regs : Registers) (apicBase : Word) (reg data : BitVec 32) :
    Option Registers :=
  let va := apicWritePtr hhdmoffset apicBase reg
  (mmu va).bind fun tr =>
    if tr.writable then some (Function.update regs (tr.page + va.toNat % 4096) data) else none

/-! ### The timer -/

/-- `apic_timer` counts the interrupts of the timers of all processors. -/
def apicTimer (apicTimerTicks : Word) : Word := apicTimerTicks + 1

/-- `int curcnt = apic_timer_ticks`. -/
def sleepStart (apicTimerTicks : Word) : BitVec 32 := apicTimerTicks.setWidth 32

/-- `apic_timer_ticks - curcnt < ms`: both `int`s are converted to `uint64_t`. -/
def sleepTest (apicTimerTicks : Word) (curcnt ms : BitVec 32) : Bool :=
  decide (apicTimerTicks - curcnt.signExtend 64 < ms.signExtend 64)

/-- `apic_sleep(ms)`, called at `ticks`: the value of `apic_timer_ticks` at which its loop ends, of those that the loop
    reads. -/
def apicSleep (ticks : Word) (ms : BitVec 32) (observed : List Word) : Option Word :=
  observed.find? fun t => !sleepTest t (sleepStart ticks) ms

end Neobird64
