import Neobird64.Apic
import Neobird64.Lib.PeriodicTimer

/-! The timer of a LAPIC and `calibrate_timer`. Time is in milliseconds, in any ordered field, and the frequency of
    the bus in cycles for each of them. Register writes take no time. -/

namespace Neobird64
open PeriodicTimer

def LAPIC_LVTTIMER_REG : BitVec 32 := 0x320
def LAPIC_INITCNT_REG : BitVec 32 := 0x380
def LAPIC_TIMERDIV_REG : BitVec 32 := 0x3E0
def LAPIC_PERIODIC : BitVec 32 := 0x20000

structure LapicTimer (K : Type) where
  divide : BitVec 32
  lvt : BitVec 32
  initial : BitVec 32
  /-- The counts since the initial count was written, with the part of the next one that is over. -/
  counts : K

namespace LapicTimer
variable {K : Type} [Field K] {t : LapicTimer K} {data : BitVec 32}

/-- The divisor that bits 0, 1 and 3 of the divide configuration register select. -/
def divisor (divide : BitVec 32) : Nat :=
  match divide.getLsbD 3, divide.getLsbD 1, divide.getLsbD 0 with
  | false, false, false => 2
  | false, false, true => 4
  | false, true, false => 8
  | false, true, true => 16
  | true, false, false => 32
  | true, false, true => 64
  | true, true, false => 128
  | true, true, true => 1

def periodic (t : LapicTimer K) : Bool := t.lvt.getLsbD 17

def write (t : LapicTimer K) (reg data : BitVec 32) : LapicTimer K :=
  if reg = LAPIC_TIMERDIV_REG then { t with divide := data }
  else if reg = LAPIC_LVTTIMER_REG then { t with lvt := data }
  else if reg = LAPIC_INITCNT_REG then { t with initial := data, counts := 0 }
  else t

@[simp] theorem write_timerdiv : t.write LAPIC_TIMERDIV_REG data = { t with divide := data } := if_pos rfl

@[simp] theorem write_lvttimer : t.write LAPIC_LVTTIMER_REG data = { t with lvt := data } := by
  rw [write, if_neg (by decide), if_pos rfl]

@[simp] theorem write_initcnt : t.write LAPIC_INITCNT_REG data = { t with initial := data, counts := 0 } := by
  rw [write, if_neg (by decide), if_neg (by decide), if_pos rfl]

/-- `time` passes on a bus of the given frequency. -/
def pass (bus time : K) (t : LapicTimer K) : LapicTimer K :=
  { t with counts := t.counts + bus / divisor t.divide * time }

variable [LinearOrder K] [FloorSemiring K]

/-- The register `LAPIC_CURCNT_REG`, which counts down to 0 and in periodic mode starts anew then. -/
def current (t : LapicTimer K) : BitVec 32 :=
  BitVec.ofNat 32 (t.initial.toNat - (if t.periodic then ⌊t.counts⌋₊ % t.initial.toNat else ⌊t.counts⌋₊))

/-- Before it has run down, a timer counts down in both modes. -/
theorem current_of_lt (h : ⌊t.counts⌋₊ < t.initial.toNat) :
    t.current = BitVec.ofNat 32 (t.initial.toNat - ⌊t.counts⌋₊) := by
  rw [current, Nat.mod_eq_of_lt h, ite_self]

/-- How often the timer has run down since the initial count was written. -/
def interrupts (t : LapicTimer K) : Nat :=
  if t.periodic then periods t.initial.toNat t.counts else min 1 (periods t.initial.toNat t.counts)

end LapicTimer

section
variable {K : Type} [Field K] [LinearOrder K] [FloorSemiring K]

/-- The milliseconds that an exact `pmt_delay` takes. -/
def delayTime (us : Nat) : K := (us : K) / 1000

/-- `calibrate_timer`: the count that is left after 50 ms becomes the length of a period. -/
def calibrateTimer (bus : K) (t : LapicTimer K) : LapicTimer K :=
  let t := t.write LAPIC_TIMERDIV_REG 0x3
  let t := t.write LAPIC_INITCNT_REG 0xffffffff
  let t := t.pass bus (delayTime 50000)
  -- This is meant to mask the timer, but goes to the divide configuration register.
  let t := t.write LAPIC_TIMERDIV_REG 0x10000
  let calibration := 0xffffffff - t.current
  let t := t.write LAPIC_LVTTIMER_REG (172 ||| LAPIC_PERIODIC)
  let t := t.write LAPIC_TIMERDIV_REG 0x3
  t.write LAPIC_INITCNT_REG calibration

/-- `apic_timer_ticks` when `time` has passed since it was `ticks` and the timer was set: each interrupt calls
    `apic_timer`. -/
def ticksAfter (bus : K) (t : LapicTimer K) (ticks : Word) (time : K) : Word :=
  apicTimer^[(t.pass bus time).interrupts] ticks

end

end Neobird64
