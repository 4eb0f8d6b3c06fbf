import Neobird64.Apic
import Neobird64.Lib.Trace

/-! `apic_sleep` on one processor while the timers of any number of processors run. The handlers of vector
    172 and the tests of the loop take turns in any order; the increment of `apic_timer_ticks` is one step. -/

namespace Neobird64

/-- Where the call of `apic_sleep` is. -/
inductive Sleep
  | idle
  | waiting (curcnt : BitVec 32)
  | returned
deriving DecidableEq, Repr

structure TimerState (Cpu : Type) where
  apicTimerTicks : Word
  /-- The processors that `calibrate_timer` ran on. -/
  started : Cpu → Bool
  /-- How many interrupts of its timer a processor has handled. -/
  handled : Cpu → Nat
  sleep : Sleep

inductive TimerEvent (Cpu : Type)
  /-- `calibrate_timer` on a processor. -/
  | calibrate (cpu : Cpu)
  /-- The handler of vector 172 on a processor. -/
  | timer (cpu : Cpu)
  /-- `apic_sleep(ms)` is called and reads `curcnt`. -/
  | call
  /-- The test of its loop. -/
  | test

/-- One step of the machine on which `apic_sleep(ms)` is called. -/
def timerStep {Cpu : Type} [DecidableEq Cpu] (ms : BitVec 32) (s : TimerState Cpu) :
    TimerEvent Cpu → Option (TimerState Cpu)
  | .calibrate cpu => some { s with started := Function.update s.started cpu true }
  | .timer cpu =>
    if s.started cpu then
      some { s with
        apicTimerTicks := apicTimer s.apicTimerTicks
        handled := Function.update s.handled cpu (s.handled cpu + 1) }
    else none
  | .call =>
    match s.sleep with
    | .idle => some { s with sleep := .waiting (sleepStart s.apicTimerTicks) }
    | _ => none
  | .test =>
    match s.sleep with
    | .waiting curcnt => some { s with sleep := if sleepTest s.apicTimerTicks curcnt ms then .waiting curcnt else .returned }
    | _ => none

/-! ### The increment in two steps -/

/-- The same machine where the handlers load `apic_timer_ticks` and store the sum later: processors do not lock the
    memory for `++`. -/
structure TickState (Cpu : Type) where
  timer : TimerState Cpu
  /-- What the handlers between the two have loaded. -/
  loaded : Cpu → Option Word

inductive TickEvent (Cpu : Type)
  | load (cpu : Cpu)
  | store (cpu : Cpu)
  | calibrate (cpu : Cpu)
  | call
  | test
deriving DecidableEq

section
variable {Cpu : Type} [DecidableEq Cpu]

/-- A step of a processor that is not in the handler of vector 172. -/
def TickState.outside (ms : BitVec 32) (s : TickState Cpu) (cpu : Cpu) (e : TimerEvent Cpu) : Option (TickState Cpu) :=
  if s.loaded cpu = none then (timerStep ms s.timer e).map fun timer => { s with timer } else none

/-- One step of the machine on which `caller` calls `apic_sleep(ms)`. -/
def tickStep (caller : Cpu) (ms : BitVec 32) (s : TickState Cpu) : TickEvent Cpu → Option (TickState Cpu)
  | .load cpu =>
    if s.timer.started cpu ∧ s.loaded cpu = none then
      some { s with loaded := Function.update s.loaded cpu (some s.timer.apicTimerTicks) }
    else none
  | .store cpu => (s.loaded cpu).map fun ticks => {
      timer := { s.timer with
        apicTimerTicks := apicTimer ticks
        handled := Function.update s.timer.handled cpu (s.timer.handled cpu + 1) }
      loaded := Function.update s.loaded cpu none }
  | .calibrate cpu => s.outside ms cpu (.calibrate cpu)
  | .call => s.outside ms caller .call
  | .test => s.outside ms caller .test

end

end Neobird64
