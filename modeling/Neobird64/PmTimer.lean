import Neobird64.State

/-! `pmt_delay` of `kern/sys/acpi/acpi.c`, over the values that `inl` gives for the power-management timer. -/

namespace Neobird64

def PMT_TIMER_RATE : Word := 3579545

/-- `target` of `pmt_delay(us)`, in ticks. -/
def pmtTarget (us : Word) : Word := (us * PMT_TIMER_RATE) / 1000000

/-- `(inl(fadt->PMTimerBlock) - count) & 0xffffff`. -/
def pmtCurrent (count : Word) (sample : BitVec 32) : Word := (sample.setWidth 64 - count) &&& 0xffffff

/-- `while (current < target)`, over the samples that it polls: how many of them it takes, `none` when it goes on
    after the last one. -/
def pmtLoop (target count : Word) : Word → List (BitVec 32) → Option Nat
  | current, [] => if current < target then none else some 0
  | current, sample :: polls =>
    if current < target then (pmtLoop target count (pmtCurrent count sample) polls).map (· + 1) else some 0

/-- `pmt_delay(us)`, over the samples that it reads: `count` and the polls of the loop. -/
def pmtDelay (pmTimerLength : BitVec 8) (us : Word) (reads : List (BitVec 32)) : Except Halt (Option Nat) :=
  if pmTimerLength ≠ 4 then .error (.panic "ACPI Timer unavailable")
  else
    match reads with
    | [] => .ok none
    | count :: polls => .ok (pmtLoop (pmtTarget us) (count.setWidth 64) 0 polls)

end Neobird64
