import Neobird64.Gdt
import Neobird64.Lib.Trace

/-! `ap_trampoline` of `kern/sys/smp/smp.c`, with the calls that it makes as its steps. The application processors share the
    descriptors, and their steps interleave in any order. -/

namespace Neobird64

/-- How far a processor is in `ap_trampoline`. -/
inductive ApPhase
  | entered
  /-- It is the boot processor. -/
  | returned
  /-- After `cli`. -/
  | started
  /-- `gdt_init` has written the descriptors. -/
  | gdtWritten
  /-- After `s_setgdt`. -/
  | gdtLoaded
  /-- After `s_settss`. -/
  | tssLoaded
  /-- `ltr` has faulted. -/
  | faulted
  /-- After `idt_load`. -/
  | idtLoaded
  /-- After `vmm_set_ctx`. -/
  | ctxSet
  /-- After `init_apic_ap` and `sti`, in the loop of `hlt`. -/
  | running
deriving DecidableEq, Repr

inductive ApStep
  | enter
  /-- All stores of `gdt_init` to the descriptors at once. `ltr` looks at the access byte of entry 5, which the last of them
      writes. -/
  | writeGdt
  | setGdt
  | ltr
  | idtLoad
  | vmmSetCtx
  | initApicAp
deriving DecidableEq, Repr

structure SmpState (Cpu : Type) where
  gdt : Gdt
  phase : Cpu → ApPhase

/-- A step of one processor. -/
structure ApEvent (Cpu : Type) where
  cpu : Cpu
  step : ApStep
deriving DecidableEq

section
variable {Cpu : Type} [DecidableEq Cpu]

/-- A step of `ap_trampoline`: the phase before it, and the descriptors and the phase after it. -/
def apStep (lapicId : BitVec 32) (tss : Word) (gdt : Gdt) : ApPhase → ApStep → Option (Gdt × ApPhase)
  | .entered, .enter => some (gdt, if lapicId = 0 then .returned else .started)
  | .started, .writeGdt => some (gdtInitEntries tss gdt, .gdtWritten)
  | .gdtWritten, .setGdt => some (gdt, .gdtLoaded)
  | .gdtLoaded, .ltr =>
    match ltr gdt with
    | some gdt => some (gdt, .tssLoaded)
    | none => some (gdt, .faulted)
  | .tssLoaded, .idtLoad => some (gdt, .idtLoaded)
  | .idtLoaded, .vmmSetCtx => some (gdt, .ctxSet)
  | .ctxSet, .initApicAp => some (gdt, .running)
  | _, _ => none

/-- The descriptors and the phase of a processor after its step. -/
def SmpState.put (s : SmpState Cpu) (cpu : Cpu) (x : Gdt × ApPhase) : SmpState Cpu where
  gdt := x.1
  phase := Function.update s.phase cpu x.2

def smpStep (lapicId : Cpu → BitVec 32) (tss : Word) (s : SmpState Cpu) (e : ApEvent Cpu) : Option (SmpState Cpu) :=
  (apStep (lapicId e.cpu) tss s.gdt (s.phase e.cpu) e.step).map (s.put e.cpu)

end

end Neobird64
