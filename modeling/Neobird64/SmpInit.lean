import Neobird64.Segments

/-! `smp_init` of `kern/sys/smp/smp.c` with the processors that it starts, whose calls of `gdt_init` write and load the shared
    descriptors store by store. -/

namespace Neobird64

/-- How far a processor is: the boot processor in `_start`, another one in `ap_trampoline`. -/
inductive BootPhase
  /-- It has no `goto_address` yet, or is at the entry of `ap_trampoline`. -/
  | entered
  /-- Its local APIC has the identifier 0. -/
  | returned
  | gdtInit
  /-- After `idt_load`, with interrupts on. -/
  | idtLoaded
  /-- After `vmm_set_ctx`. -/
  | ctxSet
  /-- After `init_apic_ap`, in the loop of `hlt`. -/
  | running
deriving DecidableEq, Repr

inductive BootStep
  | enter
  /-- In `gdt_init` or an interrupt. -/
  | seg (step : SegStep)
  | idtLoad
  | vmmSetCtx
  | initApicAp
  /-- A round of the loop of `smp_init`. -/
  | start
deriving DecidableEq

structure BootEvent (Cpu : Type) where
  cpu : Cpu
  step : BootStep
deriving DecidableEq

/-- `smp_init` has written `goto_address` of the first `started` processors. -/
structure BootState (Cpu : Type) where
  started : Nat
  phase : Cpu → BootPhase
  segs : SegState Cpu

/-- Interrupts come from `idt_load` on. -/
def segAllowed : BootPhase → SegStep → Bool
  | .gdtInit, .init _ => true
  | .idtLoaded, .init _ | .ctxSet, .init _ | .running, .init _ => false
  | .idtLoaded, _ | .ctxSet, _ | .running, _ => true
  | _, _ => false

/-- The calls around `gdt_init`, which it is `through` with or not. `init_apic_ap` is for the others than the boot processor. -/
def bootPhase (boot : Bool) (lapicId : BitVec 32) (through : Bool) : BootPhase → BootStep → Option BootPhase
  | .entered, .enter => some (if lapicId = 0 then .returned else .gdtInit)
  | .gdtInit, .idtLoad => if through then some .idtLoaded else none
  | .idtLoaded, .vmmSetCtx => some .ctxSet
  | .ctxSet, .initApicAp => if boot then none else some .running
  | _, _ => none

section
variable {Cpu : Type} [DecidableEq Cpu]

/-- The processor goes on with its program: it is in no interrupt, and no segment has faulted. -/
def BootState.OnCourse (s : BootState Cpu) (cpu : Cpu) : Prop :=
  (s.segs.cpu cpu).frames = [] ∧ (s.segs.cpu cpu).faulted = false

instance (s : BootState Cpu) (cpu : Cpu) : Decidable (s.OnCourse cpu) := inferInstanceAs (Decidable (_ ∧ _))

/-- The state after a call that takes `cpu` to another phase. -/
def BootState.setPhase (s : BootState Cpu) (cpu : Cpu) (phase : BootPhase) : BootState Cpu :=
  { s with phase := Function.update s.phase cpu phase }

@[simp] theorem BootState.setPhase_self (s : BootState Cpu) (cpu : Cpu) (phase : BootPhase) :
    (s.setPhase cpu phase).phase cpu = phase := Function.update_self _ _ _

theorem BootState.setPhase_of_ne (s : BootState Cpu) {cpu other : Cpu} (phase : BootPhase) (h : other ≠ cpu) :
    (s.setPhase cpu phase).phase other = s.phase other := Function.update_of_ne h _ _

@[simp] theorem BootState.setPhase_segs (s : BootState Cpu) (cpu : Cpu) (phase : BootPhase) :
    (s.setPhase cpu phase).segs = s.segs := rfl

@[simp] theorem BootState.setPhase_started (s : BootState Cpu) (cpu : Cpu) (phase : BootPhase) :
    (s.setPhase cpu phase).started = s.started := rfl

/-- The processors of `cpus` wait for their `goto_address`, but for the boot processor `bsp`, which comes to `smp_init` behind
    `gdt_init`, `idt_init` and `vmm_init`. With a single processor `smp_init` returns before its loop. -/
def bootStep (cpus : List Cpu) (bsp : Cpu) (lapicId : Cpu → BitVec 32) (tss gdtAddr : Word)
    (others : Word → Nat → X86.Descriptor) (idt : Idt) (s : BootState Cpu) (e : BootEvent Cpu) : Option (BootState Cpu) :=
  if e.cpu = bsp ∨ e.cpu ∈ cpus.take s.started then
    match e.step with
    | .seg step =>
      if segAllowed (s.phase e.cpu) step = true then
        (segStep tss gdtAddr others idt s.segs ⟨e.cpu, step⟩).map fun segs => { s with segs := segs }
      else none
    | .start =>
      if e.cpu = bsp ∧ s.phase bsp = .ctxSet ∧ s.OnCourse bsp ∧ cpus.length ≠ 1 ∧ s.started < cpus.length then
        some { s with started := s.started + 1 }
      else none
    | step =>
      if s.OnCourse e.cpu then
        (bootPhase (decide (e.cpu = bsp)) (lapicId e.cpu) (decide ((s.segs.cpu e.cpu).done = (gdtInitSteps tss gdtAddr).length))
          (s.phase e.cpu) step).map (s.setPhase e.cpu)
      else none
  else none

end

end Neobird64
