import Neobird64.Gdt
import Neobird64.IdtGates
import Neobird64.Lib.Segments
import Neobird64.Lib.Trace

/-! `gdt_init` of `kern/sys/gdt.c`, with `s_setgdt` and `s_settss` of `gdt.asm`, and the segments that interrupts and
    `iretq` load after it. The processors share `gdt`, and each has segment registers of its own. -/

namespace Neobird64
open X86

/-! ### The table -/

/-- The entries of `gdt` have numbers from 0 on. -/
local instance entriesNeZero : NeZero 7 := ⟨by decide⟩

/-- `gdtr.limit_low` of `gdt_init`: seven entries of eight bytes. -/
def gdtrLimit : BitVec 16 := 8 * 7 - 1

/-- The descriptor tables by their base: `gdt` at `gdtAddr`, and those of others. -/
def tableAt (gdtAddr : Word) (others : Word → Nat → Descriptor) (gdt : Gdt) (base : Word) (i : Nat) : Descriptor :=
  if h : base = gdtAddr ∧ i < 7 then (gdt ⟨i, h.2⟩).bits else others base i

/-- `gdt` after the processor has loaded a segment with `selector` from the table at `base`. -/
def markAccessed (gdtAddr : Word) (gdt : Gdt) (base : Word) (selector : BitVec 16) : Gdt :=
  if h : base = gdtAddr ∧ index selector < 7 ∧ isNull selector = false then
    Function.update gdt ⟨index selector, h.2.1⟩ { gdt ⟨index selector, h.2.1⟩ with access := (gdt ⟨index selector, h.2.1⟩).access ||| 1 }
  else gdt

/-- What `gdt.asm` does to the descriptors and the segment registers. -/
inductive GdtAction
  | lgdt (gdtr : Gdtr)
  | mov (seg : Seg) (selector : BitVec 16)
  | retfq (selector : BitVec 16)
  /-- `ltr` of selector 0x28. -/
  | ltr
deriving DecidableEq, Repr

/-- The descriptors and the segment registers of a processor after an action, unless it faults. -/
def gdtAct (gdtAddr : Word) (others : Word → Nat → Descriptor) (s : Gdt × SegFile) : GdtAction → Option (Gdt × SegFile)
  | .lgdt gdtr => some (s.1, { s.2 with gdtr := gdtr })
  | .mov seg selector =>
    (s.2.mov (tableAt gdtAddr others s.1 s.2.gdtr.base) seg selector).map fun f =>
      (markAccessed gdtAddr s.1 s.2.gdtr.base selector, f)
  | .retfq selector =>
    (s.2.farReturn (tableAt gdtAddr others s.1 s.2.gdtr.base) selector).map fun f =>
      (markAccessed gdtAddr s.1 s.2.gdtr.base selector, f)
  | .ltr => (ltr s.1).map fun gdt => (gdt, s.2)

/-! ### `gdt.asm` -/

/-- An instruction of `s_setgdt` or `s_settss`. -/
inductive GdtInstr
  /-- `mov [gdtr], di`. -/
  | movLimit
  /-- `mov [gdtr+2], rsi`. -/
  | movBase
  | lgdt
  /-- `mov rax, v`. -/
  | movRax (v : Word)
  /-- `mov seg, rax`. -/
  | movSeg (seg : Seg)
  /-- `push` or `pop`. -/
  | stack (instr : Instr)
  | retfq
  /-- `mov ax, v`. -/
  | movAx (v : BitVec 16)
  /-- `ltr ax`. -/
  | ltr
  | ret
deriving DecidableEq, Repr

def sSetgdt : List GdtInstr :=
  [.movLimit, .movBase, .lgdt, .movRax 0x10, .movSeg .ds, .movSeg .es, .movSeg .gs, .movSeg .fs, .movSeg .ss,
    .stack (.pop .rax), .stack (.pushImm 0x08), .stack (.push .rax), .retfq]

def sSettss : List GdtInstr := [.movAx 0x28, .ltr, .ret]

/-- A processor in one of the two. The segment registers are those of `file`, not `cs` and `ss` of `core`, and the stack is
    apart from `gdt` and from the variable `gdtr`. -/
structure GdtMachine where
  core : Machine
  gdtr : Gdtr
  gdt : Gdt
  file : SegFile

def GdtMachine.act (gdtAddr : Word) (others : Word → Nat → Descriptor) (m : GdtMachine) (a : GdtAction) : Option GdtMachine :=
  (gdtAct gdtAddr others (m.gdt, m.file) a).map fun s => { m with gdt := s.1, file := s.2 }

def gdtExec (gdtAddr : Word) (others : Word → Nat → Descriptor) (f : Callee) (m : GdtMachine) : GdtInstr → Option GdtMachine
  | .movLimit => some { m with gdtr := { m.gdtr with limit := (m.core.regs .rdi).setWidth 16 } }
  | .movBase => some { m with gdtr := { m.gdtr with base := m.core.regs .rsi } }
  | .lgdt => m.act gdtAddr others (.lgdt m.gdtr)
  | .movRax v => some { m with core := { m.core with regs := Function.update m.core.regs .rax v } }
  | .movSeg seg => m.act gdtAddr others (.mov seg ((m.core.regs .rax).setWidth 16))
  | .stack instr => some { m with core := exec f m.core instr }
  | .retfq =>
    (m.act gdtAddr others (.retfq ((m.core.top 1).setWidth 16))).map fun m' =>
      { m' with core := { m.core with rip := m.core.top 0, rsp := m.core.rsp + 16 } }
  | .movAx v =>
    some { m with core := { m.core with
      regs := Function.update m.core.regs .rax ((m.core.regs .rax).extractLsb' 16 48 ++ v) } }
  | .ltr => if (m.core.regs .rax).setWidth 16 = (0x28 : BitVec 16) then m.act gdtAddr others .ltr else none
  | .ret => some { m with core := { m.core with rip := m.core.top 0, rsp := m.core.rsp + 8 } }

def gdtRun (gdtAddr : Word) (others : Word → Nat → Descriptor) (f : Callee) (m : GdtMachine) (code : List GdtInstr) :
    Option GdtMachine :=
  Trace.run (gdtExec gdtAddr others f) m code

/-- What `s_setgdt(limit, base)` does besides returning. -/
def sSetgdtActions (limit : BitVec 16) (base : Word) : List GdtAction :=
  [.lgdt ⟨limit, base⟩, .mov .ds 0x10, .mov .es 0x10, .mov .gs 0x10, .mov .fs 0x10, .mov .ss 0x10, .retfq 0x08]

/-! ### All processors -/

/-- A step of `gdt_init` that writes a descriptor or reads one. -/
inductive InitStep
  | entry (num : Fin 7) (st : EntryStep)
  | load (a : GdtAction)
deriving DecidableEq, Repr

/-- A call of `gdt_set_entry`. -/
def setEntry (num : Fin 7) (base limit : Word) (access granularity : BitVec 8) : List InitStep :=
  (entrySteps base limit access granularity).map (.entry num)

/-- The calls of `gdt_set_entry` in `gdt_init`. -/
def setEntries (tss : Word) : List InitStep :=
  setEntry 0 0 0 0 0 ++ (setEntry 1 0 0xFFFFF 0x9A 0xA ++ (setEntry 2 0 0xFFFFF 0x92 0xA ++ (setEntry 3 0 0xFFFFF 0xFA 0xA ++
    (setEntry 4 0 0xFFFFF 0xF2 0xA ++ setEntry 5 tss sizeofTss 0x89 0x0))))

/-- What `s_setgdt` and `s_settss` load. All processors store the same values to `gdtr`, so `lgdt` finds these. -/
def gdtLoads (gdtAddr : Word) : List GdtAction := sSetgdtActions gdtrLimit gdtAddr ++ [.ltr]

/-- All of `gdt_init`, with the TSS at `tss` and `gdt` at `gdtAddr`. -/
def gdtInitSteps (tss gdtAddr : Word) : List InitStep := setEntries tss ++ (gdtLoads gdtAddr).map .load

/-- A processor from the call of `gdt_init` on. -/
structure SegCpu where
  file : SegFile
  /-- What it has loaded for `granularity |= v`. -/
  loaded : BitVec 8
  /-- How many steps of `gdt_init` are behind it. -/
  done : Nat
  /-- `cs` and `ss` of the contexts that are interrupted, the last one first. -/
  frames : List (BitVec 16 × BitVec 16)
  /-- A segment could not be loaded, and the processor does not go on. -/
  faulted : Bool

structure SegState (Cpu : Type) where
  gdt : Gdt
  cpu : Cpu → SegCpu

inductive SegStep
  /-- The next step of `gdt_init`. -/
  | init (st : InitStep)
  /-- An interrupt of a vector that has a gate. -/
  | interrupt (vector : BitVec 8)
  | iretq
deriving DecidableEq

structure SegEvent (Cpu : Type) where
  cpu : Cpu
  step : SegStep
deriving DecidableEq

/-- What a processor does next: the processor after it, but for its segment registers, and the descriptors and these
    registers, unless the load of a segment faults. Interrupts are off until `gdt_init` has returned. -/
def segNext (tss gdtAddr : Word) (others : Word → Nat → Descriptor) (idt : Idt) (gdt : Gdt) (c : SegCpu) :
    SegStep → Option (SegCpu × Option (Gdt × SegFile))
  | .init st =>
    if (gdtInitSteps tss gdtAddr)[c.done]? = some st then
      match st with
      | .entry num st =>
        let x := st.exec (gdt num, c.loaded)
        some ({ c with loaded := x.2, done := c.done + 1 }, some (Function.update gdt num x.1, c.file))
      | .load a => some ({ c with done := c.done + 1 }, gdtAct gdtAddr others (gdt, c.file) a)
    else none
  | .interrupt vector =>
    if c.done = (gdtInitSteps tss gdtAddr).length ∧ (gateOf idt vector).present = true then
      let selector := (gateOf idt vector).selector
      some ({ c with frames := ((c.file.seg .cs).selector, (c.file.seg .ss).selector) :: c.frames },
        (c.file.enterGate (tableAt gdtAddr others gdt c.file.gdtr.base) selector).map fun f =>
          (markAccessed gdtAddr gdt c.file.gdtr.base selector, f))
    else none
  | .iretq =>
    match c.frames with
    | [] => none
    | (cs, ss) :: frames =>
      some ({ c with frames := frames }, (c.file.iret cs ss (tableAt gdtAddr others gdt c.file.gdtr.base)).map fun f =>
        (markAccessed gdtAddr (markAccessed gdtAddr gdt c.file.gdtr.base cs) c.file.gdtr.base ss, f))

section
variable {Cpu : Type} [DecidableEq Cpu]

/-- The state after a step of `cpu`, with the result of what it loads. -/
def SegState.put (s : SegState Cpu) (cpu : Cpu) (c : SegCpu) (result : Option (Gdt × SegFile)) : SegState Cpu :=
  match result with
  | some (gdt, file) => ⟨gdt, Function.update s.cpu cpu { c with file := file }⟩
  | none => ⟨s.gdt, Function.update s.cpu cpu { s.cpu cpu with faulted := true }⟩

/-- A step of a processor. Each store to a descriptor is a step of its own. -/
def segStep (tss gdtAddr : Word) (others : Word → Nat → Descriptor) (idt : Idt) (s : SegState Cpu) (e : SegEvent Cpu) :
    Option (SegState Cpu) :=
  if (s.cpu e.cpu).faulted then none
  else (segNext tss gdtAddr others idt s.gdt (s.cpu e.cpu) e.step).map fun x => s.put e.cpu x.1 x.2

end

end Neobird64
