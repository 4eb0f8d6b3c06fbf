import Neobird64.State

/-! `ps2_init` of `kern/sys/ps2/ps2.c` and the 8042 controller, which is idle: it takes a byte from its input
    buffer before the processor looks at it again. -/

namespace Neobird64

/-- A byte of the output buffer, and whether it is the reply to the self-test command. -/
structure Ps2Byte where
  value : BitVec 8
  reply : Bool := false
deriving DecidableEq, Repr

structure Ps2Controller where
  output : List Ps2Byte
  /-- The byte that the data port gave last. -/
  last : Ps2Byte
  input : Option (BitVec 8) := none
  /-- What the self-test replies. -/
  selfTest : BitVec 8
deriving DecidableEq, Repr

namespace Ps2Controller

/-- The controller takes the command in its input buffer. -/
def process (c : Ps2Controller) : Ps2Controller :=
  match c.input with
  | some 0xAA => { c with input := none, output := c.output ++ [⟨c.selfTest, true⟩] }
  | _ => { c with input := none }

/-- `outb(PS2_COMMAND_REG, command)`. -/
def outb (c : Ps2Controller) (command : BitVec 8) : Ps2Controller := { c with input := some command }.process

/-- `inb(PS2_DATA_PORT)`. -/
def inbData (c : Ps2Controller) : Ps2Byte × Ps2Controller :=
  match c.output with
  | [] => (c.last, c)
  | data :: output => (data, { c with output, last := data })

/-- `inb(PS2_STATUS_REG)`: bit 0 is that of the output buffer, bit 1 that of the input buffer. -/
def inbStatus (c : Ps2Controller) : BitVec 8 :=
  (if c.output.isEmpty then 0 else 1) ||| (if c.input.isSome then 2 else 0)

end Ps2Controller

/-- A round of a loop of `ps2_init` does not change bit 1 of the status, so a loop with more rounds never ends. -/
def clearFuel : Nat := 2

/-- `while(j != 0)` with the comment "clear buffer". -/
def clearBuffer (s : Ps2Controller × BitVec 16) : Except Halt (Ps2Controller × BitVec 16) :=
  Loop.whileLoop .hang (fun s => decide (s.2 ≠ 0))
    (fun s =>
      let c := s.1.inbData.2
      .ok (c, (c.inbStatus.setWidth 16 >>> 1) &&& 1))
    clearFuel s

/-- What `ps2_init` prints about the self-test. -/
inductive SelfTestReport
  | passed
  | failed
  | unexpected (data : BitVec 16)
deriving DecidableEq, Repr

def judgeSelfTest (data : BitVec 16) : SelfTestReport :=
  if data = 0x55 then .passed else if data = 0xFC then .failed else .unexpected data

/-- What a call of `ps2_init` comes to. -/
structure Ps2InitRun where
  /-- The controller after the first loop. -/
  cleared : Ps2Controller
  /-- The byte that is judged as the result of the self-test. -/
  judged : Ps2Byte
  report : SelfTestReport
  controller : Ps2Controller
deriving DecidableEq, Repr

def ps2Init (c : Ps2Controller) : Except Halt Ps2InitRun := do
  let c := c.outb 0xAD
  let c := c.outb 0xA7
  let (cleared, j) ← clearBuffer (c, 1)
  let c := cleared.outb 0xAA
  let (judged, c) := c.inbData
  let report := judgeSelfTest (judged.value.setWidth 16)
  let (c, _) ← clearBuffer (c, j)
  return { cleared, judged, report, controller := c.outb 0xAE }

end Neobird64
