import Neobird64.Apic
import Neobird64.Idt
import Neobird64.Ps2
import Neobird64.Lib.InterruptController

/-! `exception_handler` of `kern/sys/idt.c` among the interrupts of the boot processor: its LAPIC with the
    timer, and the keyboard behind the I/O APIC. What the processor does, one access to a device or to
    a global at a time, and what the devices do take turns in any order. -/

namespace Neobird64
open InterruptController

inductive HandlerOp
  /-- The `printf` calls for an exception, and `cli; hlt`. -/
  | report (r : IntFrame)
  /-- `apic_timer_ticks++`. -/
  | tick
  /-- `ps2_handler` from its `inb` on, up to what it prints. -/
  | readScancode
  | effect (e : Ps2Effect)
deriving DecidableEq

/-- `apic_timer`. -/
def apicTimerOps : List HandlerOp := [.tick, .effect .apicEoi]

def exceptionHandler (r : IntFrame) : List HandlerOp :=
  (if r.intNo < 32 then [.report r] else []) ++
  ((if r.intNo = 0xAC then apicTimerOps else []) ++
  (if r.intNo = 33 then [.readScancode] else []))

/-- A call of `exception_handler`: what is left of it, and the interrupt flag that `iretq` restores. -/
structure Handler where
  vector : Nat
  todo : List HandlerOp
  interruptFlag : Bool

structure Processor where
  lapic : Controller
  interruptFlag : Bool
  halted : Bool
  /-- The handlers that have not returned, the innermost first. -/
  handlers : List Handler
  apicTimerTicks : Word
  keyboardState : KeyboardState
  /-- The scancodes in the keyboard, the first of them in the output buffer of the controller. -/
  scancodes : List (BitVec 8)
  /-- What the data port gives when the buffer is empty. -/
  lastScancode : BitVec 8
  text : List Char

inductive InterruptEvent
  /-- The LAPIC timer has counted down; `calibrate_timer` gave it vector 172. -/
  | timer
  /-- A key is pressed or released. -/
  | key (data : BitVec 8)
  /-- The interrupted program executes `sti` or `cli`. -/
  | setFlag (flag : Bool)
  /-- The processor takes an interrupt, and the stub of its vector builds the frame. -/
  | accept (r : IntFrame)
  /-- The next step of the innermost handler. -/
  | op
  | iret

namespace Processor

/-- The keyboard controller raises IRQ 1 for each scancode that gets to its output buffer; `ps2_int_init` gave the
    pin vector 33, edge-triggered. -/
def bufferFilled (scancodes : List (BitVec 8)) (lapic : Controller) : Controller :=
  match scancodes with
  | [] => lapic
  | _ :: _ => lapic.request 33

/-- One step of the innermost handler `h`, with `rest` left of it. -/
def exec (behind : Nat → Char) (s : Processor) (h : Handler) (rest : List HandlerOp) (outer : List Handler) :
    HandlerOp → Processor
  | .report _ => { s with interruptFlag := false, halted := true }
  | .tick => { s with apicTimerTicks := apicTimer s.apicTimerTicks, handlers := { h with todo := rest } :: outer }
  | .readScancode =>
    let data := s.scancodes.headD s.lastScancode
    let (state, effects) := ps2Handler behind s.keyboardState data
    { s with
      keyboardState := state
      scancodes := s.scancodes.tail
      lastScancode := data
      lapic := bufferFilled s.scancodes.tail s.lapic
      handlers := { h with todo := effects.map .effect ++ rest } :: outer }
  | .effect (.print c) => { s with text := s.text ++ [c], handlers := { h with todo := rest } :: outer }
  | .effect .apicEoi => { s with lapic := s.lapic.endOfInterrupt, handlers := { h with todo := rest } :: outer }

/-- The gates are interrupt gates, which clear the interrupt flag. -/
def step (behind : Nat → Char) (s : Processor) : InterruptEvent → Option Processor
  | .timer => some { s with lapic := s.lapic.request 172 }
  | .key data => some { s with
      scancodes := s.scancodes ++ [data]
      lapic := if s.scancodes = [] then s.lapic.request 33 else s.lapic }
  | .setFlag flag => if s.handlers = [] ∧ s.halted = false then some { s with interruptFlag := flag } else none
  | .accept r =>
    if s.interruptFlag ∧ s.halted = false then
      s.lapic.accept.bind fun (v, lapic) =>
        if r.intNo = BitVec.ofNat 64 v then
          some { s with
            lapic
            interruptFlag := false
            handlers := ⟨v, exceptionHandler r, s.interruptFlag⟩ :: s.handlers }
        else none
    else none
  | .op =>
    match s.handlers with
    | h :: outer =>
      match h.todo with
      | op :: rest => if s.halted then none else some (exec behind s h rest outer op)
      | [] => none
    | [] => none
  | .iret =>
    match s.handlers with
    | ⟨_, [], flag⟩ :: outer => some { s with handlers := outer, interruptFlag := flag }
    | _ => none

end Processor

end Neobird64
