import Neobird64.Idt
import Neobird64.Printf

/-! What `exception_handler` of `kern/sys/idt.c` prints for an exception. -/

namespace Neobird64

/-- The strings of `exception_messages`. -/
def exceptionMessages : List String := [
  "Division Error", "Debug", "Non Maskable Interrupt", "Breakpoint",
  "Into Detected Overflow", "Out of Bounds", "Invalid Opcode", "No Coprocessor",
  "Double Fault", "Coprocessor Segment Overrun", "Bad TSS", "Segment Not Present",
  "Stack Fault", "General Protection Fault", "Page Fault", "Unknown Interrupt",
  "Coprocessor Fault", "Alignment Check", "Machine Check", "Reserved",
  "Reserved", "Reserved", "Reserved", "Reserved",
  "Reserved", "Reserved", "Reserved", "Reserved",
  "Reserved", "Reserved", "Reserved", "Reserved"]

/-- The calls of `printf`, with the addresses of the strings of `exception_messages`. -/
def reportCalls (messages : Nat → Word) (r : IntFrame) : List (String × List Word) := [
  ("Oh no!{n}", []),
  ("               _.------.{n}", []),
  ("           _.-`    ('>.-`\"-.{n}", []),
  (" '.__.---'`       _'`   _ .--.){n}", []),
  ("        -'         '-.-';`   `           ----  \" You have gotten exception {d}, aka '{s}'. Below is a provided stack frame. \"{n}",
    [r.intNo, messages r.intNo.toNat]),
  ("        ' -      _.'  ``'--. {n}", []),
  ("            '---`    .-'`{n}", []),
  ("                   /`{n}", []),
  ("{n}", []),
  ("{n}", []),
  ("error code 0x{xn}", [r.err]),
  ("rax 0x{x} | rbx 0x{x} | rcx 0x{x} | rdx 0x{xn}", [r.rax, r.rbx, r.rcx, r.rdx]),
  ("rdi 0x{x} | rsi 0x{x} | rbp 0x{xn}", [r.rdi, r.rsi, r.rbp]),
  ("r8 0x{x} | r9 0x{x} | r10 0x{x} | r11 0x{x} | r12 0x{x} | r13 0x{x} | r14 0x{x} | r15 0x{xn}",
    [r.r8, r.r9, r.r10, r.r11, r.r12, r.r13, r.r14, r.r15]),
  ("rip 0x{x} | cs 0x{x} | ss 0x{x} | rsp 0x{x} | rflags 0x{xn}", [r.rip, r.cs, r.ss, r.rsp, r.rflags])]

/-- Calls of `printf`, one after the other. -/
def printfs (mem : VirtualMemory) : List (String × List Word) → Except PrintExit (List Char)
  | [] => .ok []
  | (formatString, args) :: calls => do
    let r ← printf mem formatString.toList args
    let text ← printfs mem calls
    return r.2 ++ text

/-- The text of the report; `hlt` follows. -/
def exceptionReport (mem : VirtualMemory) (messages : Nat → Word) (r : IntFrame) : Except PrintExit (List Char) :=
  printfs mem (reportCalls messages r)

end Neobird64
