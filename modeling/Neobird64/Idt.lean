import Neobird64.Limine
import Neobird64.Lib.X86

/-! `kern/sys/idt.asm` and `idt.h`: the stubs of the interrupt vectors and the frame that they build for
    `exception_handler`. The `jmp` to `isr_common_stub` is left out of the code. -/

namespace Neobird64
open X86

/-- The macro `pushaq`. -/
def pushaq : List Instr := [
  .push .rax, .push .rbx, .push .rcx, .push .rdx, .push .rbp, .push .rsi, .push .rdi, .push .r8,
  .push .r9, .push .r10, .push .r11, .push .r12, .push .r13, .push .r14, .push .r15]

/-- The macro `popaq`. -/
def popaq : List Instr := [
  .pop .r15, .pop .r14, .pop .r13, .pop .r12, .pop .r11, .pop .r10, .pop .r9, .pop .r8,
  .pop .rdi, .pop .rsi, .pop .rbp, .pop .rdx, .pop .rcx, .pop .rbx, .pop .rax]

/-- `isr_common_stub` up to its `call`. -/
def isrCommonEntry : List Instr := pushaq ++ [.movRsp .rdi]

/-- `isr_common_stub` from its `call` on. -/
def isrCommonExit : List Instr := .call :: (popaq ++ [.addRsp 16, .iretq])

/-- A stub that pushes a dummy error code. -/
def isrDummy (vector : Nat) : List Instr := [.pushImm 0, .pushImm (BitVec.ofNat 64 vector)]

/-- A stub that leaves the error code to the processor. -/
def isrNoDummy (vector : Nat) : List Instr := [.pushImm (BitVec.ofNat 64 vector)]

def sIsr0 : List Instr := isrDummy 0
def sIsr1 : List Instr := isrDummy 1
def sIsr2 : List Instr := isrDummy 2
def sIsr3 : List Instr := isrDummy 3
def sIsr4 : List Instr := isrDummy 4
def sIsr5 : List Instr := isrDummy 5
def sIsr6 : List Instr := isrDummy 6
def sIsr7 : List Instr := isrDummy 7
def sIsr8 : List Instr := isrNoDummy 8
def sIsr9 : List Instr := isrDummy 9
def sIsr10 : List Instr := isrNoDummy 10
def sIsr11 : List Instr := isrNoDummy 11
def sIsr12 : List Instr := isrNoDummy 12
def sIsr13 : List Instr := isrNoDummy 13
def sIsr14 : List Instr := isrNoDummy 14
def sIsr15 : List Instr := isrDummy 15
def sIsr16 : List Instr := isrDummy 16
def sIsr17 : List Instr := isrDummy 17
def sIsr18 : List Instr := isrDummy 18
def sIsr19 : List Instr := isrDummy 19
def sIsr20 : List Instr := isrDummy 20
def sIsr21 : List Instr := isrDummy 21
def sIsr22 : List Instr := isrDummy 22
def sIsr23 : List Instr := isrDummy 23
def sIsr24 : List Instr := isrDummy 24
def sIsr25 : List Instr := isrDummy 25
def sIsr26 : List Instr := isrDummy 26
def sIsr27 : List Instr := isrDummy 27
def sIsr28 : List Instr := isrDummy 28
def sIsr29 : List Instr := isrDummy 29
def sIsr30 : List Instr := isrDummy 30
def sIsr31 : List Instr := isrDummy 31
def sIsr33 : List Instr := isrDummy 33
def sIsr172 : List Instr := isrDummy 172

/-- The vectors with a stub, as `idt_init` sets their gates. -/
def isrStubs : List (Nat × List Instr) := [
  (0, sIsr0), (1, sIsr1), (2, sIsr2), (3, sIsr3), (4, sIsr4),
  (5, sIsr5), (6, sIsr6), (7, sIsr7), (8, sIsr8), (9, sIsr9),
  (10, sIsr10), (11, sIsr11), (12, sIsr12), (13, sIsr13), (14, sIsr14),
  (15, sIsr15), (16, sIsr16), (17, sIsr17), (18, sIsr18), (19, sIsr19),
  (20, sIsr20), (21, sIsr21), (22, sIsr22), (23, sIsr23), (24, sIsr24),
  (25, sIsr25), (26, sIsr26), (27, sIsr27), (28, sIsr28), (29, sIsr29),
  (30, sIsr30), (31, sIsr31), (33, sIsr33), (172, sIsr172)]

/-- `struct int_frame`. -/
structure IntFrame where
  r15 : Word
  r14 : Word
  r13 : Word
  r12 : Word
  r11 : Word
  r10 : Word
  r9 : Word
  r8 : Word
  rdi : Word
  rsi : Word
  rbp : Word
  rdx : Word
  rcx : Word
  rbx : Word
  rax : Word
  intNo : Word
  err : Word
  rip : Word
  cs : Word
  ss : Word
  rsp : Word
  rflags : Word
deriving DecidableEq

/-- The fields of the `struct int_frame` at `p`, in the order of their declaration. -/
def IntFrame.read (mem : Memory) (p : Word) : IntFrame :=
  let field (i : Nat) : Word := mem.read64 (p + BitVec.ofNat 64 (8 * i)).toNat
  { r15 := field 0, r14 := field 1, r13 := field 2, r12 := field 3, r11 := field 4, r10 := field 5,
    r9 := field 6, r8 := field 7, rdi := field 8, rsi := field 9, rbp := field 10, rdx := field 11,
    rcx := field 12, rbx := field 13, rax := field 14, intNo := field 15, err := field 16, rip := field 17,
    cs := field 18, ss := field 19, rsp := field 20, rflags := field 21 }

end Neobird64
