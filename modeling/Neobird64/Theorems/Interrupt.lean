import Neobird64.Idt
import Mathlib.Data.BitVec
import Mathlib.Tactic.Common

/-! From the stack that the processor builds to the call of `exception_handler` and back by `iretq`. Every stub
    but four leaves 22 words, which the handler reads as its `struct int_frame`; the four push a dummy below
    the error code of the processor. -/

namespace Neobird64
open X86

/-- `isr_common_stub` at its `call`, after the interrupt of `m` on `stack` and the stub of its vector. -/
def atCall (f : Callee) (m : Machine) (stack : Word) (err : Option Word) (stub : List Instr) : Machine :=
  run f (deliver m stack err) (stub ++ isrCommonEntry)

/-- The frame that `exception_handler` gets in `s`. -/
def handlerFrame (s : Machine) : IntFrame := IntFrame.read s.mem (s.regs .rdi)

/-- `m'` goes on where `m` was interrupted. -/
structure Resumes (m m' : Machine) : Prop where
  rip : m'.rip = m.rip
  cs : m'.cs = m.cs
  rflags : m'.rflags = m.rflags
  rsp : m'.rsp = m.rsp
  ss : m'.ss = m.ss
  regs : m'.regs = m.regs

/-- The interrupt of `m` with the error code `err` reaches `exception_handler` as the C code expects it, and
    every handler that keeps the 22 words of the frame returns to `m`. -/
structure InterruptOk (vector : Nat) (stub : List Instr) (m : Machine) (stack : Word) (err : Option Word) : Prop where
  aligned : ∀ f, (atCall f m stack err stub).rsp.toNat % 16 = 0
  intNo : ∀ f, (handlerFrame (atCall f m stack err stub)).intNo = BitVec.ofNat 64 vector
  error : ∀ f, (handlerFrame (atCall f m stack err stub)).err = err.getD 0
  resumes : ∀ f : Callee, f.Keeps (atCall f m stack err stub) 22 →
    Resumes m (run f (atCall f m stack err stub) isrCommonExit)

/-- Each field holds the register of its name. -/
def frameOf (vector : Nat) (m : Machine) : IntFrame where
  r15 := m.regs .r15
  r14 := m.regs .r14
  r13 := m.regs .r13
  r12 := m.regs .r12
  r11 := m.regs .r11
  r10 := m.regs .r10
  r9 := m.regs .r9
  r8 := m.regs .r8
  rdi := m.regs .rdi
  rsi := m.regs .rsi
  rbp := m.regs .rbp
  rdx := m.regs .rdx
  rcx := m.regs .rcx
  rbx := m.regs .rbx
  rax := m.regs .rax
  intNo := BitVec.ofNat 64 vector
  err := 0
  rip := m.rip
  cs := m.cs.setWidth 64
  ss := m.ss.setWidth 64
  rsp := m.rsp
  rflags := m.rflags

section
variable {f : Callee} {m s : Machine} {stack e : Word} {err : Option Word} {vector : Nat} {stub : List Instr} {l : List Word}

/-! ### The common stub -/

/-- The registers that `pushaq` saves, the last one first. -/
def savedRegs : List Reg := [.r15, .r14, .r13, .r12, .r11, .r10, .r9, .r8, .rdi, .rsi, .rbp, .rdx, .rcx, .rbx, .rax]

theorem pushaq_eq : pushaq = savedRegs.reverse.map .push := rfl

theorem popaq_eq : popaq = savedRegs.map .pop := rfl

theorem mem_savedRegs (r : Reg) : r ∈ savedRegs := by
  cases r <;> decide

/-- The 22 words below the interrupted stack. -/
def savedWords (vector : Nat) (e : Word) (m : Machine) : List Word :=
  savedRegs.map m.regs ++ ([BitVec.ofNat 64 vector, e] ++ frameWords m)

theorem entry_eq : run f s isrCommonEntry = exec f (run f s pushaq) (.movRsp .rdi) := by
  rw [isrCommonEntry, run_append, run_cons, run_nil]

theorem pushaq_onStack (h : OnStack s l) (hl : l.length ≤ 16) :
    OnStack (run f s pushaq) (savedRegs.map s.regs ++ l) := by
  have hlen : l.length + savedRegs.reverse.length ≤ 2 ^ 32 := by
    rw [List.length_reverse]
    exact (Nat.add_le_add_right hl _).trans (by decide)
  have hpush := (run_pushes (f := f) h hlen).1
  rw [← pushaq_eq, ← List.map_reverse, List.reverse_reverse] at hpush
  exact hpush

theorem entry_onStack (h : OnStack s l) (hl : l.length ≤ 16) :
    OnStack (run f s isrCommonEntry) (savedRegs.map s.regs ++ l) := by
  have hpush := pushaq_onStack (f := f) h hl
  rw [entry_eq]
  exact ⟨hpush.aligned, hpush.short, hpush.words⟩

theorem entry_rsp : (run f s isrCommonEntry).rsp = s.rsp - 120 := by
  have hpush : (run f s pushaq).rsp = s.rsp - 120 := by
    rw [pushaq_eq]
    exact run_pushes_rsp
  rw [entry_eq]
  exact hpush

theorem entry_rdi : (run f s isrCommonEntry).regs .rdi = (run f s isrCommonEntry).rsp := by
  rw [entry_eq]
  exact movRsp_self

/-- What the common stub saved it restores after every handler that keeps it. -/
theorem exit_resumes (h : OnStack s (savedWords vector e m)) (hf : f.Keeps s 22) : Resumes m (run f s isrCommonExit) := by
  have hcall : OnStack (exec f s .call) (savedWords vector e m) := h.call hf
  obtain ⟨hpop, hregs⟩ := run_pops (f := f) m.regs (by decide : savedRegs.Nodup) hcall
  rw [← popaq_eq] at hpop hregs
  have hframe : OnStack (exec f (run f (exec f s .call) popaq) (.addRsp 16)) (frameWords m) := hpop.discard
  obtain ⟨hrip, hcs, hrflags, hrsp, hss⟩ := iretq_frame (f := f) hframe
  have hrun : run f s isrCommonExit =
      exec f (exec f (run f (exec f s .call) popaq) (.addRsp 16)) .iretq := by
    rw [isrCommonExit, run_cons, run_append]
    rfl
  rw [hrun]
  refine ⟨hrip, hcs, hrflags, hrsp, hss, funext fun r => ?_⟩
  exact (hregs r).trans (if_pos (mem_savedRegs r))

/-- The 22 words as the struct reads them: `ss` and `rflags` are in each other's place. -/
theorem handlerFrame_of_onStack (h : OnStack s (savedWords vector e m)) (hrdi : s.regs .rdi = s.rsp) :
    handlerFrame s = { frameOf vector m with err := e, ss := m.rflags, rflags := m.ss.setWidth 64 } := by
  have hw : ∀ i < 22, s.top i = (savedWords vector e m).getD i 0 := h.words
  rw [handlerFrame, hrdi]
  simp only [IntFrame.read, frameOf, IntFrame.mk.injEq]
  refine ⟨hw 0 ?_, hw 1 ?_, hw 2 ?_, hw 3 ?_, hw 4 ?_, hw 5 ?_, hw 6 ?_, hw 7 ?_, hw 8 ?_, hw 9 ?_, hw 10 ?_, hw 11 ?_,
    hw 12 ?_, hw 13 ?_, hw 14 ?_, hw 15 ?_, hw 16 ?_, hw 17 ?_, hw 18 ?_, hw 19 ?_, hw 20 ?_, hw 21 ?_⟩
  all_goals decide

/-! ### The stubs -/

/-- What the stubs decide one by one: only some of the vectors with an error code go without a dummy. -/
theorem isrStubs_cases (hv : (vector, stub) ∈ isrStubs) :
    (stub = isrNoDummy vector ∧ hasErrorCode vector = true ∧ vector ∉ [17, 21, 29, 30]) ∨
    (stub = isrDummy vector ∧ (hasErrorCode vector = true ↔ vector ∈ [17, 21, 29, 30])) := by
  have hall : ∀ p ∈ isrStubs, (p.2 = isrNoDummy p.1 ∧ hasErrorCode p.1 = true ∧ p.1 ∉ [17, 21, 29, 30]) ∨
      (p.2 = isrDummy p.1 ∧ (hasErrorCode p.1 = true ↔ p.1 ∈ [17, 21, 29, 30])) := by
    decide
  exact hall (vector, stub) hv

theorem atCall_eq : atCall f m stack err stub = run f (run f (deliver m stack err) stub) isrCommonEntry := by
  rw [atCall, run_append]

/-- The stub leaves the words that `isr_common_stub` expects below the interrupted context. -/
structure Leaves (f : Callee) (vector : Nat) (stub : List Instr) (m : Machine) (stack : Word) (err : Option Word) : Prop where
  words : OnStack (run f (deliver m stack err) stub) ([BitVec.ofNat 64 vector, err.getD 0] ++ frameWords m)
  regs : (run f (deliver m stack err) stub).regs = m.regs
  rsp : (run f (deliver m stack err) stub).rsp = (stack &&& ~~~15) - 56

/-- The dummy stands in for an error code that the processor does not push. -/
theorem leaves_isrDummy : Leaves f vector (isrDummy vector) m stack none where
  words := ((deliver_onStack m stack none).push (by simp [frameWords])).push (by simp [frameWords])
  regs := deliver_regs
  rsp := by
    have hrun : (run f (deliver m stack none) (isrDummy vector)).rsp = (deliver m stack none).rsp - 8 - 8 := rfl
    rw [hrun, deliver_rsp, BitVec.sub_sub, BitVec.sub_sub]
    rfl

theorem leaves_isrNoDummy : Leaves f vector (isrNoDummy vector) m stack (some e) where
  words := (deliver_onStack m stack (some e)).push (by simp [frameWords])
  regs := deliver_regs
  rsp := by
    have hrun : (run f (deliver m stack (some e)) (isrNoDummy vector)).rsp = (deliver m stack (some e)).rsp - 8 := rfl
    rw [hrun, deliver_rsp, BitVec.sub_sub]
    rfl

theorem Leaves.atCall_onStack (h : Leaves f vector stub m stack err) :
    OnStack (atCall f m stack err stub) (savedWords vector (err.getD 0) m) := by
  have hentry := entry_onStack (f := f) h.words (by simp [frameWords])
  rw [h.regs, ← atCall_eq] at hentry
  exact hentry

theorem Leaves.handlerFrame_eq (h : Leaves f vector stub m stack err) : handlerFrame (atCall f m stack err stub) =
    { frameOf vector m with err := err.getD 0, ss := m.rflags, rflags := m.ss.setWidth 64 } := by
  have hrdi : (atCall f m stack err stub).regs .rdi = (atCall f m stack err stub).rsp := by
    rw [atCall_eq]
    exact entry_rdi
  exact handlerFrame_of_onStack h.atCall_onStack hrdi

theorem interruptOk_of (h : ∀ f, Leaves f vector stub m stack err) : InterruptOk vector stub m stack err where
  aligned f := by
    rw [atCall_eq, entry_rsp, (h f).rsp, BitVec.sub_sub]
    exact align_sub_mod stack _
  intNo f := by rw [(h f).handlerFrame_eq, frameOf]
  error f := by rw [(h f).handlerFrame_eq]
  resumes f hf := exit_resumes (h f).atCall_onStack hf

/-- A dummy below the error code of the processor is a word too many. -/
theorem isrDummy_misaligned : (atCall f m stack (some e) (isrDummy vector)).rsp.toNat % 16 = 8 := by
  have hrun : (run f (deliver m stack (some e)) (isrDummy vector)).rsp = (stack &&& ~~~15) - 64 := by
    have hpush : (run f (deliver m stack (some e)) (isrDummy vector)).rsp = (deliver m stack (some e)).rsp - 8 - 8 := rfl
    rw [hpush, deliver_rsp, BitVec.sub_sub, BitVec.sub_sub]
    rfl
  rw [atCall_eq, entry_rsp, hrun, BitVec.sub_sub]
  exact align_sub_mod stack _

/-! ### All vectors -/

/-- An interrupted program at 0x400000. -/
def interrupted (ss : BitVec 16) (rflags : Word) : Machine where
  regs _ := 0
  rsp := 0x8000
  rip := 0x400000
  cs := 8
  ss := ss
  rflags := rflags
  mem _ := 0

/-- A handler that only returns. -/
def returning : Callee where
  ret := 0x1000
  body s := { s with rsp := s.rsp + 8 }

/-- The interrupt of a vector is handled as it should be, except where both the processor and the stub push
    an error code. -/
theorem interruptOk_iff (hv : (vector, stub) ∈ isrStubs) (herr : err.isSome = hasErrorCode vector) :
    InterruptOk vector stub m stack err ↔ vector ∉ [17, 21, 29, 30] := by
  rcases isrStubs_cases hv with ⟨rfl, hcode, hgood⟩ | ⟨rfl, hcode⟩
  · rw [hcode, Option.isSome_iff_exists] at herr
    obtain ⟨e, rfl⟩ := herr
    exact iff_of_true (interruptOk_of fun _ => leaves_isrNoDummy) hgood
  · rw [← hcode, ← herr]
    cases err with
    | none => exact iff_of_true (interruptOk_of fun _ => leaves_isrDummy) (by simp)
    | some e =>
      refine iff_of_false (fun hok => ?_) (by simp)
      have haligned := hok.aligned returning
      rw [isrDummy_misaligned] at haligned
      cases haligned

/-- A page fault on a write, and a handler that returns at once. -/
theorem interruptOk_iff_sample : InterruptOk 14 sIsr14 (interrupted 0x10 0x202) 0x8000 (some 2) ∧
    Resumes (interrupted 0x10 0x202)
      (run returning (atCall returning (interrupted 0x10 0x202) 0x8000 (some 2) sIsr14) isrCommonExit) := by
  have hok : InterruptOk 14 sIsr14 (interrupted 0x10 0x202) 0x8000 (some 2) :=
    (interruptOk_iff (by decide) rfl).mpr (by decide)
  have hcall : OnStack (atCall returning (interrupted 0x10 0x202) 0x8000 (some 2) sIsr14)
      (savedWords 14 2 (interrupted 0x10 0x202)) :=
    leaves_isrNoDummy.atCall_onStack
  exact ⟨hok, hok.resumes returning (keeps_of_ret hcall (by decide) fun _ => rfl)⟩

/-- The stub of the alignment check calls `exception_handler` with a stack that is not aligned. -/
theorem alignmentCheck_misaligned : (17, sIsr17) ∈ isrStubs ∧ hasErrorCode 17 = true ∧
    ¬ InterruptOk 17 sIsr17 (interrupted 0x10 0x202) 0x8000 (some 0) := by
  refine ⟨by decide, rfl, fun hok => ?_⟩
  have haligned := hok.aligned returning
  have hmis : (atCall returning (interrupted 0x10 0x202) 0x8000 (some 0) sIsr17).rsp.toNat % 16 = 8 := isrDummy_misaligned
  rw [hmis] at haligned
  cases haligned

/-- What the handler reads is the interrupted context, but for `ss` and `rflags`, which it takes for each other. -/
theorem handlerFrame_iff (hv : (vector, stub) ∈ isrStubs) (herr : hasErrorCode vector = false) :
    handlerFrame (atCall f m stack none stub) = frameOf vector m ↔ m.ss.setWidth 64 = m.rflags := by
  rcases isrStubs_cases hv with ⟨rfl, hcode, -⟩ | ⟨rfl, -⟩
  · rw [hcode] at herr
    cases herr
  · rw [leaves_isrDummy.handlerFrame_eq]
    constructor
    · intro h
      exact congrArg IntFrame.rflags h
    · intro h
      simp only [frameOf, h, Option.getD_none]

theorem handlerFrame_iff_sample : handlerFrame (atCall returning (interrupted 0x202 0x202) 0x8000 none sIsr33) =
    frameOf 33 (interrupted 0x202 0x202) :=
  (handlerFrame_iff (by decide) rfl).mpr rfl

/-- A division error: the handler reports the flags as `ss`. -/
theorem divisionError_ss : (0, sIsr0) ∈ isrStubs ∧ hasErrorCode 0 = false ∧
    (handlerFrame (atCall returning (interrupted 0x10 0x202) 0x8000 none sIsr0)).ss = 0x202 ∧
    handlerFrame (atCall returning (interrupted 0x10 0x202) 0x8000 none sIsr0) ≠ frameOf 0 (interrupted 0x10 0x202) := by
  have hframe : (handlerFrame (atCall returning (interrupted 0x10 0x202) 0x8000 none sIsr0)).ss = 0x202 :=
    congrArg IntFrame.ss leaves_isrDummy.handlerFrame_eq
  refine ⟨by decide, rfl, hframe, fun h => ?_⟩
  rw [h] at hframe
  exact absurd hframe (by decide)

end

end Neobird64
