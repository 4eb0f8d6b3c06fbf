import Neobird64.ExceptionReport
import Neobird64.Theorems.Interrupt
import Neobird64.Theorems.Printf
import Neobird64.Lib.Template

/-! The report of an exception can be read back: the numerals in its text are the fields of the frame. With the stubs,
    they are the registers of the interrupted program. -/

namespace Neobird64
open Numeral Transducer Template X86

/-! ### Reading the report -/

/-- The characters of what a specifier writes. A string goes up to the next quote. -/
def inside (specifier a : Char) : Bool :=
  if specifier = 'd' ∨ specifier = 'i' then decide (a ∈ decimal.symbols)
  else if specifier = 'x' then decide (a ∈ hexadecimal.symbols)
  else a ≠ '\x27'

/-- The text that a format string makes, with a field for each argument. -/
def pieces : PrintfState → List Char → List (Piece Char)
  | _, [] => []
  | .normal, c :: f => if c = '{' then pieces .formatSpecifier f else .symbol c :: pieces .normal f
  | .formatSpecifier, c :: f =>
    if c = '}' then pieces .normal f
    else if takesArg c then .field (inside c) :: pieces .formatSpecifier f
    else if c = 'n' then .symbol '\n' :: pieces .formatSpecifier f
    else pieces .formatSpecifier f

/-- The specifiers that take the arguments, in order. -/
def specifiers : PrintfState → List Char → List Char
  | _, [] => []
  | .normal, c :: f => if c = '{' then specifiers .formatSpecifier f else specifiers .normal f
  | .formatSpecifier, c :: f =>
    if c = '}' then specifiers .normal f
    else if takesArg c then c :: specifiers .formatSpecifier f
    else specifiers .formatSpecifier f

def reportTemplate (calls : List (String × List Word)) : List (Piece Char) :=
  calls.flatMap fun call => pieces .normal call.1.toList

def readWord (A : Alphabet Char) (text : List Char) : Option Word := (Numeral.read A text).map (BitVec.ofNat 64)

/-- The fields of the frame, in the order of the report. -/
def readFields : List (List Char) → Option IntFrame
  | [intNo, _, err, rax, rbx, rcx, rdx, rdi, rsi, rbp, r8, r9, r10, r11, r12, r13, r14, r15, rip, cs, ss, rsp, rflags] => do
    let hex := readWord hexadecimal
    return {
      r15 := ← hex r15, r14 := ← hex r14, r13 := ← hex r13, r12 := ← hex r12, r11 := ← hex r11, r10 := ← hex r10,
      r9 := ← hex r9, r8 := ← hex r8, rdi := ← hex rdi, rsi := ← hex rsi, rbp := ← hex rbp, rdx := ← hex rdx,
      rcx := ← hex rcx, rbx := ← hex rbx, rax := ← hex rax, intNo := ← readWord decimal intNo, err := ← hex err,
      rip := ← hex rip, cs := ← hex cs, ss := ← hex ss, rsp := ← hex rsp, rflags := ← hex rflags }
  | _ => none

/-- The frame in the text of a report. -/
def readReport (text : List Char) : Option IntFrame :=
  (scan (reportTemplate (reportCalls (fun _ => 0) (IntFrame.read (fun _ => 0) 0))) text).bind readFields

/-- The string of the vector is where `exception_messages` says. -/
def MessageAt (mem : VirtualMemory) (messages : Nat → Word) (vector : Nat) : Prop :=
  stringAt mem (messages vector) = .ok (exceptionMessages.getD vector "").toList

/-- The frame that is reported for the interrupt of `m` with the error code `err`. The words of the processor are one
    field off where the stub pushes a dummy below an error code, and `ss` and `rflags` are in each other's place elsewhere. -/
def reportedFrame (vector : Nat) (m : Machine) (err : Option Word) : IntFrame :=
  if err.isSome ∧ vector ∈ [17, 21, 29, 30] then
    { frameOf vector m with rip := err.getD 0, cs := m.rip, ss := m.cs.setWidth 64, rsp := m.rflags, rflags := m.rsp }
  else { frameOf vector m with err := err.getD 0, ss := m.rflags, rflags := m.ss.setWidth 64 }

section
variable {mem : VirtualMemory} {messages : Nat → Word} {r : IntFrame} {f : List Char} {args rest : List Word}
variable {texts : List (List Char)} {state : PrintfState} {c : Char} {arg : Word}

/-- The texts that the specifiers write for their arguments. -/
inductive Renders (mem : VirtualMemory) : List Char → List Word → List (List Char) → Prop
  | nil : Renders mem [] [] []
  | cons {c : Char} {arg : Word} {text : List Char} {cs : List Char} {args : List Word} {texts : List (List Char)}
      (htext : renderArg mem arg c = .ok text) (hinside : ∀ a ∈ text, inside c a = true) (h : Renders mem cs args texts) :
      Renders mem (c :: cs) (arg :: args) (text :: texts)

theorem pieces_fits (h : Renders mem (specifiers state f) args texts) : Fits (pieces state f) texts := by
  induction f generalizing state args texts with
  | nil =>
    cases state <;>
    · cases h
      exact .nil
  | cons c f ih =>
    cases state with
    | normal =>
      rw [specifiers] at h
      rw [pieces]
      split
      · rename_i hc
        rw [if_pos hc] at h
        exact ih h
      · rename_i hc
        rw [if_neg hc] at h
        exact .symbol _ (ih h)
    | formatSpecifier =>
      rw [specifiers] at h
      rw [pieces]
      by_cases hclose : c = '}'
      · rw [if_pos hclose] at h ⊢
        exact ih h
      · rw [if_neg hclose] at h ⊢
        by_cases htakes : takesArg c = true
        · rw [if_pos htakes] at h ⊢
          cases h with
          | cons htext hinside h => exact .field hinside (ih h)
        · rw [if_neg htakes] at h ⊢
          split
          · exact .symbol _ (ih h)
          · exact ih h

/-- `printf` fills the template of its format string. -/
theorem run_pieces (rest : List Word) (h : Renders mem (specifiers state f) args texts) : ∃ state',
    run (printfStep mem) (state, args ++ rest) f = .ok ((state', rest), fill (pieces state f) texts) := by
  induction f generalizing state args texts with
  | nil =>
    cases state <;>
    · cases h
      exact ⟨_, rfl⟩
  | cons c f ih =>
    cases state with
    | normal =>
      rw [specifiers] at h
      rw [pieces]
      split
      · rename_i hc
        subst hc
        obtain ⟨state', hrun⟩ := ih (by rwa [if_pos rfl] at h)
        exact ⟨state', (run_cons_of_silent rfl).trans hrun⟩
      · rename_i hc
        rw [if_neg hc] at h
        obtain ⟨state', hrun⟩ := ih h
        refine ⟨state', ?_⟩
        rw [run_cons_of_ok (printfStep_text hc), hrun]
        rfl
    | formatSpecifier =>
      rw [specifiers] at h
      rw [pieces]
      by_cases hclose : c = '}'
      · subst hclose
        obtain ⟨state', hrun⟩ := ih (by rwa [if_pos rfl] at h)
        exact ⟨state', (run_cons_of_silent rfl).trans hrun⟩
      · rw [if_neg hclose] at h ⊢
        by_cases htakes : takesArg c = true
        · rw [if_pos htakes] at h ⊢
          cases h with
          | @cons c arg text cs args texts htext hinside h =>
            obtain ⟨state', hrun⟩ := ih h
            refine ⟨state', ?_⟩
            have hstep : printfStep mem (.formatSpecifier, arg :: args ++ rest) c =
                .ok ((.formatSpecifier, args ++ rest), text) := by
              rw [printfStep_specifier hclose, List.cons_append, renderSpecifier_cons htakes, htext]
              rfl
            rw [run_cons_of_ok hstep, hrun]
            rfl
        · rw [if_neg htakes] at h ⊢
          obtain ⟨state', hrun⟩ := ih h
          refine ⟨state', ?_⟩
          have hstep : printfStep mem (.formatSpecifier, args ++ rest) c =
              .ok ((.formatSpecifier, args ++ rest), if c = 'n' then ['\n'] else []) := by
            rw [printfStep_specifier hclose, renderSpecifier_of_not htakes]
            rfl
          rw [run_cons_of_ok hstep, hrun]
          split <;> rfl

theorem printf_fill (h : Renders mem (specifiers .normal f) args texts) :
    printf mem f args = .ok ([], fill (pieces .normal f) texts) := by
  obtain ⟨state', hrun⟩ := run_pieces [] h
  rw [List.append_nil] at hrun
  rw [printf, hrun]
  rfl

/-! ### The calls -/

/-- Each call gets what its specifiers need. -/
def RendersCalls (mem : VirtualMemory) : List (String × List Word) → List (List (List Char)) → Prop :=
  List.Forall₂ fun call texts => Renders mem (specifiers .normal call.1.toList) call.2 texts

theorem printfs_fill {calls : List (String × List Word)} {textss : List (List (List Char))} (h : RendersCalls mem calls textss) :
    Fits (reportTemplate calls) textss.flatten ∧ printfs mem calls = .ok (fill (reportTemplate calls) textss.flatten) := by
  induction h with
  | nil => exact ⟨.nil, rfl⟩
  | @cons call texts calls textss h _ ih =>
    obtain ⟨hfits, hprint⟩ := ih
    have hcall := pieces_fits h
    rw [reportTemplate, List.flatMap_cons, List.flatten_cons, fill_append hcall]
    refine ⟨hcall.append hfits, ?_⟩
    rw [printfs, printf_fill h, hprint]
    rfl

theorem RendersCalls.cons {formatString : String} {cs : List Char} {calls : List (String × List Word)}
    {textss : List (List (List Char))} (h : Renders mem cs args texts) (hcs : specifiers .normal formatString.toList = cs)
    (hcalls : RendersCalls mem calls textss) : RendersCalls mem ((formatString, args) :: calls) (texts :: textss) :=
  List.Forall₂.cons (by rw [hcs]; exact h) hcalls

/-! ### The arguments -/

theorem mem_numeral {A : Alphabet Char} {n : Nat} (h : c ∈ numeral A n) : c ∈ A.symbols := by
  have hsymbol : ∀ d, c ∈ A.symbol d → c ∈ A.symbols := fun d hd =>
    List.mem_of_getElem? (Option.mem_toList.mp hd)
  rw [numeral] at h
  split at h
  · exact hsymbol 0 h
  · obtain ⟨d, -, hd⟩ := List.mem_flatMap.mp h
    exact hsymbol d hd

theorem renders_decimal {cs : List Char} (h : Renders mem cs args texts) :
    Renders mem ('d' :: cs) (arg :: args) (numeral decimal arg.toNat :: texts) :=
  .cons rfl (fun _ ha => decide_eq_true (mem_numeral ha)) h

def hexText (w : Word) : List Char := numeral hexadecimal w.toNat

theorem renders_hexadecimal (args : List Word) : Renders mem (List.replicate args.length 'x') args (args.map hexText) := by
  induction args with
  | nil => exact .nil
  | cons arg args ih => exact .cons rfl (fun _ ha => decide_eq_true (mem_numeral ha)) ih

/-- A call whose arguments are printed in base 16. -/
theorem RendersCalls.hexadecimal {formatString : String} {calls : List (String × List Word)} {textss : List (List (List Char))}
    {n : Nat} (hcs : specifiers .normal formatString.toList = List.replicate n 'x') (hlength : args.length = n)
    (hcalls : RendersCalls mem calls textss) :
    RendersCalls mem ((formatString, args) :: calls) (args.map hexText :: textss) := by
  subst hlength
  exact .cons (renders_hexadecimal args) hcs hcalls

theorem message_inside : ∀ s ∈ exceptionMessages, ∀ a ∈ s.toList, inside 's' a = true := by
  have hall : (exceptionMessages.all fun s => s.toList.all (inside 's')) = true := by decide +kernel
  exact fun s hs => List.all_eq_true.mp (List.all_eq_true.mp hall s hs)

theorem readWord_numeral {A : Alphabet Char} (h : 1 < A.base) (w : Word) : readWord A (numeral A w.toNat) = some w := by
  rw [readWord, (canonical_numeral h _).value, Option.map_some, BitVec.ofNat_toNat, BitVec.setWidth_eq]

/-! ### The report -/

/-- What is written for the arguments of each call. -/
def reportTexts (r : IntFrame) : List (List (List Char)) := [
  [], [], [], [], [numeral decimal r.intNo.toNat, (exceptionMessages.getD r.intNo.toNat "").toList], [], [], [], [], [],
  [hexText r.err], [hexText r.rax, hexText r.rbx, hexText r.rcx, hexText r.rdx], [hexText r.rdi, hexText r.rsi, hexText r.rbp],
  [hexText r.r8, hexText r.r9, hexText r.r10, hexText r.r11, hexText r.r12, hexText r.r13, hexText r.r14, hexText r.r15],
  [hexText r.rip, hexText r.cs, hexText r.ss, hexText r.rsp, hexText r.rflags]]

theorem report_renders (hmem : MessageAt mem messages r.intNo.toNat) (h : r.intNo < 32) :
    RendersCalls mem (reportCalls messages r) (reportTexts r) := by
  have hmessage : Renders mem ['s'] [messages r.intNo.toNat] [(exceptionMessages.getD r.intNo.toNat "").toList] := by
    have hlt : r.intNo.toNat < 32 := h
    refine .cons hmem (message_inside _ ?_) .nil
    rw [List.getD_eq_getElem?_getD, List.getElem?_eq_getElem (show _ < exceptionMessages.length from hlt)]
    exact List.getElem_mem _
  unfold reportCalls reportTexts
  refine .hexadecimal (n := 0) (by decide +kernel) rfl ?_
  refine .hexadecimal (n := 0) (by decide +kernel) rfl ?_
  refine .hexadecimal (n := 0) (by decide +kernel) rfl ?_
  refine .hexadecimal (n := 0) (by decide +kernel) rfl ?_
  refine .cons (renders_decimal hmessage) (by decide +kernel) ?_
  refine .hexadecimal (n := 0) (by decide +kernel) rfl ?_
  refine .hexadecimal (n := 0) (by decide +kernel) rfl ?_
  refine .hexadecimal (n := 0) (by decide +kernel) rfl ?_
  refine .hexadecimal (n := 0) (by decide +kernel) rfl ?_
  refine .hexadecimal (n := 0) (by decide +kernel) rfl ?_
  refine .hexadecimal (n := 1) (by decide +kernel) rfl ?_
  refine .hexadecimal (n := 4) (by decide +kernel) rfl ?_
  refine .hexadecimal (n := 3) (by decide +kernel) rfl ?_
  refine .hexadecimal (n := 8) (by decide +kernel) rfl ?_
  exact .hexadecimal (n := 5) (by decide +kernel) rfl List.Forall₂.nil

theorem report_separated : separated (reportTemplate (reportCalls (fun _ => 0) (IntFrame.read (fun _ => 0) 0))) = true := by
  decide +kernel

theorem readFields_texts : readFields (reportTexts r).flatten = some r := by
  have hdecimal : ∀ w : Word, readWord decimal (numeral decimal w.toNat) = some w := readWord_numeral (by decide)
  have hhexadecimal : ∀ w : Word, readWord hexadecimal (hexText w) = some w := readWord_numeral (by decide)
  simp only [reportTexts, List.flatten_cons, List.flatten_nil, List.append_nil, List.nil_append, List.cons_append, readFields,
    hdecimal, hhexadecimal]
  rfl

/-- Every frame of an exception can be read from its report. -/
theorem readReport_exceptionReport (hmem : MessageAt mem messages r.intNo.toNat) (h : r.intNo < 32) :
    ∃ text, exceptionReport mem messages r = .ok text ∧ readReport text = some r := by
  obtain ⟨hfits, hprint⟩ := printfs_fill (report_renders hmem h)
  have htemplate : reportTemplate (reportCalls messages r) =
      reportTemplate (reportCalls (fun _ => 0) (IntFrame.read (fun _ => 0) 0)) := rfl
  rw [htemplate] at hfits hprint
  refine ⟨_, hprint, ?_⟩
  rw [readReport, scan_fill report_separated hfits, Option.bind_some, readFields_texts]

/-- A memory with the string of the page fault at 0. -/
def pageFaultString (p : Word) : BitVec 8 :=
  [0x50, 0x61, 0x67, 0x65, 0x20, 0x46, 0x61, 0x75, 0x6C, 0x74].getD p.toNat 0

theorem pageFaultString_at : MessageAt pageFaultString (fun _ => 0) 14 := by
  rw [MessageAt, stringAt_of_nul (n := 10) (by decide) (by decide)]
  decide +kernel

theorem readReport_exceptionReport_sample : ∃ text,
    exceptionReport pageFaultString (fun _ => 0) (frameOf 14 (interrupted 0x10 0x202)) = .ok text ∧
      readReport text = some (frameOf 14 (interrupted 0x10 0x202)) :=
  readReport_exceptionReport pageFaultString_at (by decide)

/-! ### Exceptions -/

variable {callee : Callee} {m : Machine} {stack e : Word} {err : Option Word} {vector : Nat} {stub : List Instr}

/-- A dummy below the error code of the processor. -/
theorem isrDummy_frame : handlerFrame (atCall callee m stack (some e) (isrDummy vector)) =
    { frameOf vector m with rip := e, cs := m.rip, ss := m.cs.setWidth 64, rsp := m.rflags, rflags := m.rsp } := by
  have hwords : OnStack (run callee (deliver m stack (some e)) (isrDummy vector)) (BitVec.ofNat 64 vector :: 0 :: e :: frameWords m) :=
    ((deliver_onStack m stack (some e)).push (by simp [frameWords])).push (by simp [frameWords])
  have hentry := entry_onStack (f := callee) hwords (by simp [frameWords])
  have hregs : (run callee (deliver m stack (some e)) (isrDummy vector)).regs = m.regs := deliver_regs
  rw [hregs, ← atCall_eq] at hentry
  have hrdi : (atCall callee m stack (some e) (isrDummy vector)).regs .rdi =
      (atCall callee m stack (some e) (isrDummy vector)).rsp := by
    rw [atCall_eq]
    exact entry_rdi
  have hw := hentry.words
  rw [handlerFrame, hrdi]
  simp only [IntFrame.read, frameOf, IntFrame.mk.injEq]
  refine ⟨hw 0 ?_, hw 1 ?_, hw 2 ?_, hw 3 ?_, hw 4 ?_, hw 5 ?_, hw 6 ?_, hw 7 ?_, hw 8 ?_, hw 9 ?_, hw 10 ?_, hw 11 ?_,
    hw 12 ?_, hw 13 ?_, hw 14 ?_, hw 15 ?_, hw 16 ?_, hw 17 ?_, hw 18 ?_, hw 19 ?_, hw 20 ?_, hw 21 ?_⟩
  all_goals simp [savedRegs, frameWords]

theorem handlerFrame_reported (hv : (vector, stub) ∈ isrStubs) (herr : err.isSome = hasErrorCode vector) :
    handlerFrame (atCall callee m stack err stub) = reportedFrame vector m err := by
  rcases isrStubs_cases hv with ⟨rfl, hcode, hgood⟩ | ⟨rfl, hcode⟩
  · rw [hcode] at herr
    obtain ⟨e, rfl⟩ := Option.isSome_iff_exists.mp herr
    rw [reportedFrame, if_neg fun h => hgood h.2]
    exact leaves_isrNoDummy.handlerFrame_eq
  · rw [← herr] at hcode
    cases err with
    | none =>
      rw [reportedFrame, if_neg fun h => nomatch h.1]
      exact leaves_isrDummy.handlerFrame_eq
    | some e =>
      rw [reportedFrame, if_pos ⟨rfl, hcode.mp rfl⟩]
      exact isrDummy_frame

/-- The report of every exception gives back the frame of the interrupted program, as far as its stub got it right. -/
theorem exceptionReport_interrupted (hv : (vector, stub) ∈ isrStubs) (hlt : vector < 32)
    (herr : err.isSome = hasErrorCode vector) (hmem : MessageAt mem messages vector) :
    ∃ text, exceptionReport mem messages (handlerFrame (atCall callee m stack err stub)) = .ok text ∧
      readReport text = some (reportedFrame vector m err) := by
  rw [handlerFrame_reported hv herr]
  have hno : (reportedFrame vector m err).intNo = BitVec.ofNat 64 vector := by
    unfold reportedFrame
    split <;> rfl
  have hvector : (BitVec.ofNat 64 vector).toNat = vector := by
    rw [BitVec.toNat_ofNat]
    exact Nat.mod_eq_of_lt (by omega)
  refine readReport_exceptionReport ?_ ?_
  · rw [hno, hvector]
    exact hmem
  · rw [hno, BitVec.lt_def, hvector]
    exact hlt

/-- A page fault on a write: the report gives the flags as `ss`. -/
theorem exceptionReport_interrupted_sample : ∃ text,
    exceptionReport pageFaultString (fun _ => 0)
      (handlerFrame (atCall returning (interrupted 0x10 0x202) 0x8000 (some 2) sIsr14)) = .ok text ∧
    (readReport text).map (fun r => (r.err, r.ss, r.rflags)) = some (2, 0x202, 0x10) := by
  have hreport : ∃ text, exceptionReport pageFaultString (fun _ => 0)
      (handlerFrame (atCall returning (interrupted 0x10 0x202) 0x8000 (some 2) sIsr14)) = .ok text ∧
      readReport text = some (reportedFrame 14 (interrupted 0x10 0x202) (some 2)) :=
    exceptionReport_interrupted (by decide) (by decide) rfl pageFaultString_at
  obtain ⟨text, htext, hread⟩ := hreport
  refine ⟨text, htext, ?_⟩
  rw [hread]
  rfl

end

end Neobird64
