import Neobird64.Video
import Neobird64.Lib.Transducer

/-! `kern/include/printf.c`. Format strings and arguments are lists, an argument the 64 bits that `va_arg` takes. -/

namespace Neobird64

/-- `NORMAL` and `FORMAT_SPECIFIER`. -/
inductive PrintfState
  | normal
  | formatSpecifier
deriving DecidableEq, Repr

/-- `va_arg`, and what is printed of the argument. -/
def vaArg (print : Word → Except PrintExit (List Char)) : PrintfState × List Word →
    Except PrintExit ((PrintfState × List Word) × List Char)
  | (_, []) => .error .noArgument
  | (state, arg :: args) => (print arg).map fun text => ((state, args), text)

/-- One round of the loop of `printf`. The index of the loop is an `int`, which any string of the kernel's image fits. -/
def printfStep (mem : VirtualMemory) (s : PrintfState × List Word) (current : Char) :
    Except PrintExit ((PrintfState × List Word) × List Char) :=
  match s.1 with
  | .normal =>
    match current with
    | '{' => .ok ((.formatSpecifier, s.2), [])
    | c => .ok (s, [c])
  | .formatSpecifier =>
    match current with
    | 'n' => .ok (s, ['\n'])
    | 'k' => vaArg (printStr mem) s
    | 'd' => vaArg printInt s
    | 'i' => vaArg printInt s
    | 's' => vaArg (printStr mem) s
    | 'c' => vaArg (fun ch => .ok [byteChar (ch.setWidth 8)]) s
    | 'x' => vaArg printHex s
    | 'l' =>
      -- The next character of the alphabet, not of the format.
      match Char.ofNat ('l'.toNat + 1) with
      | 'd' => vaArg printInt s
      | _ => .ok (s, [])
    | '}' => .ok ((.normal, s.2), [])
    | _ => .ok (s, [])

/-- `printf(format_string, ...)`: the arguments that it leaves, and what it writes. -/
def printf (mem : VirtualMemory) (formatString : List Char) (args : List Word) : Except PrintExit (List Word × List Char) :=
  (Transducer.run (printfStep mem) (.normal, args) formatString).map fun r => (r.1.2, r.2)

end Neobird64
