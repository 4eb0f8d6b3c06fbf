import Neobird64.Limine
import Neobird64.Lib.Loop
import Neobird64.Lib.Numeral
import Mathlib.Logic.Function.Basic

/-! `kern/include/video.c`: what `print_str`, `print_int` and `print_hex` write to the terminal, and `strlen` of
    `string.c`. -/

namespace Neobird64
open Numeral

/-- Why a print function is left before its end. -/
inductive PrintExit
  /-- The early `return` of a number with too many digits. -/
  | tooManyDigits
  /-- An access outside of the array of the digits. -/
  | outOfBounds
  /-- An entry of the array that was not written. -/
  | uninitialised
  /-- `va_arg` without an argument. -/
  | noArgument
  /-- A loop that never ends. -/
  | hang
deriving DecidableEq, Repr

/-- The bytes at virtual addresses. -/
abbrev VirtualMemory := Word → BitVec 8

/-- The character of a byte. -/
def byteChar (b : BitVec 8) : Char := Char.ofNat b.toNat

/-! ### Strings -/

/-- `len` of `strlen` has 2^64 values. -/
def strlenFuel : Nat := 2 ^ 64

def strlen (mem : VirtualMemory) (str : Word) : Except PrintExit Nat :=
  Loop.whileLoop .hang (fun len => decide (mem (str + BitVec.ofNat 64 len) ≠ 0)) (fun len => .ok (len + 1)) strlenFuel 0

def printStr (mem : VirtualMemory) (str : Word) : Except PrintExit (List Char) := do
  let len ← strlen mem str
  return (List.range len).map fun i => byteChar (mem (str + BitVec.ofNat 64 i))

/-! ### Numbers -/

def MAX_INTERGER_SIZE : Nat := 128

/-- `arr[MAX_INTERGER_SIZE]` of `print_int` and `print_hex`: the entries that were written. -/
abbrev DigitArray := Nat → Option Nat

def storeDigit (arr : DigitArray) (i d : Nat) : Except PrintExit DigitArray :=
  if i < MAX_INTERGER_SIZE then .ok (Function.update arr i (some d)) else .error .outOfBounds

def loadDigit (arr : DigitArray) (i : Nat) : Except PrintExit Nat :=
  if i < MAX_INTERGER_SIZE then
    match arr i with
    | some d => .ok d
    | none => .error .uninitialised
  else .error .outOfBounds

/-- The variables of the loop that collects the digits. -/
structure DigitLoop where
  num : Word
  arr : DigitArray := fun _ => none
  j : Nat := 0
  digitscount : Nat := 0

/-- The body of the loop, with the number of digits at which it gives up. -/
def digitBody (base limit : Nat) (s : DigitLoop) : Except PrintExit DigitLoop := do
  let mod := (s.num % BitVec.ofNat 64 base).toNat
  let arr ← storeDigit s.arr s.j mod
  let num := s.num / BitVec.ofNat 64 base
  let j := s.j + 1
  if j = limit then throw .tooManyDigits
  let digitscount := j
  let arr ← if num = 0 then storeDigit arr j mod else pure arr
  return { num, arr, j, digitscount }

/-- `num` gets smaller in every round. -/
def digitFuel : Nat := 2 ^ 64

def collectDigits (base limit : Nat) (num : Word) : Except PrintExit DigitLoop :=
  Loop.whileLoop .hang (fun s => decide (s.num ≠ 0)) (digitBody base limit) digitFuel { num }

/-- The loop that writes the digits, from the last one that was collected down to the first. -/
def emitDigits (symbol : Nat → List Char) (arr : DigitArray) : Nat → Except PrintExit (List Char)
  | 0 => .ok []
  | i + 1 => do
    let d ← loadDigit arr i
    let text ← emitDigits symbol arr i
    return symbol d ++ text

/-- `print_int` and `print_hex`, which differ in the base, the digits of the `switch` and the limit. -/
def printDigits (base limit : Nat) (A : Alphabet Char) (num : Word) : Except PrintExit (List Char) :=
  match collectDigits base limit num with
  | .error .tooManyDigits => .ok []
  | .error e => .error e
  | .ok s => do
    let text ← emitDigits A.symbol s.arr s.digitscount
    return if s.digitscount = 0 then text ++ ['0'] else text

def decimal : Alphabet Char := ⟨['0', '1', '2', '3', '4', '5', '6', '7', '8', '9'], by decide⟩

def hexadecimal : Alphabet Char :=
  ⟨['0', '1', '2', '3', '4', '5', '6', '7', '8', '9', 'A', 'B', 'C', 'D', 'E', 'F'], by decide⟩

def printInt (num : Word) : Except PrintExit (List Char) := printDigits 10 MAX_INTERGER_SIZE decimal num

def printHex (num : Word) : Except PrintExit (List Char) := printDigits 16 64 hexadecimal num

end Neobird64
