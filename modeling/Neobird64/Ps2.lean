import Mathlib.Data.BitVec

/-! `kern/sys/ps2/ps2.c`: the handler of the keyboard interrupt. `inb` of the data port gives the scancode
    byte of the interrupt. -/

namespace Neobird64

/-- `keyboard_state`: `NORMAL_STATE`, `SHIFT_STATE` and `CAPS_STATE`. -/
inductive KeyboardState
  | normal
  | shift
  | caps
deriving DecidableEq, Repr

def LEFT_SHIFT_PRESSED : BitVec 16 := 0x2A
def LEFT_SHIFT_RELEASED : BitVec 16 := 0xAA
def CAPS_LOCK_PRESSED : BitVec 16 := 0x3A

/-- What a call of `ps2_handler` does besides setting `keyboard_state`. -/
inductive Ps2Effect
  | print (character : Char)
  | apicEoi
deriving DecidableEq, Repr

def asciiTable : List Char := [
  '\x00', '\x00', '1', '2',
  '3', '4', '5', '6',
  '7', '8', '9', '0',
  '-', '=', '\x00', '\x00',
  'q', 'w', 'e', 'r',
  't', 'y', 'u', 'i',
  'o', 'p', '[', ']',
  '\x00', '\x00', 'a', 's',
  'd', 'f', 'g', 'h',
  'j', 'k', 'l', ';',
  '\x27', '\x60', '\x00', '\\',
  'z', 'x', 'c', 'v',
  'b', 'n', 'm', ',',
  '.', '/', '\x00', '*',
  '\x00', ' ']

/-- `ascii_table[scancode]`; `behind` is the memory behind the table. -/
def asciiAt (behind : Nat → Char) (scancode : BitVec 16) : Char :=
  asciiTable.getD scancode.toNat (behind (scancode.toNat - asciiTable.length))

/-- `toupper` of `video.c`, which has no case for `q`. -/
def toupper (c : Char) : Char :=
  match c with
  | 'a' => 'A'
  | 'b' => 'B'
  | 'c' => 'C'
  | 'd' => 'D'
  | 'e' => 'E'
  | 'f' => 'F'
  | 'g' => 'G'
  | 'h' => 'H'
  | 'i' => 'I'
  | 'j' => 'J'
  | 'k' => 'K'
  | 'l' => 'L'
  | 'm' => 'M'
  | 'n' => 'N'
  | 'o' => 'O'
  | 'p' => 'P'
  | 't' => 'T'
  | 'r' => 'R'
  | 's' => 'S'
  | 'u' => 'U'
  | 'v' => 'V'
  | 'w' => 'W'
  | 'x' => 'X'
  | 'y' => 'Y'
  | 'z' => 'Z'
  | c => c

/-- The character of a scancode, 0 when there is none, and the new `keyboard_state`. -/
def ps2Translate2ascii (behind : Nat → Char) (state : KeyboardState) (scancode : BitVec 16) : Char × KeyboardState :=
  if scancode > 0x58 then ('\x00', state)
  else if scancode = LEFT_SHIFT_PRESSED ∧ state ≠ .caps then ('\x00', .shift)
  else if scancode = CAPS_LOCK_PRESSED ∧ state = .normal then ('\x00', .caps)
  else if scancode = CAPS_LOCK_PRESSED ∧ state = .shift then ('\x00', .caps)
  else if asciiAt behind scancode = '\x00' then ('\x00', state)
  else if state = .shift ∨ state = .caps then (toupper (asciiAt behind scancode), state)
  else (asciiAt behind scancode, state)

def ps2Handler (behind : Nat → Char) (state : KeyboardState) (data : BitVec 8) : KeyboardState × List Ps2Effect :=
  let scancode : BitVec 16 := data.setWidth 16
  let state := if scancode = LEFT_SHIFT_RELEASED ∧ state ≠ .caps then .normal else state
  if state = .caps ∧ scancode = CAPS_LOCK_PRESSED then (.normal, [.apicEoi])
  else
    let (character, state) := ps2Translate2ascii behind state scancode
    if character = '\x00' then (state, [.apicEoi])
    else (state, [.print character, .apicEoi])

/-- The indices at which `ps2_translate2ascii` reads `ascii_table`, in order. -/
def ps2TranslateReads (behind : Nat → Char) (state : KeyboardState) (scancode : BitVec 16) : List Nat :=
  if scancode > 0x58 then []
  else if scancode = LEFT_SHIFT_PRESSED ∧ state ≠ .caps then []
  else if scancode = CAPS_LOCK_PRESSED ∧ state = .normal then []
  else if scancode = CAPS_LOCK_PRESSED ∧ state = .shift then []
  else if asciiAt behind scancode = '\x00' then [scancode.toNat]
  else [scancode.toNat, scancode.toNat]

/-- The same for a call of `ps2_handler`. -/
def ps2HandlerReads (behind : Nat → Char) (state : KeyboardState) (data : BitVec 8) : List Nat :=
  let scancode : BitVec 16 := data.setWidth 16
  let state := if scancode = LEFT_SHIFT_RELEASED ∧ state ≠ .caps then .normal else state
  if state = .caps ∧ scancode = CAPS_LOCK_PRESSED then []
  else ps2TranslateReads behind state scancode

/-- `keyboard_state` after the interrupts for `bytes`. -/
def keyboardRun (behind : Nat → Char) (bytes : List (BitVec 8)) : KeyboardState :=
  bytes.foldl (fun state data => (ps2Handler behind state data).1) .normal

end Neobird64
