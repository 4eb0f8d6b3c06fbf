import Neobird64.Printf

/-! `kern/include/log.c`, with the colors of `video.h`. -/

namespace Neobird64

def ANSI_COLOR_RED : String := "\x1b[31m"

def ANSI_COLOR_GREEN : String := "\x1b[32m"

def ANSI_COLOR_YELLOW : String := "\x1b[33m"

def ANSI_COLOR_CYAN : String := "\x1b[36m"

def ANSI_COLOR_RESET : String := "\x1b[0m"

/-- What a function of `log.c` prints for the message at `msg`; `literal` is where the linker has put the colors. -/
def logMessage (formatString color : String) (mem : VirtualMemory) (literal : String → Word) (msg : Word) :
    Except PrintExit (List Char) :=
  (printf mem formatString.toList [literal color, literal ANSI_COLOR_RESET, msg]).map Prod.snd

def logPanic : VirtualMemory → (String → Word) → Word → Except PrintExit (List Char) :=
  logMessage "{k}kern_panic: {ksn}" ANSI_COLOR_RED

def logErr : VirtualMemory → (String → Word) → Word → Except PrintExit (List Char) :=
  logMessage "{k}kern_err: {ksn}" ANSI_COLOR_RED

def logWarn : VirtualMemory → (String → Word) → Word → Except PrintExit (List Char) :=
  logMessage "{k}kern_warn: {ksn}" ANSI_COLOR_YELLOW

def logInfo : VirtualMemory → (String → Word) → Word → Except PrintExit (List Char) :=
  logMessage "{k}kern_info: {ksn}" ANSI_COLOR_CYAN

def logSuccess : VirtualMemory → (String → Word) → Word → Except PrintExit (List Char) :=
  logMessage "{k}kern_success: {ksn}" ANSI_COLOR_GREEN

/-- The functions of `log.c`. -/
inductive LogLevel
  | panic | err | warn | info | success
deriving DecidableEq, Repr

def LogLevel.log : LogLevel → VirtualMemory → (String → Word) → Word → Except PrintExit (List Char)
  | .panic => logPanic
  | .err => logErr
  | .warn => logWarn
  | .info => logInfo
  | .success => logSuccess

/-- Calls with the addresses of their messages, in order. `log_panic` disables interrupts and halts. -/
def logs (mem : VirtualMemory) (literal : String → Word) : List (LogLevel × Word) → Except PrintExit (List Char)
  | [] => .ok []
  | (level, msg) :: calls => do
    let text ← level.log mem literal msg
    if level = .panic then return text
    let rest ← logs mem literal calls
    return text ++ rest

end Neobird64
