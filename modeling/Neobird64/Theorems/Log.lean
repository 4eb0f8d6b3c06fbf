import Neobird64.Log
import Neobird64.Theorems.Printf
import Neobird64.Lib.TaggedLines

/-! The console can be read back: the messages of all calls of `log.c` come out of its text as they were, with the function
    that printed each, whatever they contain besides newlines. -/

namespace Neobird64
open Transducer TaggedLines

/-- The beginning of a line: the color, the name, and the end of the color. -/
def LogLevel.header : LogLevel → List Char
  | .panic => (ANSI_COLOR_RED ++ "kern_panic: " ++ ANSI_COLOR_RESET).toList
  | .err => (ANSI_COLOR_RED ++ "kern_err: " ++ ANSI_COLOR_RESET).toList
  | .warn => (ANSI_COLOR_YELLOW ++ "kern_warn: " ++ ANSI_COLOR_RESET).toList
  | .info => (ANSI_COLOR_CYAN ++ "kern_info: " ++ ANSI_COLOR_RESET).toList
  | .success => (ANSI_COLOR_GREEN ++ "kern_success: " ++ ANSI_COLOR_RESET).toList

def logLevels : List LogLevel := [.panic, .err, .warn, .info, .success]

/-- The messages in the text of the console, with the functions that printed them. -/
def readLog (text : List Char) : Option (List (LogLevel × List Char)) := TaggedLines.read logLevels LogLevel.header '\n' text

/-- The entries up to the first panic. -/
def untilPanic : List (LogLevel × List Char) → List (LogLevel × List Char)
  | [] => []
  | x :: xs => if x.1 = .panic then [x] else x :: untilPanic xs

/-- The colors are where the linker has put them. -/
def ColorsAt (mem : VirtualMemory) (literal : String → Word) : Prop :=
  ∀ color ∈ [ANSI_COLOR_RED, ANSI_COLOR_GREEN, ANSI_COLOR_YELLOW, ANSI_COLOR_CYAN, ANSI_COLOR_RESET],
    stringAt mem (literal color) = .ok color.toList

/-- The calls have these messages, each on one line. -/
def Messages (mem : VirtualMemory) : List (LogLevel × Word) → List (LogLevel × List Char) → Prop :=
  List.Forall₂ fun call entry => call.1 = entry.1 ∧ stringAt mem call.2 = .ok entry.2 ∧ '\n' ∉ entry.2

section
variable {mem : VirtualMemory} {literal : String → Word} {formatString color : String} {name text : List Char} {msg arg : Word}
variable {args : List Word} {level : LogLevel} {calls : List (LogLevel × Word)} {entries : List (LogLevel × List Char)} {c : Char}

theorem printfStep_string (args : List Word) (hc : c = 'k' ∨ c = 's') (h : stringAt mem arg = .ok text) :
    printfStep mem (.formatSpecifier, arg :: args) c = .ok ((.formatSpecifier, args), text) := by
  have hne : c ≠ '}' := by
    rintro rfl
    exact absurd hc (by decide)
  have htakes : takesArg c = true := by
    rcases hc with rfl | rfl <;> decide
  have hrender : renderArg mem arg c = stringAt mem arg := by
    rcases hc with rfl | rfl <;> rfl
  rw [printfStep_specifier hne, renderSpecifier_cons htakes, hrender, h]
  rfl

/-- The message is an argument of `printf`, never a part of its format. -/
theorem logMessage_eq (hcolors : ColorsAt mem literal)
    (hcolor : color ∈ [ANSI_COLOR_RED, ANSI_COLOR_GREEN, ANSI_COLOR_YELLOW, ANSI_COLOR_CYAN, ANSI_COLOR_RESET])
    (hformat : formatString.toList = '{' :: 'k' :: '}' :: (name ++ ['{', 'k', 's', 'n', '}'])) (hname : '{' ∉ name)
    (hmsg : stringAt mem msg = .ok text) :
    logMessage formatString color mem literal msg = .ok (color.toList ++ name ++ ANSI_COLOR_RESET.toList ++ text ++ ['\n']) := by
  have hcolor := printfStep_string [literal ANSI_COLOR_RESET, msg] (Or.inl rfl) (hcolors color hcolor)
  have hreset := printfStep_string [msg] (Or.inl rfl) (hcolors ANSI_COLOR_RESET (by simp))
  have hmessage := printfStep_string [] (Or.inr rfl) hmsg
  have hnewline : printfStep mem (.formatSpecifier, []) 'n' = .ok ((.formatSpecifier, []), ['\n']) := rfl
  have hend : run (printfStep mem) (.normal, [literal ANSI_COLOR_RESET, msg]) ['{', 'k', 's', 'n', '}'] =
      .ok ((.normal, []), ANSI_COLOR_RESET.toList ++ (text ++ ['\n'])) := by
    rw [run_cons_of_silent rfl, run_cons_of_ok hreset, run_cons_of_ok hmessage, run_cons_of_ok hnewline, run_cons_of_silent rfl]
    rfl
  rw [logMessage, printf, hformat, run_cons_of_silent rfl, run_cons_of_ok hcolor, run_cons_of_silent rfl, run_append,
    run_text fun c hc => ne_of_mem_of_not_mem hc hname]
  simp only [Except.bind, hend, Except.map, List.append_assoc]

/-- Each function prints one line. -/
theorem log_eq (level : LogLevel) (hcolors : ColorsAt mem literal) (hmsg : stringAt mem msg = .ok text) :
    level.log mem literal msg = .ok (line LogLevel.header '\n' (level, text)) := by
  have hheader : ∀ color name : String, (color ++ name ++ ANSI_COLOR_RESET).toList =
      color.toList ++ name.toList ++ ANSI_COLOR_RESET.toList := fun color name => by
    rw [String.toList_append, String.toList_append]
  rw [line]
  cases level with
  | panic =>
    rw [LogLevel.header, hheader]
    exact logMessage_eq hcolors (by simp) (by decide +kernel) (by decide +kernel) hmsg
  | err =>
    rw [LogLevel.header, hheader]
    exact logMessage_eq hcolors (by simp) (by decide +kernel) (by decide +kernel) hmsg
  | warn =>
    rw [LogLevel.header, hheader]
    exact logMessage_eq hcolors (by simp) (by decide +kernel) (by decide +kernel) hmsg
  | info =>
    rw [LogLevel.header, hheader]
    exact logMessage_eq hcolors (by simp) (by decide +kernel) (by decide +kernel) hmsg
  | success =>
    rw [LogLevel.header, hheader]
    exact logMessage_eq hcolors (by simp) (by decide +kernel) (by decide +kernel) hmsg

/-! ### All calls -/

theorem logs_eq (hcolors : ColorsAt mem literal) (h : Messages mem calls entries) :
    logs mem literal calls = .ok (TaggedLines.text LogLevel.header '\n' (untilPanic entries)) := by
  induction h with
  | nil => rfl
  | @cons call entry calls entries h _ ih =>
    obtain ⟨level, msg⟩ := call
    obtain ⟨level', text⟩ := entry
    obtain ⟨hlevel, hmsg, -⟩ := h
    obtain rfl : level = level' := hlevel
    rw [logs, log_eq level hcolors hmsg, Loop.ok_bind, untilPanic]
    by_cases hpanic : level = .panic
    · rw [if_pos hpanic, if_pos hpanic, TaggedLines.text, List.flatMap_cons, List.flatMap_nil, List.append_nil]
      rfl
    · rw [if_neg hpanic, if_neg hpanic, ih]
      rfl

theorem mem_untilPanic {x : LogLevel × List Char} (h : x ∈ untilPanic entries) : x ∈ entries := by
  induction entries with
  | nil => cases h
  | cons y entries ih =>
    rw [untilPanic] at h
    split at h
    · rw [List.mem_singleton.mp h]
      exact List.mem_cons_self
    · rcases List.mem_cons.mp h with rfl | h
      · exact List.mem_cons_self
      · exact List.mem_cons_of_mem _ (ih h)

theorem messages_oneLine (h : Messages mem calls entries) : ∀ x ∈ entries, '\n' ∉ x.2 := by
  induction h with
  | nil => exact nofun
  | cons h _ ih => exact List.forall_mem_cons.mpr ⟨h.2.2, ih⟩

theorem header_free : ∀ l ∈ logLevels, ∀ l' ∈ logLevels, l.header <+: l'.header → l = l' := by
  decide +kernel

/-- What the calls of `log.c` print reads back as their messages, up to the first panic, which halts. -/
theorem readLog_logs (hcolors : ColorsAt mem literal) (h : Messages mem calls entries) :
    ∃ text, logs mem literal calls = .ok text ∧ readLog text = some (untilPanic entries) := by
  refine ⟨_, logs_eq hcolors h, read_text header_free (by decide +kernel) fun x hx => ⟨?_, ?_⟩⟩
  · have hall : ∀ level, level ∈ logLevels := fun level => by
      cases level <;> decide
    exact hall x.1
  · exact messages_oneLine h x (mem_untilPanic hx)

end

/-- The colors from 0 on, and two messages of which one looks like a format. -/
def logMemory (p : Word) : BitVec 8 :=
  [0x1B, 0x5B, 0x33, 0x31, 0x6D, 0, 0x1B, 0x5B, 0x33, 0x32, 0x6D, 0, 0x1B, 0x5B, 0x33, 0x33, 0x6D, 0, 0x1B, 0x5B, 0x33, 0x36,
    0x6D, 0, 0x1B, 0x5B, 0x30, 0x6D, 0, 0x7B, 0x73, 0x7D, 0, 0x48, 0x69].getD p.toNat 0

def logLiteral (color : String) : Word :=
  if color = ANSI_COLOR_RED then 0
  else if color = ANSI_COLOR_GREEN then 6
  else if color = ANSI_COLOR_YELLOW then 12
  else if color = ANSI_COLOR_CYAN then 18
  else 24

theorem colorsAt_logMemory : ColorsAt logMemory logLiteral := by
  intro color hcolor
  simp only [List.mem_cons, List.not_mem_nil, or_false] at hcolor
  rcases hcolor with rfl | rfl | rfl | rfl | rfl
  · rw [stringAt_of_nul (n := 5) (by decide +kernel) (by decide +kernel)]
    decide +kernel
  · rw [stringAt_of_nul (n := 5) (by decide +kernel) (by decide +kernel)]
    decide +kernel
  · rw [stringAt_of_nul (n := 5) (by decide +kernel) (by decide +kernel)]
    decide +kernel
  · rw [stringAt_of_nul (n := 5) (by decide +kernel) (by decide +kernel)]
    decide +kernel
  · rw [stringAt_of_nul (n := 4) (by decide +kernel) (by decide +kernel)]
    decide +kernel

theorem readLog_logs_sample : ∃ text, logs logMemory logLiteral [(.info, 29), (.panic, 33), (.err, 33)] = .ok text ∧
    readLog text = some [(.info, ['\x7b', 's', '\x7d']), (.panic, ['H', 'i'])] := by
  have hbraces : stringAt logMemory 29 = .ok ['\x7b', 's', '\x7d'] := by
    rw [stringAt_of_nul (n := 3) (by decide) (by decide)]
    rfl
  have hhi : stringAt logMemory 33 = .ok ['H', 'i'] := by
    rw [stringAt_of_nul (n := 2) (by decide) (by decide)]
    rfl
  have hmessages : Messages logMemory [(.info, 29), (.panic, 33), (.err, 33)]
      [(.info, ['\x7b', 's', '\x7d']), (.panic, ['H', 'i']), (.err, ['H', 'i'])] :=
    .cons ⟨rfl, hbraces, by decide⟩ (.cons ⟨rfl, hhi, by decide⟩ (.cons ⟨rfl, hhi, by decide⟩ .nil))
  exact readLog_logs colorsAt_logMemory hmessages

end Neobird64
