import Neobird64.Interrupts
import Neobird64.Theorems.Keyboard
import Neobird64.Theorems.KeyboardPrint
import Neobird64.Theorems.Interrupt
import Neobird64.Theorems.IdtGates
import Neobird64.Lib.Trace
import Mathlib.Algebra.Order.BigOperators.Group.List

/-! The interrupts of the boot processor over any interleaving with its devices. One handler runs at a time and ends
    its interrupt once, so nothing in service outlives it; each scancode is handled once, in order; a
    tick is lost only when the timer fires again while its interrupt still waits. -/

namespace Neobird64
open InterruptController Processor

/-- The processor after `init_apic`: nothing is requested or in service, and no key was pressed. -/
def Processor.start (ticks : Word) (flag : Bool) (last : BitVec 8) : Processor where
  lapic := ⟨∅, ∅⟩
  interruptFlag := flag
  halted := false
  handlers := []
  apicTimerTicks := ticks
  keyboardState := .normal
  scancodes := []
  lastScancode := last
  text := []

/-- What all handlers still do. -/
def Processor.todo (s : Processor) : List HandlerOp := s.handlers.flatMap Handler.todo

/-- The scancodes of the keys that are pressed and released in a run. -/
def keys (es : List InterruptEvent) : List (BitVec 8) :=
  es.filterMap fun e =>
    match e with
    | .key data => some data
    | _ => none

/-- The text of a sequence of scancodes, from the given state of the keyboard. -/
def typed (behind : Nat → Char) (state : KeyboardState) : List (BitVec 8) → List Char
  | [] => []
  | data :: bytes => printed (ps2Handler behind state data).2 ++ typed behind (ps2Handler behind state data).1 bytes

/-- What is printed by the steps that are left. -/
def printedOps (ops : List HandlerOp) : List Char :=
  ops.filterMap fun op =>
    match op with
    | .effect (.print c) => some c
    | _ => none

/-- What a handler of a device still does, at each of its steps. -/
inductive Serving : List HandlerOp → Prop
  | timer : Serving apicTimerOps
  | key : Serving [.readScancode]
  | print (c : Char) : Serving [.effect (.print c), .effect .apicEoi]
  | eoi : Serving [.effect .apicEoi]
  | returning : Serving []

/-- One handler at most has been entered; its vector is in service until it has sent its end of interrupt. -/
inductive OneHandler (s : Processor) : Prop
  | none (handlers : s.handlers = []) (inService : s.lapic.inService = ∅)
  | one {v : Nat} {ops : List HandlerOp} (serving : Serving ops) (handlers : s.handlers = [⟨v, ops, true⟩])
      (flag : s.interruptFlag = false) (inService : s.lapic.inService = if ops = [] then ∅ else {v})

/-- What holds in every state of a run in which the keys `pressed` were pressed. -/
structure Serviced (behind : Nat → Char) (pressed : List (BitVec 8)) (s : Processor) : Prop where
  running : s.halted = false
  handlers : OneHandler s
  vectors : ∀ v ∈ s.lapic.requested, v = 33 ∨ v = 172
  /-- The first scancode in the keyboard has its interrupt. -/
  requested : 33 ∈ s.lapic.requested ↔ s.scancodes ≠ [] ∧ HandlerOp.readScancode ∉ s.todo
  reading : HandlerOp.readScancode ∈ s.todo → s.scancodes ≠ []
  /-- The others were handled, in order. -/
  handled : ∃ done, pressed = done ++ s.scancodes ∧ s.keyboardState = keyboardRun behind done ∧
    s.text ++ printedOps s.todo = typed behind .normal done

def InterruptEvent.isTimer : InterruptEvent → Bool
  | .timer => true
  | _ => false

/-- The ticks that are still to be counted. -/
def Processor.due (s : Processor) : Nat := (if 172 ∈ s.lapic.requested then 1 else 0) + s.todo.count .tick

/-- Whether the event is a tick that the LAPIC merges with one that still waits. -/
def Processor.merges (s : Processor) (e : InterruptEvent) : Bool := e.isTimer && decide (172 ∈ s.lapic.requested)

/-- The ticks of a run that were merged with others. -/
def mergedTicks (behind : Nat → Char) (s : Processor) : List InterruptEvent → Nat
  | [] => 0
  | e :: es => (s.merges e).toNat + ((Processor.step behind s e).map fun s' => mergedTicks behind s' es).getD 0

/-- The steps of the processor itself in its handlers. -/
def InterruptEvent.Own : InterruptEvent → Prop
  | .accept _ | .op | .iret => True
  | _ => False

/-- A bound on the steps that the handlers need until nothing is left to handle. -/
def Processor.work (s : Processor) : Nat :=
  5 * s.scancodes.length + (if 33 ∈ s.lapic.requested then 3 else 0) + (if 172 ∈ s.lapic.requested then 4 else 0) +
    (s.handlers.map fun h => h.todo.length + 1).sum

/-- The gate of the vector is an interrupt gate to a stub that hands the vector on to `exception_handler`. -/
def Gated (sIsr : Nat → Word) (v : Nat) : Prop := ∃ stub, (v, stub) ∈ isrStubs ∧
  gateOf (idtInit sIsr) (BitVec.ofNat 8 v) = ⟨sIsr v, 0x08, 0, 0x8E⟩ ∧
  ∀ f m stack, (handlerFrame (atCall f m stack none stub)).intNo = BitVec.ofNat 64 v

/-- The processor takes no step of its own. -/
def Stuck (behind : Nat → Char) (s : Processor) : Prop := ∀ e : InterruptEvent, e.Own → Processor.step behind s e = none

/-- Every key and every tick is handled, and the interrupted program runs. -/
structure Drained (behind : Nat → Char) (pressed : List (BitVec 8)) (s : Processor) : Prop where
  returned : s.handlers = [] ∧ s.interruptFlag = true
  lapic : s.lapic = ⟨∅, ∅⟩
  scancodes : s.scancodes = []
  keyboardState : s.keyboardState = keyboardRun behind pressed
  text : s.text = typed behind .normal pressed

section
variable {behind : Nat → Char} {s s' : Processor} {pressed : List (BitVec 8)} {e : InterruptEvent} {es : List InterruptEvent}
variable {v : Nat} {ops rest : List HandlerOp} {data : BitVec 8} {state : KeyboardState} {r : IntFrame}

/-! ### The handlers -/

theorem exceptionHandler_timer (h : r.intNo = BitVec.ofNat 64 172) : exceptionHandler r = apicTimerOps := by
  rw [exceptionHandler, h]
  rfl

theorem exceptionHandler_keyboard (h : r.intNo = BitVec.ofNat 64 33) : exceptionHandler r = [.readScancode] := by
  rw [exceptionHandler, h]
  rfl

theorem ps2Handler_effects (behind : Nat → Char) (state : KeyboardState) (data : BitVec 8) :
    (ps2Handler behind state data).2 = [.apicEoi] ∨ ∃ c, (ps2Handler behind state data).2 = [.print c, .apicEoi] := by
  unfold ps2Handler
  simp only
  generalize (if data.setWidth 16 = LEFT_SHIFT_RELEASED ∧ state ≠ .caps then KeyboardState.normal else state) = now
  by_cases hcaps : now = .caps ∧ data.setWidth 16 = CAPS_LOCK_PRESSED
  · exact Or.inl (by rw [if_pos hcaps])
  · rw [if_neg hcaps]
    by_cases hzero : (ps2Translate2ascii behind now (data.setWidth 16)).1 = '\x00'
    · exact Or.inl (by rw [if_pos hzero])
    · exact Or.inr ⟨_, by rw [if_neg hzero]⟩

theorem typed_concat (bytes : List (BitVec 8)) (state : KeyboardState) : typed behind state (bytes ++ [data]) =
    typed behind state bytes ++
      printed (ps2Handler behind (bytes.foldl (fun state data => (ps2Handler behind state data).1) state) data).2 := by
  induction bytes generalizing state with
  | nil => simp [typed]
  | cons b bytes ih => rw [List.cons_append, typed, typed, ih, List.foldl_cons, List.append_assoc]

theorem printedOps_effects (effects : List Ps2Effect) : printedOps (effects.map .effect) = printed effects := by
  rw [printedOps, printed, List.filterMap_map]
  refine List.filterMap_congr fun e _ => ?_
  cases e <;> rfl

/-- `ps2_handler` goes on as a handler that has read its scancode. -/
theorem effects_serving (behind : Nat → Char) (state : KeyboardState) (data : BitVec 8) :
    Serving ((ps2Handler behind state data).2.map .effect) ∧ (ps2Handler behind state data).2.map HandlerOp.effect ≠ [] ∧
      HandlerOp.readScancode ∉ (ps2Handler behind state data).2.map HandlerOp.effect := by
  rcases ps2Handler_effects behind state data with heff | ⟨c, heff⟩
  · rw [heff]
    exact ⟨.eoi, by simp, by simp⟩
  · rw [heff]
    exact ⟨.print c, by simp, by simp⟩

theorem mem_bufferFilled {scancodes : List (BitVec 8)} {c : Controller} :
    v ∈ (bufferFilled scancodes c).requested ↔ (v = 33 ∧ scancodes ≠ []) ∨ v ∈ c.requested := by
  cases scancodes with
  | nil => simp [bufferFilled]
  | cons data scancodes => simp [bufferFilled]

theorem bufferFilled_inService {scancodes : List (BitVec 8)} {c : Controller} :
    (bufferFilled scancodes c).inService = c.inService := by
  cases scancodes <;> rfl

theorem todo_nil (h : s.handlers = []) : s.todo = [] := by
  rw [Processor.todo, h]
  rfl

theorem todo_one {flag : Bool} (h : s.handlers = [⟨v, ops, flag⟩]) : s.todo = ops := by
  rw [Processor.todo, h]
  simp

namespace OneHandler
variable (h : OneHandler s)
include h

theorem idle (hidle : s.handlers = []) : s.lapic.inService = ∅ := by
  cases h with
  | none handlers inService => exact inService
  | one serving handlers flag inService =>
    rw [handlers] at hidle
    cases hidle

theorem entered {flag : Bool} (hone : s.handlers = [⟨v, ops, flag⟩]) :
    Serving ops ∧ s.interruptFlag = false ∧ s.lapic.inService = if ops = [] then ∅ else {v} := by
  cases h with
  | none handlers inService =>
    rw [handlers] at hone
    cases hone
  | one serving handlers hflag inService =>
    rw [handlers] at hone
    cases hone
    exact ⟨serving, hflag, inService⟩

theorem innermost {hd : Handler} {outer : List Handler} (hone : s.handlers = hd :: outer) :
    outer = [] ∧ Serving hd.todo ∧ hd.interruptFlag = true := by
  cases h with
  | none handlers inService =>
    rw [handlers] at hone
    cases hone
  | one serving handlers hflag inService =>
    rw [handlers] at hone
    cases hone
    exact ⟨rfl, serving, rfl⟩

end OneHandler

/-! ### One step -/

/-- The steps that are possible while one handler runs at most. -/
inductive Stepped (behind : Nat → Char) (s : Processor) : InterruptEvent → Processor → Prop
  | timer : Stepped behind s .timer { s with lapic := s.lapic.request 172 }
  | key (data : BitVec 8) : Stepped behind s (.key data) { s with
      scancodes := s.scancodes ++ [data], lapic := if s.scancodes = [] then s.lapic.request 33 else s.lapic }
  | setFlag (flag : Bool) (hidle : s.handlers = []) : Stepped behind s (.setFlag flag) { s with interruptFlag := flag }
  | accept {r : IntFrame} {v : Nat} {lapic : Controller} (hidle : s.handlers = []) (hv : s.lapic.accept = some (v, lapic))
      (hr : r.intNo = BitVec.ofNat 64 v) : Stepped behind s (.accept r)
      { s with lapic, interruptFlag := false, handlers := [⟨v, exceptionHandler r, true⟩] }
  | tick {v : Nat} (hone : s.handlers = [⟨v, apicTimerOps, true⟩]) : Stepped behind s .op
      { s with apicTimerTicks := apicTimer s.apicTimerTicks, handlers := [⟨v, [.effect .apicEoi], true⟩] }
  | readScancode {v : Nat} {data : BitVec 8} {scancodes : List (BitVec 8)} (hone : s.handlers = [⟨v, [.readScancode], true⟩])
      (hscan : s.scancodes = data :: scancodes) : Stepped behind s .op { s with
        keyboardState := (ps2Handler behind s.keyboardState data).1
        scancodes := scancodes
        lastScancode := data
        lapic := bufferFilled scancodes s.lapic
        handlers := [⟨v, (ps2Handler behind s.keyboardState data).2.map .effect, true⟩] }
  | print {v : Nat} {c : Char} (hone : s.handlers = [⟨v, [.effect (.print c), .effect .apicEoi], true⟩]) :
      Stepped behind s .op { s with text := s.text ++ [c], handlers := [⟨v, [.effect .apicEoi], true⟩] }
  | apicEoi {v : Nat} (hone : s.handlers = [⟨v, [.effect .apicEoi], true⟩]) : Stepped behind s .op
      { s with lapic := s.lapic.endOfInterrupt, handlers := [⟨v, [], true⟩] }
  | iret {v : Nat} (hone : s.handlers = [⟨v, [], true⟩]) : Stepped behind s .iret
      { s with handlers := [], interruptFlag := true }

namespace Serviced
variable (h : Serviced behind pressed s)
include h

theorem stepped_op {flag : Bool} {op : HandlerOp} (hone : s.handlers = [⟨v, op :: rest, flag⟩]) :
    Stepped behind s .op (exec behind s ⟨v, op :: rest, flag⟩ rest [] op) := by
  obtain ⟨-, hserving, hflag⟩ := h.handlers.innermost hone
  simp only at hserving hflag
  obtain rfl := hflag
  cases hserving with
  | timer => exact .tick hone
  | key =>
    obtain ⟨data, scancodes, hscan⟩ := List.exists_cons_of_ne_nil (h.reading (by simp [todo_one hone]))
    simp only [Processor.exec, hscan, List.headD_cons, List.tail_cons, List.append_nil]
    exact .readScancode hone hscan
  | print c => exact .print hone
  | eoi => exact .apicEoi hone

theorem stepped (hs : step behind s e = some s') : Stepped behind s e s' := by
  cases e with
  | timer =>
    cases hs
    exact .timer
  | key data =>
    cases hs
    exact .key data
  | setFlag flag =>
    simp only [Processor.step] at hs
    split at hs
    · rename_i hcond
      cases hs
      exact .setFlag flag hcond.1
    · cases hs
  | accept r =>
    simp only [Processor.step] at hs
    split at hs
    · rename_i hcond
      obtain ⟨⟨v, lapic⟩, hv, hs⟩ := Option.bind_eq_some_iff.mp hs
      simp only at hs
      split at hs
      · rename_i hr
        have hidle : s.handlers = [] := by
          cases h.handlers with
          | none handlers inService => exact handlers
          | one serving handlers flag inService => exact absurd (flag.symm.trans hcond.1) (by decide)
        rw [hidle, hcond.1] at hs
        cases hs
        exact .accept hidle hv hr
      · cases hs
    · cases hs
  | op =>
    simp only [Processor.step] at hs
    split at hs
    · rename_i hd outer hone
      obtain ⟨rfl, -, -⟩ := h.handlers.innermost hone
      obtain ⟨v, ops, flag⟩ := hd
      cases ops with
      | nil => cases hs
      | cons op rest =>
        simp only [h.running] at hs
        cases hs
        exact h.stepped_op hone
    · cases hs
  | iret =>
    simp only [Processor.step] at hs
    split at hs
    · rename_i v flag outer hone
      cases hs
      obtain ⟨rfl, -, hflag⟩ := h.handlers.innermost hone
      simp only at hflag
      subst hflag
      exact .iret hone
    · cases hs

theorem timer : Serviced behind pressed { s with lapic := s.lapic.request 172 } where
  running := h.running
  handlers := by
    cases h.handlers with
    | none handlers inService => exact .none handlers inService
    | one serving handlers flag inService => exact .one serving handlers flag inService
  vectors v hv := by
    rcases mem_request.mp hv with hv | hv
    · exact Or.inr hv
    · exact h.vectors v hv
  requested := by
    rw [mem_request, or_iff_right (by decide)]
    exact h.requested
  reading := h.reading
  handled := h.handled

theorem key (data : BitVec 8) : Serviced behind (pressed ++ [data]) { s with
    scancodes := s.scancodes ++ [data], lapic := if s.scancodes = [] then s.lapic.request 33 else s.lapic } where
  running := h.running
  handlers := by
    have hin : (if s.scancodes = [] then s.lapic.request 33 else s.lapic).inService = s.lapic.inService := by
      split <;> rfl
    cases h.handlers with
    | none handlers inService => exact .none handlers (hin.trans inService)
    | one serving handlers flag inService => exact .one serving handlers flag (hin.trans inService)
  vectors v hv := by
    simp only at hv
    split at hv
    · rcases mem_request.mp hv with hv | hv
      · exact Or.inl hv
      · exact h.vectors v hv
    · exact h.vectors v hv
  requested := by
    have htodo : ∀ lapic scancodes, ({ s with scancodes := scancodes, lapic := lapic } : Processor).todo = s.todo :=
      fun _ _ => rfl
    rw [htodo]
    by_cases hempty : s.scancodes = []
    · have hread : HandlerOp.readScancode ∉ s.todo := fun hmem => h.reading hmem hempty
      simp [hempty, hread]
    · simp only [if_neg hempty, h.requested]
      simp [hempty]
  reading _ := by simp
  handled := by
    obtain ⟨done, hpressed, hstate, htext⟩ := h.handled
    exact ⟨done, by rw [hpressed, List.append_assoc], hstate, htext⟩

theorem setFlag (flag : Bool) (hidle : s.handlers = []) : Serviced behind pressed { s with interruptFlag := flag } :=
  ⟨h.running, .none hidle (h.handlers.idle hidle), h.vectors, h.requested, h.reading, h.handled⟩

/-- An interrupt is taken only when no handler runs. -/
theorem accept {lapic : Controller} (hidle : s.handlers = []) (hv : s.lapic.accept = some (v, lapic))
    (hr : r.intNo = BitVec.ofNat 64 v) : Serviced behind pressed
      { s with lapic, interruptFlag := false, handlers := [⟨v, exceptionHandler r, true⟩] } := by
  obtain ⟨hmem, hreq, hin⟩ := accept_eq_some hv
  rw [h.handlers.idle hidle, insert_empty_eq] at hin
  obtain ⟨done, hpressed, hstate, htext⟩ := h.handled
  have hrequested := h.requested
  rw [todo_nil hidle] at htext hrequested
  have hvectors : ∀ w ∈ lapic.requested, w = 33 ∨ w = 172 := fun w hw => by
    rw [hreq] at hw
    exact h.vectors w (Finset.mem_of_mem_erase hw)
  rcases h.vectors v hmem with rfl | rfl
  · rw [exceptionHandler_keyboard hr]
    refine ⟨h.running, .one .key rfl rfl hin, hvectors, ?_, fun _ => (hrequested.mp hmem).1, ⟨done, hpressed, hstate, htext⟩⟩
    rw [hreq]
    simp [Processor.todo]
  · rw [exceptionHandler_timer hr]
    refine ⟨h.running, .one .timer rfl rfl hin, hvectors, ?_, fun hread => ?_, ⟨done, hpressed, hstate, htext⟩⟩
    · rw [hreq, Finset.mem_erase, and_iff_right (by decide), hrequested]
      simp [Processor.todo, apicTimerOps]
    · simp [Processor.todo, apicTimerOps] at hread

theorem iret (hone : s.handlers = [⟨v, [], true⟩]) :
    Serviced behind pressed { s with handlers := [], interruptFlag := true } := by
  have hrequested := h.requested
  obtain ⟨done, hpressed, hstate, htext⟩ := h.handled
  rw [todo_one hone] at htext hrequested
  exact ⟨h.running, .none rfl (h.handlers.entered hone).2.2, h.vectors, hrequested, nofun, ⟨done, hpressed, hstate, htext⟩⟩

/-- `apic_timer_ticks++` in the handler of the timer. -/
theorem tick (hone : s.handlers = [⟨v, apicTimerOps, true⟩]) : Serviced behind pressed { s with
    apicTimerTicks := apicTimer s.apicTimerTicks, handlers := [⟨v, [.effect .apicEoi], true⟩] } := by
  obtain ⟨-, hflag, hin⟩ := h.handlers.entered hone
  have hrequested := h.requested
  obtain ⟨done, hpressed, hstate, htext⟩ := h.handled
  rw [todo_one hone] at htext hrequested
  refine ⟨h.running, .one .eoi rfl hflag hin, h.vectors, ?_, nofun, ⟨done, hpressed, hstate, htext⟩⟩
  rw [hrequested]
  simp [Processor.todo, apicTimerOps]

/-- The byte that is read is the next one that was pressed. -/
theorem readScancode {scancodes : List (BitVec 8)} (hone : s.handlers = [⟨v, [.readScancode], true⟩])
    (hscan : s.scancodes = data :: scancodes) : Serviced behind pressed { s with
        keyboardState := (ps2Handler behind s.keyboardState data).1
        scancodes := scancodes
        lastScancode := data
        lapic := bufferFilled scancodes s.lapic
        handlers := [⟨v, (ps2Handler behind s.keyboardState data).2.map .effect, true⟩] } := by
  obtain ⟨-, hflag, hin⟩ := h.handlers.entered hone
  have hrequested := h.requested
  obtain ⟨done, hpressed, hstate, htext⟩ := h.handled
  rw [todo_one hone] at htext hrequested
  have hnot : 33 ∉ s.lapic.requested := fun hmem => (hrequested.mp hmem).2 List.mem_cons_self
  have hdone : keyboardRun behind (done ++ [data]) = (ps2Handler behind s.keyboardState data).1 := by
    rw [keyboardRun_concat, ps2Handler_state, hstate]
  have htyped : s.text ++ printed (ps2Handler behind s.keyboardState data).2 = typed behind .normal (done ++ [data]) := by
    rw [typed_concat, ← htext, hstate]
    simp [printedOps, keyboardRun]
  obtain ⟨hserving, hne, hread⟩ := effects_serving behind s.keyboardState data
  refine ⟨h.running, .one hserving rfl hflag ?_, fun w hw => ?_, ?_, fun hmem => ?_, ⟨done ++ [data], ?_, hdone.symm, ?_⟩⟩
  · rw [bufferFilled_inService, if_neg hne]
    exact hin
  · rcases mem_bufferFilled.mp hw with ⟨rfl, -⟩ | hw
    · exact Or.inl rfl
    · exact h.vectors w hw
  · rw [mem_bufferFilled]
    simp [hnot, Processor.todo, hread]
  · rw [Processor.todo, List.flatMap_singleton] at hmem
    exact absurd hmem hread
  · rw [hpressed, hscan, List.append_assoc]
    rfl
  · rw [Processor.todo, List.flatMap_singleton, printedOps_effects]
    exact htyped

theorem print {c : Char} (hone : s.handlers = [⟨v, [.effect (.print c), .effect .apicEoi], true⟩]) :
    Serviced behind pressed { s with text := s.text ++ [c], handlers := [⟨v, [.effect .apicEoi], true⟩] } := by
  obtain ⟨-, hflag, hin⟩ := h.handlers.entered hone
  have hrequested := h.requested
  obtain ⟨done, hpressed, hstate, htext⟩ := h.handled
  rw [todo_one hone] at htext hrequested
  refine ⟨h.running, .one .eoi rfl hflag hin, h.vectors, ?_, nofun, ⟨done, hpressed, hstate, ?_⟩⟩
  · rw [hrequested]
    simp [Processor.todo]
  · rw [← htext]
    simp [printedOps, Processor.todo]

/-- The end of interrupt is for the vector of the handler that sends it. -/
theorem apicEoi (hone : s.handlers = [⟨v, [.effect .apicEoi], true⟩]) :
    Serviced behind pressed { s with lapic := s.lapic.endOfInterrupt, handlers := [⟨v, [], true⟩] } := by
  obtain ⟨-, hflag, hin⟩ := h.handlers.entered hone
  have hrequested := h.requested
  obtain ⟨done, hpressed, hstate, htext⟩ := h.handled
  rw [todo_one hone] at htext hrequested
  rw [endOfInterrupt_of_singleton hin]
  refine ⟨h.running, .one .returning rfl hflag rfl, h.vectors, ?_, nofun, ⟨done, hpressed, hstate, htext⟩⟩
  rw [hrequested]
  simp [Processor.todo]

theorem step (hs : Stepped behind s e s') : Serviced behind (pressed ++ keys [e]) s' := by
  cases hs with
  | key data => exact h.key data
  | timer => simpa [keys] using h.timer
  | setFlag flag hidle => simpa [keys] using h.setFlag flag hidle
  | accept hidle hv hr => simpa [keys] using h.accept hidle hv hr
  | tick hone => simpa [keys] using h.tick hone
  | readScancode hone hscan => simpa [keys] using h.readScancode hone hscan
  | print hone => simpa [keys] using h.print hone
  | apicEoi hone => simpa [keys] using h.apicEoi hone
  | iret hone => simpa [keys] using h.iret hone

end Serviced

/-! ### Runs -/

theorem Processor.start_serviced (behind : Nat → Char) (ticks : Word) (flag : Bool) (last : BitVec 8) :
    Serviced behind [] (start ticks flag last) where
  running := rfl
  handlers := .none rfl rfl
  vectors v hv := absurd hv (Finset.notMem_empty v)
  requested := iff_of_false (Finset.notMem_empty _) fun h => h.1 rfl
  reading hmem := absurd hmem (by simp [Processor.todo, start])
  handled := ⟨[], rfl, rfl, rfl⟩

theorem keys_append (es es' : List InterruptEvent) : keys (es ++ es') = keys es ++ keys es' := List.filterMap_append

theorem Serviced.run (h : Serviced behind pressed s) (hrun : Trace.run (Processor.step behind) s es = some s') :
    Serviced behind (pressed ++ keys es) s' := by
  induction es generalizing s pressed with
  | nil =>
    cases hrun
    simpa [keys] using h
  | cons e es ih =>
    obtain ⟨t, ht, hrun⟩ := Trace.run_cons_eq_some.mp hrun
    have hnext := ih (h.step (h.stepped ht)) hrun
    rwa [List.append_assoc, ← keys_append] at hnext

/-! ### Ticks -/

theorem not_mem_tick (effects : List Ps2Effect) : HandlerOp.tick ∉ effects.map HandlerOp.effect := by
  simp

/-- Each tick is counted, still due or merged with another. -/
theorem Serviced.ticks_step (h : Serviced behind pressed s) (hs : Stepped behind s e s') :
    s'.apicTimerTicks + BitVec.ofNat 64 (s'.due + (s.merges e).toNat) =
      s.apicTimerTicks + BitVec.ofNat 64 (s.due + e.isTimer.toNat) := by
  -- Only the counter itself moves a tick out of `due`.
  suffices hdue : s'.apicTimerTicks = s.apicTimerTicks ∧ s'.due + (s.merges e).toNat = s.due + e.isTimer.toNat ∨
      s'.apicTimerTicks = s.apicTimerTicks + 1 ∧ s'.due + (s.merges e).toNat + 1 = s.due + e.isTimer.toNat by
    rcases hdue with ⟨hticks, hdue⟩ | ⟨hticks, hdue⟩
    · rw [hticks, hdue]
    · rw [hticks, ← hdue, BitVec.ofNat_add _ 1, add_assoc, add_comm 1 (BitVec.ofNat 64 _)]
      rfl
  cases hs with
  | timer =>
    left
    by_cases hmem : 172 ∈ s.lapic.requested
    · simp [Processor.due, Processor.merges, InterruptEvent.isTimer, Processor.todo, hmem]
    · simp [Processor.due, Processor.merges, InterruptEvent.isTimer, Processor.todo, hmem]
      omega
  | key data =>
    left
    by_cases hempty : s.scancodes = [] <;>
      simp [Processor.due, Processor.merges, InterruptEvent.isTimer, Processor.todo, hempty]
  | setFlag flag hidle => left; simp [Processor.due, Processor.merges, InterruptEvent.isTimer, Processor.todo]
  | @accept r v lapic hidle hv hr =>
    left
    obtain ⟨hmem, hreq, -⟩ := accept_eq_some hv
    rcases h.vectors v hmem with rfl | rfl
    · simp [Processor.due, Processor.merges, InterruptEvent.isTimer, Processor.todo, hidle, hreq,
        exceptionHandler_keyboard hr]
    · simp [Processor.due, Processor.merges, InterruptEvent.isTimer, Processor.todo, hidle, hreq, hmem,
        exceptionHandler_timer hr, apicTimerOps]
  | tick hone =>
    right
    simp [Processor.due, Processor.merges, InterruptEvent.isTimer, Processor.todo, hone, apicTimer, apicTimerOps]
  | @readScancode v data scancodes hone hscan =>
    left
    have hcount : ((ps2Handler behind s.keyboardState data).2.map HandlerOp.effect).count .tick = 0 :=
      List.count_eq_zero.mpr (not_mem_tick _)
    simp [Processor.due, Processor.merges, InterruptEvent.isTimer, Processor.todo, hone, hcount, mem_bufferFilled]
  | print hone | iret hone =>
    left
    simp [Processor.due, Processor.merges, InterruptEvent.isTimer, Processor.todo, hone]
  | apicEoi hone =>
    left
    obtain ⟨-, -, hin⟩ := h.handlers.entered hone
    rw [endOfInterrupt_of_singleton hin]
    simp [Processor.due, Processor.merges, InterruptEvent.isTimer, Processor.todo, hone]

theorem Serviced.ticks_run (h : Serviced behind pressed s) (hrun : Trace.run (Processor.step behind) s es = some s') :
    s'.apicTimerTicks + BitVec.ofNat 64 (s'.due + mergedTicks behind s es) =
      s.apicTimerTicks + BitVec.ofNat 64 (s.due + es.countP InterruptEvent.isTimer) := by
  induction es generalizing s pressed with
  | nil =>
    cases hrun
    rfl
  | cons e es ih =>
    obtain ⟨t, ht, hrun⟩ := Trace.run_cons_eq_some.mp hrun
    have hstep := h.ticks_step (h.stepped ht)
    have hrest := ih (h.step (h.stepped ht)) hrun
    rw [mergedTicks, ht, List.countP_cons]
    simp only [Option.map_some, Option.getD_some, BitVec.ofNat_add] at hstep hrest ⊢
    grind

/-! ### Progress -/

/-- A step of the processor is one less to come. -/
theorem Serviced.work_step (h : Serviced behind pressed s) (hs : Stepped behind s e s') (hown : e.Own) : s'.work < s.work := by
  cases hs with
  | timer => exact hown.elim
  | key data => exact hown.elim
  | setFlag flag hidle => exact hown.elim
  | @accept r v lapic hidle hv hr =>
    obtain ⟨hmem, hreq, -⟩ := accept_eq_some hv
    rcases h.vectors v hmem with rfl | rfl
    · simp [Processor.work, hidle, hreq, hmem, exceptionHandler_keyboard hr]
      omega
    · simp [Processor.work, hidle, hreq, hmem, exceptionHandler_timer hr, apicTimerOps]
  | tick hone => simp [Processor.work, hone, apicTimerOps]
  | @readScancode v data scancodes hone hscan =>
    have hlen : (ps2Handler behind s.keyboardState data).2.length ≤ 2 := by
      rcases ps2Handler_effects behind s.keyboardState data with heff | ⟨c, heff⟩
      · rw [heff]
        decide
      · rw [heff]
        simp
    have hkey : (if 33 ∈ (bufferFilled scancodes s.lapic).requested then 3 else 0) ≤ 3 := by
      split <;> decide
    have htimer : 172 ∈ (bufferFilled scancodes s.lapic).requested ↔ 172 ∈ s.lapic.requested := by
      simp [mem_bufferFilled]
    simp only [Processor.work, hone, hscan, htimer, List.map_cons, List.map_nil, List.sum_cons, List.sum_nil, List.length_cons,
      List.length_map, List.length_nil]
    omega
  | print hone => simp [Processor.work, hone]
  | apicEoi hone =>
    obtain ⟨-, -, hin⟩ := h.handlers.entered hone
    rw [endOfInterrupt_of_singleton hin]
    simp [Processor.work, hone]
  | iret hone => simp [Processor.work, hone]

theorem works : Trace.Works (Processor.step behind) (fun s => ∃ pressed, Serviced behind pressed s) InterruptEvent.Own
    Processor.work := by
  rintro s e s' ⟨pressed, h⟩ hown hstep
  have hs := h.stepped hstep
  exact ⟨⟨_, h.step hs⟩, h.work_step hs hown⟩

/-- The processor takes no step of its own only when there is nothing left to handle, or interrupts are disabled. -/
theorem Serviced.idle_of_stuck (h : Serviced behind pressed s)
    (hstuck : Stuck behind s) :
    s.handlers = [] ∧ (s.interruptFlag = true → s.lapic = ⟨∅, ∅⟩ ∧ s.scancodes = []) := by
  cases h.handlers with
  | @one v ops serving handlers hflag inService =>
    cases ops with
    | nil =>
      have hnone := hstuck .iret trivial
      simp [Processor.step, handlers] at hnone
    | cons op rest =>
      have hnone := hstuck .op trivial
      simp [Processor.step, handlers, h.running] at hnone
  | none handlers inService =>
    refine ⟨handlers, fun hflag => ?_⟩
    have hreq : s.lapic.requested = ∅ := by
      by_contra hne
      obtain ⟨v, lapic, hv⟩ := accept_of_idle inService hne
      have hnone := hstuck (.accept (frameOf v (interrupted 0 0))) trivial
      simp [Processor.step, hflag, h.running, hv, frameOf] at hnone
    have hscan : s.scancodes = [] := by
      by_contra hne
      have hmem := h.requested.mpr ⟨hne, by simp [todo_nil handlers]⟩
      rw [hreq] at hmem
      exact absurd hmem (Finset.notMem_empty _)
    have hlapic : s.lapic = ⟨s.lapic.requested, s.lapic.inService⟩ := rfl
    exact ⟨by rw [hlapic, hreq, inService], hscan⟩

/-- Interrupts are enabled, or will be when the handler returns. -/
def Processor.Enabled (s : Processor) : Prop := s.interruptFlag = true ∨ s.handlers ≠ []

theorem Stepped.enabled (hs : Stepped behind s e s') (hown : e.Own) : s'.Enabled := by
  cases hs with
  | timer => exact hown.elim
  | key data => exact hown.elim
  | setFlag flag hidle => exact hown.elim
  | accept hidle hv hr => exact Or.inr (List.cons_ne_nil _ _)
  | tick hone => exact Or.inr (List.cons_ne_nil _ _)
  | readScancode hone hscan => exact Or.inr (List.cons_ne_nil _ _)
  | print hone => exact Or.inr (List.cons_ne_nil _ _)
  | apicEoi hone => exact Or.inr (List.cons_ne_nil _ _)
  | iret hone => exact Or.inl rfl

theorem Serviced.enabled_run (h : Serviced behind pressed s) (henabled : s.Enabled) (hown : ∀ e ∈ es, e.Own)
    (hrun : Trace.run (Processor.step behind) s es = some s') : s'.Enabled := by
  induction es generalizing s pressed with
  | nil =>
    cases hrun
    exact henabled
  | cons e es ih =>
    obtain ⟨t, ht, hrun⟩ := Trace.run_cons_eq_some.mp hrun
    have hstep := h.stepped ht
    exact ih (h.step hstep) (hstep.enabled (hown e List.mem_cons_self)) (fun e he => hown e (List.mem_cons_of_mem _ he)) hrun

/-- The devices bring nothing new while only the processor takes steps. -/
theorem timers_own (hown : ∀ e ∈ es, e.Own) : es.countP InterruptEvent.isTimer = 0 := by
  refine List.countP_eq_zero.mpr fun e he => ?_
  cases e with
  | timer => exact (hown _ he).elim
  | _ => exact Bool.false_ne_true

theorem keys_own (hown : ∀ e ∈ es, e.Own) : keys es = [] := by
  refine List.filterMap_eq_nil_iff.mpr fun e he => ?_
  cases e with
  | key data => exact (hown _ he).elim
  | _ => rfl

theorem Serviced.drained (h : Serviced behind pressed s) (henabled : s.Enabled)
    (hstuck : Stuck behind s) : Drained behind pressed s := by
  obtain ⟨hidle, hdone⟩ := h.idle_of_stuck hstuck
  have hflag := henabled.resolve_right (not_not_intro hidle)
  obtain ⟨hlapic, hscan⟩ := hdone hflag
  obtain ⟨done, hpressed, hstate, htext⟩ := h.handled
  rw [hscan, List.append_nil] at hpressed
  subst hpressed
  refine ⟨⟨hidle, hflag⟩, hlapic, hscan, hstate, ?_⟩
  rw [← htext, todo_nil hidle]
  simp [printedOps]

theorem mergedTicks_own (hown : ∀ e ∈ es, e.Own) : mergedTicks behind s es = 0 := by
  induction es generalizing s with
  | nil => rfl
  | cons e es ih =>
    have hmerges : s.merges e = false := by
      cases e with
      | timer => exact (hown _ List.mem_cons_self).elim
      | _ => rfl
    rw [mergedTicks, hmerges]
    cases Processor.step behind s e with
    | none => rfl
    | some t => simpa using ih fun e he => hown e (List.mem_cons_of_mem _ he)

theorem Drained.due_eq (h : Drained behind pressed s) : s.due = 0 := by
  rw [Processor.due, h.lapic, todo_nil h.returned.1]
  simp

/-! ### The system -/

theorem gated {sIsr : Nat → Word} (hv : v = 33 ∨ v = 172) : Gated sIsr v := by
  have hstub : (v, isrDummy v) ∈ isrStubs := by
    rcases hv with rfl | rfl
    · decide
    · decide
  have hgate := (idtInit_gates sIsr).1 (v, isrDummy v) hstub
  exact ⟨isrDummy v, hstub, hgate, fun f m stack => congrArg IntFrame.intNo leaves_isrDummy.handlerFrame_eq⟩

variable {ticks : Word} {flag : Bool} {last : BitVec 8} {sIsr : Nat → Word}

/-- The key `a` and three ticks, two of them while interrupts are disabled. -/
def sampleEvents : List InterruptEvent :=
  [.timer, .key 0x1E, .timer, .setFlag true, .accept (frameOf 172 (interrupted 0x10 0x202)), .op, .op, .iret,
    .accept (frameOf 33 (interrupted 0x10 0x202)), .op, .timer]

/-- In every interleaving no handler is interrupted, each key is handled once and in order, and each tick of the
    timer is counted, due or merged with one that was due. -/
theorem interrupts_serviced (sIsr : Nat → Word)
    (hrun : Trace.run (Processor.step behind) (start ticks flag last) es = some s) :
    Serviced behind (keys es) s ∧ (∀ v ∈ s.lapic.requested, Gated sIsr v) ∧
      s.apicTimerTicks + BitVec.ofNat 64 (s.due + mergedTicks behind (start ticks flag last) es) =
        ticks + BitVec.ofNat 64 (es.countP InterruptEvent.isTimer) := by
  have hstart := Processor.start_serviced behind ticks flag last
  have hs := hstart.run hrun
  have hticks := hstart.ticks_run hrun
  refine ⟨hs, fun v hv => gated (hs.vectors v hv), ?_⟩
  rwa [show (start ticks flag last).due = 0 from rfl, Nat.zero_add] at hticks

theorem interrupts_serviced_sample : ∃ s, Trace.run (Processor.step fun _ => '?') (start 0 false 0) sampleEvents = some s ∧
    s.todo = [.effect (.print 'a'), .effect .apicEoi] ∧ Serviced (fun _ => '?') [0x1E] s ∧
    s.apicTimerTicks + BitVec.ofNat 64 (s.due + 1) = 3 := by
  have hsome : ((Trace.run (Processor.step fun _ => '?') (start 0 false 0) sampleEvents).map Processor.todo) =
      some [.effect (.print 'a'), .effect .apicEoi] := by
    decide
  obtain ⟨s, hrun, htodo⟩ := Option.map_eq_some_iff.mp hsome
  obtain ⟨hs, -, hticks⟩ := interrupts_serviced (fun _ => 0) hrun
  exact ⟨s, hrun, htodo, hs, hticks⟩

/-- When the devices are quiet, the processor has handled everything after a bounded number of steps, in
    whatever order it takes them. -/
theorem interrupts_drain (hrun : Trace.run (Processor.step behind) (start ticks flag last) es = some s)
    (henabled : s.Enabled) :
    (∀ own s', (∀ e ∈ own, InterruptEvent.Own e) → Trace.run (Processor.step behind) s own = some s' →
      own.length ≤ s.work ∧ (Stuck behind s' → Drained behind (keys es) s' ∧
        s'.apicTimerTicks + BitVec.ofNat 64 (mergedTicks behind (start ticks flag last) es) =
          ticks + BitVec.ofNat 64 (es.countP InterruptEvent.isTimer))) ∧
    ∃ own s', (∀ e ∈ own, InterruptEvent.Own e) ∧ Trace.run (Processor.step behind) s own = some s' ∧ Stuck behind s' := by
  have hstart := Processor.start_serviced behind ticks flag last
  have hs := hstart.run hrun
  refine ⟨fun own s' hown hrun' => ⟨?_, fun hstuck => ?_⟩, works.exists_stuck ⟨_, hs⟩⟩
  · exact (Nat.le_add_right _ _).trans (works.run ⟨_, hs⟩ hown hrun').2
  · have hs' := hs.run hrun'
    rw [keys_own hown, List.append_nil] at hs'
    have hdrained := hs'.drained (hs.enabled_run henabled hown hrun') hstuck
    have hbefore := hstart.ticks_run hrun
    have hafter := hs.ticks_run hrun'
    rw [hdrained.due_eq, mergedTicks_own hown, timers_own hown, Nat.add_zero, Nat.add_zero, BitVec.add_zero] at hafter
    refine ⟨hdrained, ?_⟩
    rw [hafter, add_assoc, ← BitVec.ofNat_add, hbefore, show (start ticks flag last).due = 0 from rfl, Nat.zero_add]
    rfl

theorem interrupts_drain_sample : ∃ s, Trace.run (Processor.step fun _ => '?') (start 0 false 0) sampleEvents = some s ∧
    ∃ own s', Trace.run (Processor.step fun _ => '?') s own = some s' ∧ own.length ≤ s.work ∧ s'.text = ['a'] ∧
      s'.apicTimerTicks = 2 := by
  have hsome : ((Trace.run (Processor.step fun _ => '?') (start 0 false 0) sampleEvents).map Processor.todo) =
      some [.effect (.print 'a'), .effect .apicEoi] := by
    decide
  obtain ⟨s, hrun, htodo⟩ := Option.map_eq_some_iff.mp hsome
  have hhandlers : s.handlers ≠ [] := by
    intro hidle
    rw [todo_nil hidle] at htodo
    cases htodo
  obtain ⟨hall, own, s', hown, hrun', hstuck⟩ := interrupts_drain hrun (Or.inr hhandlers)
  obtain ⟨hle, hend⟩ := hall own s' hown hrun'
  obtain ⟨hdrained, hticks⟩ := hend hstuck
  refine ⟨s, hrun, own, s', hrun', hle, hdrained.text, ?_⟩
  have hmerged : mergedTicks (fun _ => '?') (start 0 false 0) sampleEvents = 1 := by decide
  rw [hmerged] at hticks
  exact eq_sub_of_add_eq hticks

end

end Neobird64
