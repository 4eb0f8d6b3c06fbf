import Neobird64.Theorems.SleepRange
import Neobird64.Lib.SharedCounter

/-! The timers of all processors increment `apic_timer_ticks` without a lock. It counts every interrupt exactly in the runs in
    which no store is stale, and these are runs of the machine whose increment is one step; a stale store takes ticks
    away, and with them the end of an `apic_sleep`. -/

namespace Neobird64
open Trace SharedCounter

section
variable {Cpu : Type} [DecidableEq Cpu] {caller cpu : Cpu} {ms : BitVec 32} {s s' t : TickState Cpu}
variable {e : TickEvent Cpu} {es es' : List (TickEvent Cpu)} {fresh : Cpu → Bool}

/-! ### What an event is to the counter, and to the machine without the race -/

def TickEvent.access : TickEvent Cpu → Option (Access Cpu)
  | .load cpu => some (.load cpu)
  | .store cpu => some (.store cpu)
  | .calibrate _ | .call | .test => none

/-- The handler of vector 172 counts as done when it stores. -/
def TickEvent.done : TickEvent Cpu → Option (TimerEvent Cpu)
  | .load _ => none
  | .store cpu => some (.timer cpu)
  | .calibrate cpu => some (.calibrate cpu)
  | .call => some .call
  | .test => some .test

def accesses (es : List (TickEvent Cpu)) : List (Access Cpu) := es.filterMap TickEvent.access

/-- The events of the machine without the race. -/
def singleSteps (es : List (TickEvent Cpu)) : List (TimerEvent Cpu) := es.filterMap TickEvent.done

/-- How many interrupts an event handles. -/
def TimerEvent.ticks : TimerEvent Cpu → Nat
  | .timer _ => 1
  | _ => 0

/-- How many interrupts of timers have been handled. -/
def interrupts (es : List (TickEvent Cpu)) : Nat := stores (accesses es)

/-- Whenever a handler stores, no other one has stored since its load. A load without its store may come before other stores. -/
def NoStale (es : List (TickEvent Cpu)) : Prop := serial (fun _ => false) (accesses es) = true

def TickState.counter (s : TickState Cpu) : Counter Cpu Word := ⟨s.timer.apicTimerTicks, s.loaded⟩

omit [DecidableEq Cpu] in
@[simp] theorem accesses_load : accesses (.load cpu :: es) = .load cpu :: accesses es := rfl

omit [DecidableEq Cpu] in
@[simp] theorem accesses_store : accesses (.store cpu :: es) = .store cpu :: accesses es := rfl

omit [DecidableEq Cpu] in
theorem accesses_other (h : e.access = none) : accesses (e :: es) = accesses es := List.filterMap_cons_none h

/-! ### One step -/

theorem outside_cases {te : TimerEvent Cpu} (h : s.outside ms cpu te = some s') :
    timerStep ms s.timer te = some s'.timer ∧ s'.loaded = s.loaded := by
  rw [TickState.outside] at h
  split at h
  · obtain ⟨timer, htimer, rfl⟩ := Option.map_eq_some_iff.mp h
    exact ⟨htimer, rfl⟩
  · cases h

theorem timerStep_started {a b : TimerState Cpu} {te : TimerEvent Cpu} (h : timerStep ms a te = some b)
    (hst : a.started cpu = true) : b.started cpu = true := by
  cases te with
  | calibrate c =>
    cases h
    by_cases hc : cpu = c
    · subst hc
      exact Function.update_self _ _ _
    · exact (Function.update_of_ne hc _ _).trans hst
  | timer c =>
    rw [timerStep] at h
    split at h <;> cases h
    exact hst
  | call =>
    rw [timerStep] at h
    split at h <;> cases h
    exact hst
  | test =>
    rw [timerStep] at h
    split at h <;> cases h
    exact hst

theorem timerStep_ticks {a b : TimerState Cpu} {te : TimerEvent Cpu} (h : timerStep ms a te = some b) :
    b.apicTimerTicks = a.apicTimerTicks + BitVec.ofNat 64 te.ticks := by
  cases te with
  | calibrate c =>
    cases h
    exact (BitVec.add_zero _).symm
  | timer c =>
    rw [timerStep] at h
    split at h <;> cases h
    rfl
  | call =>
    rw [timerStep] at h
    split at h <;> cases h
    exact (BitVec.add_zero _).symm
  | test =>
    rw [timerStep] at h
    split at h <;> cases h
    exact (BitVec.add_zero _).symm

/-- A handler loads or stores, or the step is one of the machine without the race that does not count. -/
theorem tickStep_cases (h : tickStep caller ms s e = some s') :
    (∃ c, e = .load c ∧ s.timer.started c = true ∧ s.loaded c = none ∧ s'.timer = s.timer ∧ s'.counter = s.counter.fetch c) ∨
    (∃ c v, e = .store c ∧ s.loaded c = some v ∧ s'.counter = s.counter.put c (apicTimer v) ∧
      s'.timer = { s.timer with
        apicTimerTicks := apicTimer v, handled := Function.update s.timer.handled c (s.timer.handled c + 1) }) ∨
    ∃ te, e.access = none ∧ e.done = some te ∧ timerStep ms s.timer te = some s'.timer ∧ s'.counter = s.counter := by
  have other : ∀ c te, te.ticks = 0 → s.outside ms c te = some s' →
      timerStep ms s.timer te = some s'.timer ∧ s'.counter = s.counter := by
    intro c te hte h
    obtain ⟨htimer, hloaded⟩ := outside_cases h
    have hticks := timerStep_ticks htimer
    rw [hte, BitVec.add_zero] at hticks
    refine ⟨htimer, ?_⟩
    rw [TickState.counter, TickState.counter, hticks, hloaded]
  cases e with
  | load c =>
    rw [tickStep] at h
    split at h
    · next hc =>
      cases h
      exact Or.inl ⟨c, rfl, hc.1, hc.2, rfl, rfl⟩
    · cases h
  | store c =>
    obtain ⟨v, hv, rfl⟩ := Option.map_eq_some_iff.mp h
    exact Or.inr (Or.inl ⟨c, v, rfl, hv, rfl, rfl⟩)
  | calibrate c => exact Or.inr (Or.inr ⟨_, rfl, rfl, other c _ rfl h⟩)
  | call => exact Or.inr (Or.inr ⟨_, rfl, rfl, other caller _ rfl h⟩)
  | test => exact Or.inr (Or.inr ⟨_, rfl, rfl, other caller _ rfl h⟩)

/-! ### The counter -/

/-- A run is a run of the counter. -/
theorem run_counter (h : run (tickStep caller ms) s es = some t) :
    run (step apicTimer) s.counter (accesses es) = some t.counter := by
  induction es generalizing s with
  | nil =>
    cases h
    rfl
  | cons e es ih =>
    obtain ⟨s₁, hstep, h⟩ := run_cons_eq_some.mp h
    have hrest := ih h
    rcases tickStep_cases hstep with ⟨c, rfl, -, hc, -, hcounter⟩ | ⟨c, v, rfl, hv, hcounter, -⟩ | ⟨te, hacc, -, -, hcounter⟩
    · have hload : step apicTimer s.counter (.load c) = some (s.counter.fetch c) := by
        have hnone : s.counter.loaded c = none := hc
        rw [step, hnone]
      rw [accesses_load, run_cons, hload, ← hcounter]
      exact hrest
    · have hstore : step apicTimer s.counter (.store c) = some (s.counter.put c (apicTimer v)) := by
        have hsome : s.counter.loaded c = some v := hv
        rw [step, hsome]
        rfl
      rw [accesses_store, run_cons, hstore, ← hcounter]
      exact hrest
    · rw [accesses_other hacc, ← hcounter]
      exact hrest

/-- What is missing of the count, and that nothing is exactly when no store was stale. -/
theorem run_lost (hloaded : ∀ c, s.loaded c = none) (h : run (tickStep caller ms) s es = some t) :
    ∃ lost ≤ interrupts es,
      t.timer.apicTimerTicks + BitVec.ofNat 64 lost = s.timer.apicTimerTicks + BitVec.ofNat 64 (interrupts es) ∧
      (lost = 0 ↔ NoStale es) := by
  obtain ⟨f, hf⟩ : ∃ f : Nat → Word, f = fun n => s.timer.apicTimerTicks + BitVec.ofNat 64 n := ⟨_, rfl⟩
  have hstart : s.counter = Counter.map f ⟨0, fun _ => none⟩ := by
    have hzero : f 0 = s.timer.apicTimerTicks := by
      rw [hf]
      exact BitVec.add_zero _
    rw [TickState.counter, Counter.map, hzero, funext hloaded]
    rfl
  have hnext : ∀ n, f (Nat.succ n) = apicTimer (f n) := fun n => by
    have hsucc : f (n + 1) = s.timer.apicTimerTicks + BitVec.ofNat 64 (n + 1) := by rw [hf]
    have hn : f n = s.timer.apicTimerTicks + BitVec.ofNat 64 n := by rw [hf]
    rw [Nat.succ_eq_add_one, hsucc, hn, apicTimer, BitVec.ofNat_add, BitVec.add_assoc]
    rfl
  have hrun := run_counter h
  rw [hstart, run_map hnext] at hrun
  obtain ⟨c, hc, hmap⟩ := Option.map_eq_some_iff.mp hrun
  obtain ⟨hle, heq⟩ := (Behind.start 0 fun _ => false).run hc
  rw [Nat.zero_add] at hle heq
  have hticks : f c.value = t.timer.apicTimerTicks := congrArg Counter.value hmap
  refine ⟨interrupts es - c.value, Nat.sub_le _ _, ?_, ?_⟩
  · have hle' : c.value ≤ interrupts es := hle
    have hvalue : f c.value = s.timer.apicTimerTicks + BitVec.ofNat 64 c.value := by rw [hf]
    rw [← hticks, hvalue, BitVec.add_assoc, ← BitVec.ofNat_add, Nat.add_sub_of_le hle']
  · have hserial : c.value = interrupts es ↔ NoStale es := heq.trans (and_iff_right rfl)
    rw [← hserial]
    have hle' : c.value ≤ interrupts es := hle
    omega

/-! ### Without stale stores -/

/-- The increment of a handler whose load is up to date is one step. -/
theorem run_done (h : run (tickStep caller ms) s es = some t) (hcurrent : Current fresh s.counter)
    (hstarted : ∀ c v, s.loaded c = some v → s.timer.started c = true) (hserial : serial fresh (accesses es) = true) :
    run (timerStep ms) s.timer (singleSteps es) = some t.timer := by
  induction es generalizing s fresh with
  | nil =>
    cases h
    rfl
  | cons e es ih =>
    obtain ⟨s₁, hstep, hrest⟩ := run_cons_eq_some.mp h
    rcases tickStep_cases hstep with ⟨c, rfl, hst, -, htimer, hcounter⟩ | ⟨c, v, rfl, hv, hcounter, htimer⟩ |
        ⟨te, hacc, hdone, htimer, hcounter⟩
    · have hsteps : singleSteps (.load c :: es) = singleSteps es := rfl
      rw [hsteps, ← htimer]
      refine ih hrest (hcounter ▸ hcurrent.fetch) (fun c' w hw => ?_) hserial
      have hw' : (s.counter.fetch c).loaded c' = some w := by
        rw [← hcounter]
        exact hw
      rw [htimer]
      rcases loaded_fetch hw' with ⟨rfl, -⟩ | ⟨-, hw'⟩
      · exact hst
      · exact hstarted c' w hw'
    · obtain ⟨hfresh, hserial⟩ := (Bool.and_eq_true _ _).mp hserial
      have hvalue : v = s.timer.apicTimerTicks := hcurrent c v hv hfresh
      have hcount : timerStep ms s.timer (.timer c) = some s₁.timer := by
        rw [timerStep, if_pos (hstarted c v hv), htimer, hvalue]
      have hsteps : singleSteps (.store c :: es) = .timer c :: singleSteps es := rfl
      rw [hsteps, run_cons, hcount]
      refine ih hrest (current_stale _) (fun c' w hw => ?_) hserial
      have hw' : (s.counter.put c (apicTimer v)).loaded c' = some w := by
        rw [← hcounter]
        exact hw
      rw [htimer]
      exact hstarted c' w (loaded_put hw').2
    · rw [singleSteps, List.filterMap_cons_some hdone, run_cons, htimer]
      rw [accesses_other hacc] at hserial
      refine ih hrest (hcounter ▸ hcurrent) (fun c' w hw => ?_) hserial
      have hloaded : s₁.loaded = s.loaded := congrArg Counter.loaded hcounter
      rw [hloaded] at hw
      exact timerStep_started htimer (hstarted c' w hw)

/-- In every interleaving of the handlers, `apic_timer_ticks` is short of the interrupts by those that were lost. None is lost
    exactly when no store is stale, and then the run is one of the machine whose increment is a single step. -/
theorem ticks_lost (hloaded : ∀ c, s.loaded c = none) (h : run (tickStep caller ms) s es = some t) :
    (∃ lost ≤ interrupts es,
      t.timer.apicTimerTicks + BitVec.ofNat 64 lost = s.timer.apicTimerTicks + BitVec.ofNat 64 (interrupts es) ∧
      (lost = 0 ↔ NoStale es)) ∧
    (NoStale es → run (timerStep ms) s.timer (singleSteps es) = some t.timer) := by
  refine ⟨run_lost hloaded h, fun hserial => run_done h (current_stale _) (fun c v hv => ?_) hserial⟩
  rw [hloaded c] at hv
  cases hv

/-- The timers of all processors run, and no handler has begun. -/
def handlersIdle : TickState Nat := ⟨timersStarted, fun _ => none⟩

/-- Both handlers load 0. -/
theorem ticks_lost_sample : ∃ t, run (tickStep 0 2) handlersIdle [.load 0, .load 1, .store 0, .store 1] = some t ∧
    t.timer.apicTimerTicks = 1 ∧ ∃ lost ≤ 2, t.timer.apicTimerTicks + BitVec.ofNat 64 lost = 2 ∧
      (lost = 0 ↔ NoStale ([.load 0, .load 1, .store 0, .store 1] : List (TickEvent Nat))) := by
  have hsome : (run (tickStep 0 2) handlersIdle [.load 0, .load 1, .store 0, .store 1]).map
      (fun t => t.timer.apicTimerTicks) = some 1 := by
    decide
  obtain ⟨t, hrun, hticks⟩ := Option.map_eq_some_iff.mp hsome
  obtain ⟨⟨lost, hle, hsum, hzero⟩, -⟩ := ticks_lost (fun _ => rfl) hrun
  exact ⟨t, hrun, hticks, lost, hle, hsum, hzero⟩

/-! ### `apic_sleep` -/

/-- A call that began at `start` has counted `n` interrupts, and is over only if these are enough. -/
structure Counted (ms : BitVec 32) (start : Word) (n : Nat) (s : TimerState Cpu) : Prop where
  ticks : s.apicTimerTicks = start + BitVec.ofNat 64 n
  waits : s.sleep = .waiting (sleepStart start) ∨ s.sleep = .returned ∧ ms.toNat ≤ n

section
variable {start : Word} {n : Nat} {a b : TimerState Cpu} {te : TimerEvent Cpu} {tes : List (TimerEvent Cpu)}

theorem Counted.step (h : Counted ms start n a) (hfits : FitsInt start) (hms : ms.toNat < 2 ^ 31)
    (hstep : timerStep ms a te = some b) : Counted ms start (n + te.ticks) b := by
  refine ⟨?_, ?_⟩
  · rw [timerStep_ticks hstep, h.ticks, BitVec.add_assoc, ← BitVec.ofNat_add]
  cases te with
  | calibrate c =>
    cases hstep
    exact h.waits
  | timer c =>
    rw [timerStep] at hstep
    split at hstep <;> cases hstep
    exact h.waits.imp_right fun hret => ⟨hret.1, Nat.le_succ_of_le hret.2⟩
  | call => rcases h.waits with hw | ⟨hw, -⟩ <;> simp [timerStep, hw] at hstep
  | test =>
    rcases h.waits with hw | ⟨hw, -⟩
    · rw [timerStep, hw] at hstep
      cases hstep
      rw [hfits.sleepTest_eq hms, h.ticks, BitVec.add_comm, BitVec.add_sub_cancel, BitVec.toNat_ofNat]
      simp only
      split
      · exact Or.inl rfl
      · rename_i hret
        rw [decide_eq_true_eq, Nat.not_lt] at hret
        exact Or.inr ⟨rfl, hret.trans (Nat.mod_le n (2 ^ 64))⟩
    · simp [timerStep, hw] at hstep

theorem Counted.run (h : Counted ms start n a) (hfits : FitsInt start) (hms : ms.toNat < 2 ^ 31)
    (hrun : run (timerStep ms) a tes = some b) : Counted ms start (n + (tes.map TimerEvent.ticks).sum) b := by
  induction tes generalizing n a with
  | nil =>
    cases hrun
    exact h
  | cons te tes ih =>
    obtain ⟨a₁, hstep, hrest⟩ := run_cons_eq_some.mp hrun
    rw [List.map_cons, List.sum_cons, ← Nat.add_assoc]
    exact ih (h.step hfits hms hstep) hrest

theorem run_ticks (hrun : run (timerStep ms) a tes = some b) :
    b.apicTimerTicks = a.apicTimerTicks + BitVec.ofNat 64 (tes.map TimerEvent.ticks).sum := by
  induction tes generalizing a with
  | nil =>
    cases hrun
    exact (BitVec.add_zero _).symm
  | cons te tes ih =>
    obtain ⟨a₁, hstep, hrest⟩ := run_cons_eq_some.mp hrun
    rw [ih hrest, timerStep_ticks hstep, List.map_cons, List.sum_cons, BitVec.ofNat_add, BitVec.add_assoc]

end

omit [DecidableEq Cpu] in
/-- As many interrupts have been handled as there were stores. -/
theorem sum_ticks (es : List (TickEvent Cpu)) : ((singleSteps es).map TimerEvent.ticks).sum = interrupts es := by
  induction es with
  | nil => rfl
  | cons e es ih =>
    cases e with
    | store c =>
      have hsteps : singleSteps (.store c :: es) = .timer c :: singleSteps es := rfl
      rw [interrupts, accesses_store, stores_store, ← interrupts, hsteps, List.map_cons, List.sum_cons, ih, TimerEvent.ticks,
        Nat.add_comm]
    | load c =>
      rw [interrupts, accesses_load, stores_load]
      exact ih
    | calibrate c => exact (Nat.zero_add _).trans ih
    | call => exact (Nat.zero_add _).trans ih
    | test => exact (Nat.zero_add _).trans ih

/-- Without stale stores a call takes the interrupts that it waits for, of whatever timers. -/
theorem sleep_serial (hms : ms.toNat < 2 ^ 31) (hloaded : ∀ c, s.loaded c = none)
    (hfits : FitsInt (s.timer.apicTimerTicks + BitVec.ofNat 64 (interrupts es)))
    (h : run (tickStep caller ms) s (es ++ .call :: es') = some t) (hserial : NoStale (es ++ .call :: es'))
    (hret : t.timer.sleep = .returned) : ms.toNat ≤ interrupts es' := by
  have hrun := run_done h (current_stale _) (fun c v hv => by rw [hloaded c] at hv; cases hv) hserial
  rw [singleSteps, List.filterMap_append, ← singleSteps] at hrun
  obtain ⟨a, hbefore, hrun⟩ := run_append_eq_some.mp hrun
  obtain ⟨b, hcall, hafter⟩ := run_cons_eq_some.mp hrun
  have hticks := run_ticks hbefore
  rw [sum_ticks] at hticks
  have hstart : Counted ms a.apicTimerTicks 0 b := by
    rw [timerStep] at hcall
    split at hcall <;> cases hcall
    exact ⟨(BitVec.add_zero _).symm, Or.inl rfl⟩
  have hcounted := hstart.run (hticks ▸ hfits) hms hafter
  rw [Nat.zero_add, ← singleSteps, sum_ticks] at hcounted
  rcases hcounted.waits with hw | ⟨-, hn⟩
  · rw [hw] at hret
    cases hret
  · exact hn

/-- A processor loads before two interrupts of the caller. -/
def staleRun (caller cpu : Cpu) : List (TickEvent Cpu) :=
  [.load cpu, .load caller, .store caller, .load caller, .store caller]

/-- What it stores then, while the caller waits, is stale. -/
theorem noStale_staleRun (caller cpu : Cpu) : NoStale (staleRun caller cpu) ∧
    ¬NoStale (staleRun caller cpu ++ [.call, .store cpu]) := by
  have hafter : accesses (staleRun caller cpu ++ [.call, .store cpu]) =
      [.load cpu, .load caller, .store caller, .load caller, .store caller, .store cpu] := rfl
  refine ⟨?_, ?_⟩
  · simp [NoStale, staleRun, accesses, TickEvent.access, serial]
  · rw [NoStale, hafter]
    simp [serial]

/-- The call of `apic_sleep` behind `es` sees one interrupt, whose store is stale and puts the counter below its value at the
    call, and returns. -/
structure EndedByStale (caller cpu : Cpu) (ms : BitVec 32) (s : TickState Cpu) (es : List (TickEvent Cpu))
    (u v t : TickState Cpu) : Prop where
  before : run (tickStep caller ms) s es = some u
  fits : FitsInt u.timer.apicTimerTicks
  serial : NoStale es
  store : run (tickStep caller ms) u [.call, .store cpu] = some v
  stale : ¬NoStale (es ++ [.call, .store cpu])
  below : v.timer.apicTimerTicks.toNat < u.timer.apicTimerTicks.toNat
  test : run (tickStep caller ms) v [.test] = some t
  returned : t.timer.sleep = .returned

theorem exists_endedByStale (hcpu : cpu ≠ caller) (hms : ms.toNat < 2 ^ 31) (hloaded : ∀ c, s.loaded c = none)
    (hidle : s.timer.sleep = .idle) (hst : s.timer.started caller = true) (hst' : s.timer.started cpu = true)
    (hfits : s.timer.apicTimerTicks.toNat + 2 < 2 ^ 31) : ∃ u v t, EndedByStale caller cpu ms s (staleRun caller cpu) u v t := by
  obtain ⟨a, ha⟩ : ∃ a, a = s.timer.apicTimerTicks := ⟨_, rfl⟩
  rw [← ha] at hfits
  have h1 : (1 : Word).toNat = 1 := rfl
  have hone : (a + 1).toNat = a.toNat + 1 := by
    rw [BitVec.toNat_add, h1]
    omega
  have hnat : (a + 1 + 1).toNat = a.toNat + 2 := by
    rw [BitVec.toNat_add, hone, h1]
    omega
  have hfits' : FitsInt (a + 1 + 1) := Or.inl (by omega)
  have hdiff : (a + 1 - (a + 1 + 1)).toNat = 2 ^ 64 - 1 := by
    rw [BitVec.toNat_sub, hnat, hone]
    omega
  have htest : sleepTest (a + 1) (sleepStart (a + 1 + 1)) ms = false := by
    rw [hfits'.sleepTest_eq hms, hdiff]
    exact decide_eq_false (by omega)
  have hbefore : (run (tickStep caller ms) s (staleRun caller cpu)).map (fun u => (u.timer.apicTimerTicks, u.timer.sleep,
      u.loaded cpu, u.loaded caller)) = some (a + 1 + 1, .idle, some a, none) := by
    simp [staleRun, tickStep, apicTimer, hst, hst', hloaded, hidle, hcpu, hcpu.symm, ← ha]
  obtain ⟨u, hu, hend⟩ := Option.map_eq_some_iff.mp hbefore
  simp only [Prod.mk.injEq] at hend
  obtain ⟨hticks, hsleep, hcpu', hcaller⟩ := hend
  have hstore : (run (tickStep caller ms) u [.call, .store cpu]).map (fun v => (v.timer.apicTimerTicks, v.timer.sleep,
      v.loaded caller)) = some (a + 1, .waiting (sleepStart (a + 1 + 1)), none) := by
    simp [tickStep, TickState.outside, timerStep, apicTimer, hticks, hsleep, hcpu', hcaller, hcpu.symm]
  obtain ⟨v, hv, hend⟩ := Option.map_eq_some_iff.mp hstore
  simp only [Prod.mk.injEq] at hend
  obtain ⟨hticks', hsleep', hcaller'⟩ := hend
  have htest' : (run (tickStep caller ms) v [.test]).map (fun t => t.timer.sleep) = some .returned := by
    simpa [tickStep, TickState.outside, timerStep, hticks', hsleep', hcaller'] using htest
  obtain ⟨t, ht, hret⟩ := Option.map_eq_some_iff.mp htest'
  obtain ⟨hserial, hstale⟩ := noStale_staleRun caller cpu
  refine ⟨u, v, t, hu, by rw [hticks]; exact hfits', hserial, hv, hstale, ?_, ht, hret⟩
  rw [hticks, hticks', hnat, hone]
  omega

/-- For any number of processors: a call of `apic_sleep(ms)` that returns has waited for `ms` interrupts of the timers in every run
    without a stale store. For every `ms` there is a run in which the call returns after a single interrupt, whose store is
    stale and puts the counter below its value at the call. -/
theorem sleep_race (caller : Cpu) (hms : 0 ≤ ms.toInt) (hloaded : ∀ c, s.loaded c = none) :
    (∀ es es' t, run (tickStep caller ms) s (es ++ .call :: es') = some t →
      FitsInt (s.timer.apicTimerTicks + BitVec.ofNat 64 (interrupts es)) → NoStale (es ++ .call :: es') →
      t.timer.sleep = .returned → ms.toNat ≤ interrupts es') ∧
    ∀ cpu, cpu ≠ caller → s.timer.sleep = .idle → s.timer.started caller = true → s.timer.started cpu = true →
      s.timer.apicTimerTicks.toNat + 2 < 2 ^ 31 → ∃ es u v t, EndedByStale caller cpu ms s es u v t := by
  have hnat : ms.toNat < 2 ^ 31 := by
    rw [BitVec.toInt_eq_toNat_cond] at hms
    split at hms <;> omega
  refine ⟨fun es es' t h hfits hserial hret => sleep_serial hnat hloaded hfits h hserial hret,
    fun cpu hcpu hidle hst hst' hfits => ?_⟩
  obtain ⟨u, v, t, hended⟩ := exists_endedByStale hcpu hnat hloaded hidle hst hst' hfits
  exact ⟨_, u, v, t, hended⟩

theorem sleep_race_sample : ∃ es u v t, EndedByStale 0 1 1000 handlersIdle es u v t :=
  (sleep_race 0 (by decide) fun _ => rfl).2 1 (by decide) rfl rfl rfl (by decide)

end

end Neobird64
