import Neobird64.Timer
import Mathlib.Data.BitVec
import Mathlib.Tactic.Common

/-! `apic_sleep` counts the interrupts of all timers. While only the caller's processor takes them the call
    lasts as long as it says; any other processor with a timer can end it at once. -/

namespace Neobird64
open Trace

section
variable {Cpu : Type} [DecidableEq Cpu] {caller : Cpu} {ms : BitVec 32} {s s₀ s' t : TimerState Cpu}
variable {e : TimerEvent Cpu} {es : List (TimerEvent Cpu)} {n : Nat}

/-- A call of `apic_sleep(ms)` in `s` that has returned after the events `es` has taken `ms` interrupts of
    the caller's own timer. -/
def SleepsOwn (caller : Cpu) (ms : BitVec 32) (s : TimerState Cpu) (es : List (TimerEvent Cpu)) : Prop :=
  ∀ t, run (timerStep ms) s (.call :: es) = some t → t.sleep = .returned →
    s.handled caller + ms.toNat ≤ t.handled caller

/-! ### The test of the loop -/

/-- The conversion to `int` and back keeps the value. -/
def FitsInt (ticks : Word) : Prop := ticks.toNat < 2 ^ 31 ∨ 2 ^ 64 - 2 ^ 31 ≤ ticks.toNat

instance (ticks : Word) : Decidable (FitsInt ticks) := inferInstanceAs (Decidable (_ ∨ _))

theorem toNat_sleepStart (ticks : Word) : ((sleepStart ticks).signExtend 64).toNat =
    if ticks.toNat % 2 ^ 32 < 2 ^ 31 then ticks.toNat % 2 ^ 32 else ticks.toNat % 2 ^ 32 + (2 ^ 64 - 2 ^ 32) := by
  have hnat : (sleepStart ticks).toNat = ticks.toNat % 2 ^ 32 := BitVec.toNat_setWidth ..
  rw [BitVec.toNat_signExtend, BitVec.toNat_setWidth, BitVec.msb_eq_decide, hnat]
  simp only [decide_eq_true_eq]
  split <;> split <;> omega

theorem FitsInt.sleepStart {ticks : Word} (h : FitsInt ticks) : (sleepStart ticks).signExtend 64 = ticks := by
  have hlt := ticks.isLt
  apply BitVec.eq_of_toNat_eq
  rw [toNat_sleepStart]
  unfold FitsInt at h
  split <;> omega

theorem sleepTest_toNat {ticks₀ ticks : Word} (hms : ms.toNat < 2 ^ 31) : sleepTest ticks (sleepStart ticks₀) ms =
    decide ((ticks - (sleepStart ticks₀).signExtend 64).toNat < ms.toNat) := by
  have hmsb : ms.msb = false := by
    rw [BitVec.msb_eq_decide]
    exact decide_eq_false (by omega)
  have hnat : (ms.signExtend 64).toNat = ms.toNat := by
    rw [BitVec.toNat_signExtend, hmsb, if_neg Bool.false_ne_true, BitVec.toNat_setWidth]
    omega
  rw [sleepTest]
  exact decide_eq_decide.mpr (by rw [BitVec.lt_def, hnat])

theorem FitsInt.sleepTest_eq {ticks₀ ticks : Word} (h : FitsInt ticks₀) (hms : ms.toNat < 2 ^ 31) :
    sleepTest ticks (Neobird64.sleepStart ticks₀) ms = decide ((ticks - ticks₀).toNat < ms.toNat) := by
  rw [sleepTest_toNat hms, h.sleepStart]

/-! ### One step -/

theorem handled_le (h : timerStep ms s e = some s') (cpu : Cpu) : s.handled cpu ≤ s'.handled cpu := by
  cases e with
  | calibrate c =>
    cases h
    exact le_rfl
  | timer c =>
    rw [timerStep] at h
    split at h
    · cases h
      by_cases hc : cpu = c
      · subst hc
        simp
      · simp [Function.update_of_ne hc]
    · cases h
  | call =>
    rw [timerStep] at h
    split at h
    · cases h
      exact le_rfl
    · cases h
  | test =>
    rw [timerStep] at h
    split at h
    · cases h
      exact le_rfl
    · cases h

/-- The ticks since the call are the interrupts of the caller's own timer, and there are `ms` of them when
    the call returns. -/
structure OwnTicks (caller : Cpu) (ms : BitVec 32) (s₀ s : TimerState Cpu) : Prop where
  ticks : ∃ k, s.handled caller = s₀.handled caller + k ∧ s.apicTimerTicks = s₀.apicTimerTicks + BitVec.ofNat 64 k
  waits : s.sleep = .waiting (sleepStart s₀.apicTimerTicks) ∨
    s.sleep = .returned ∧ s₀.handled caller + ms.toNat ≤ s.handled caller

theorem OwnTicks.step (own : OwnTicks caller ms s₀ s) (hticks : s₀.apicTimerTicks.toNat < 2 ^ 31) (hms : ms.toNat < 2 ^ 31)
    (he : ∀ cpu, e = .timer cpu → cpu = caller) (h : timerStep ms s e = some s') : OwnTicks caller ms s₀ s' := by
  obtain ⟨k, hk, hkt⟩ := own.ticks
  have hle := handled_le h caller
  cases e with
  | calibrate c =>
    cases h
    exact ⟨own.ticks, own.waits⟩
  | timer c =>
    obtain rfl := he c rfl
    rw [timerStep] at h
    split at h
    · cases h
      refine ⟨⟨k + 1, ?_, ?_⟩, own.waits.imp_right fun ⟨hret, hn⟩ => ⟨hret, hn.trans hle⟩⟩
      · simp only [Function.update_self]
        omega
      · rw [apicTimer, hkt, BitVec.add_assoc, BitVec.ofNat_add]
        rfl
    · cases h
  | call =>
    rcases own.waits with hw | ⟨hw, -⟩ <;> simp [timerStep, hw] at h
  | test =>
    rcases own.waits with hw | ⟨hw, -⟩
    · rw [timerStep, hw] at h
      cases h
      refine ⟨⟨k, hk, hkt⟩, ?_⟩
      rw [FitsInt.sleepTest_eq (Or.inl hticks) hms, hkt, BitVec.add_comm, BitVec.add_sub_cancel, BitVec.toNat_ofNat]
      simp only
      split
      · exact Or.inl rfl
      · rename_i hret
        rw [decide_eq_true_eq, Nat.not_lt] at hret
        have hmod := Nat.mod_le k (2 ^ 64)
        exact Or.inr ⟨rfl, by omega⟩
    · simp [timerStep, hw] at h

/-! ### Whole runs -/

/-- Without interrupts of other processors the call lasts long enough. -/
theorem sleepsOwn_of_own (hticks : s.apicTimerTicks.toNat < 2 ^ 31) (hms : ms.toNat < 2 ^ 31)
    (hown : ∀ cpu, .timer cpu ∈ es → cpu = caller) : SleepsOwn caller ms s es := by
  intro t h hret
  obtain ⟨s₁, hcall, h⟩ := run_cons_eq_some.mp h
  have hstart : OwnTicks caller ms s s₁ := by
    rw [timerStep] at hcall
    split at hcall
    · cases hcall
      exact ⟨⟨0, rfl, (BitVec.add_zero _).symm⟩, Or.inl rfl⟩
    · cases hcall
  have own := run_inv (OwnTicks caller ms s) (fun s₂ e s₃ he own₂ hstep => own₂.step hticks hms
    (fun cpu hcpu => hown cpu (hcpu ▸ he)) hstep) hstart h
  rcases own.waits with hw | ⟨-, hn⟩
  · rw [hw] at hret
    cases hret
  · exact hn

theorem sleepsOwn_zero : SleepsOwn caller 0 s es := by
  intro t h _
  refine run_inv (fun t => s.handled caller + (0 : BitVec 32).toNat ≤ t.handled caller) (fun s₁ e s₂ _ hs₁ hstep => ?_)
    le_rfl h
  exact hs₁.trans (handled_le hstep caller)

theorem run_timer (cpu : Cpu) (hst : s.started cpu = true) : ∀ n, run (timerStep ms) s (List.replicate n (.timer cpu)) =
    some { s with
      apicTimerTicks := s.apicTimerTicks + BitVec.ofNat 64 n
      handled := Function.update s.handled cpu (s.handled cpu + n) } := by
  intro n
  induction n with
  | zero => simp
  | succ n ih =>
    rw [List.replicate_succ', run_append, ih, Option.bind_some, run_cons, timerStep, if_pos hst, Option.bind_some, run_nil]
    simp only [apicTimer, Function.update_self, Function.update_idem, BitVec.ofNat_add, BitVec.add_assoc, Nat.add_assoc]
    rfl

/-- Another processor with a timer ends the call before the caller has taken an interrupt. -/
theorem not_sleepsOwn_of_other {cpu : Cpu} (hcpu : cpu ≠ caller) (hidle : s.sleep = .idle)
    (hticks : s.apicTimerTicks.toNat < 2 ^ 31) (hms : ms.toNat < 2 ^ 31) (hpos : 0 < ms.toNat) :
    ¬SleepsOwn caller ms s (.calibrate cpu :: (List.replicate ms.toNat (.timer cpu) ++ [.test])) := by
  intro h
  have hcall : timerStep ms s .call = some { s with sleep := .waiting (sleepStart s.apicTimerTicks) } := by
    rw [timerStep, hidle]
  have hnat : ((s.apicTimerTicks + BitVec.ofNat 64 ms.toNat) - s.apicTimerTicks).toNat = ms.toNat := by
    rw [BitVec.add_comm, BitVec.add_sub_cancel, BitVec.toNat_ofNat]
    omega
  have htest : sleepTest (s.apicTimerTicks + BitVec.ofNat 64 ms.toNat) (sleepStart s.apicTimerTicks) ms = false := by
    rw [FitsInt.sleepTest_eq (Or.inl hticks) hms, hnat]
    exact decide_eq_false (lt_irrefl _)
  have hrun := h { s with
    started := Function.update s.started cpu true
    apicTimerTicks := s.apicTimerTicks + BitVec.ofNat 64 ms.toNat
    handled := Function.update s.handled cpu (s.handled cpu + ms.toNat)
    sleep := .returned } ?_ rfl
  · simp only [Function.update_of_ne hcpu.symm] at hrun
    omega
  · rw [run_cons, hcall, Option.bind_some, run_cons, timerStep, Option.bind_some, run_append,
      run_timer cpu (Function.update_self _ _ _), Option.bind_some, run_cons, timerStep, Option.bind_some, run_nil]
    simp only [htest]
    rfl

/-- When no other processor handles an interrupt of its timer during the call, `apic_sleep(ms)` returns after
    `ms` interrupts of the caller's own timer at the earliest. For `ms > 0` this is so in all interleavings
    only when there is no other processor. -/
theorem apicSleep_own (hidle : s.sleep = .idle) (hpos : 0 ≤ ms.toInt) (hticks : s.apicTimerTicks.toNat < 2 ^ 31 - ms.toNat) :
    (∀ es, (∀ cpu, .timer cpu ∈ es → cpu = caller) → SleepsOwn caller ms s es) ∧
    ((∀ es, SleepsOwn caller ms s es) ↔ ms = 0 ∨ ∀ cpu : Cpu, cpu = caller) := by
  have hms : ms.toNat < 2 ^ 31 := by
    rw [BitVec.toInt_eq_toNat_cond] at hpos
    split at hpos <;> omega
  refine ⟨fun es => sleepsOwn_of_own (by omega) hms, fun h => ?_, ?_⟩
  · by_contra hne
    rw [not_or, not_forall] at hne
    obtain ⟨hne, cpu, hcpu⟩ := hne
    have hzero : ms.toNat ≠ 0 := fun h0 => hne (BitVec.eq_of_toNat_eq h0)
    exact not_sleepsOwn_of_other hcpu hidle (by omega) hms (by omega) (h _)
  · rintro (rfl | hone) es
    · exact sleepsOwn_zero
    · exact sleepsOwn_of_own (by omega) hms fun cpu _ => hone cpu

end

/-- Every processor has its timer running, and nothing has happened yet. -/
def timersStarted : TimerState Nat where
  apicTimerTicks := 0
  started := fun _ => true
  handled := fun _ => 0
  sleep := .idle

/-- Processor 0 sleeps for 2 ms and takes two interrupts. -/
theorem apicSleep_own_sample : ∃ t, run (timerStep 2) timersStarted [.call, .timer 0, .test, .timer 0, .test] = some t ∧
    t.sleep = .returned ∧ timersStarted.handled 0 + 2 ≤ t.handled 0 := by
  have hown : SleepsOwn 0 2 timersStarted [.timer 0, .test, .timer 0, .test] :=
    (apicSleep_own rfl (by decide) (by decide)).1 [.timer 0, .test, .timer 0, .test] fun cpu h => by simpa using h
  exact ⟨_, rfl, rfl, hown _ rfl rfl⟩

/-- Processor 1 takes two interrupts, which end the call of processor 0. -/
theorem sleep_ended_by_other : ¬SleepsOwn 0 2 timersStarted [.timer 1, .timer 1, .test] := by
  intro h
  exact absurd (h _ rfl rfl) (by decide)

end Neobird64
