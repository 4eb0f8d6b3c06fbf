import Neobird64.LapicTimer
import Neobird64.Theorems.Sleep
import Mathlib.Tactic.Ring
import Mathlib.Tactic.Positivity
import Mathlib.Tactic.GCongr
import Mathlib.Data.Rat.Floor

/-! How long `apic_sleep` takes after `calibrate_timer`. The timer is set to a period of 50 ms, of which
    `apic_sleep` makes a millisecond. -/

namespace Neobird64
open PeriodicTimer

section
variable {K : Type} [Field K] [LinearOrder K] [FloorSemiring K]

/-- The call of `apic_sleep(ms)` at `start`, after `calibrate_timer`, returns when `d` has passed. -/
structure SleepLasts (bus : K) (t : LapicTimer K) (ticks : Word) (start : K) (ms : BitVec 32) (d : K) : Prop where
  nonneg : 0 ≤ d
  waits : ∀ e, 0 ≤ e → e < d →
    sleepTest (ticksAfter bus t ticks (start + e)) (sleepStart (ticksAfter bus t ticks start)) ms = true
  returns : sleepTest (ticksAfter bus t ticks (start + d)) (sleepStart (ticksAfter bus t ticks start)) ms = false

/-- The timer runs down in the 2 ms after `start`. -/
def InterruptSoon (bus : K) (t : LapicTimer K) (start : K) : Prop :=
  (t.pass bus start).interrupts < (t.pass bus (start + 2)).interrupts

variable {bus start d : K} {t : LapicTimer K} {ticks : Word} {ms : BitVec 32}

theorem ticksAfter_eq (bus : K) (t : LapicTimer K) (ticks : Word) (time : K) :
    ticksAfter bus t ticks time = ticks + BitVec.ofNat 64 (t.pass bus time).interrupts := by
  unfold ticksAfter
  induction (t.pass bus time).interrupts with
  | zero => rw [Function.iterate_zero_apply, BitVec.add_zero]
  | succ n ih =>
    rw [Function.iterate_succ_apply', ih, apicTimer, BitVec.add_assoc, BitVec.ofNat_add]
    rfl

theorem sleepTest_ticksAfter (hms : ms.toNat < 2 ^ 31) (hticks : (ticksAfter bus t ticks start).toNat < 2 ^ 31)
    {time : K} {m : Nat} (hm : (t.pass bus time).interrupts = (t.pass bus start).interrupts + m) :
    sleepTest (ticksAfter bus t ticks time) (sleepStart (ticksAfter bus t ticks start)) ms = true ↔ m % 2 ^ 64 < ms.toNat := by
  have hdiff : ticksAfter bus t ticks time - ticksAfter bus t ticks start = BitVec.ofNat 64 m := by
    rw [ticksAfter_eq, ticksAfter_eq, hm, BitVec.ofNat_add, ← BitVec.add_assoc, BitVec.add_comm _ (BitVec.ofNat 64 m),
      BitVec.add_sub_cancel]
  rw [FitsInt.sleepTest_eq (Or.inl hticks) hms, decide_eq_true_eq, hdiff, BitVec.toNat_ofNat]

theorem sleepLasts_zero (hticks : (ticksAfter bus t ticks start).toNat < 2 ^ 31) : SleepLasts bus t ticks start 0 0 where
  nonneg := le_rfl
  waits _ he hlt := absurd (lt_of_le_of_lt he hlt) (lt_irrefl _)
  returns := by
    have hsame : (t.pass bus (start + 0)).interrupts = (t.pass bus start).interrupts + 0 := by rw [add_zero, Nat.add_zero]
    rw [← Bool.not_eq_true, sleepTest_ticksAfter (by decide) hticks hsame]
    decide

/-- The counts of 50 ms with divisor 16. -/
def calibrated (bus : K) : Nat := ⌊bus / 16 * 50⌋₊

variable [IsStrictOrderedRing K]

/-! ### The timer after `calibrate_timer` -/

theorem calibrated_lt (hcount : bus / 16 * 50 < 0xffffffff) : calibrated bus < 2 ^ 32 - 1 := by
  rw [calibrated, Nat.floor_lt' (by decide)]
  exact_mod_cast hcount

theorem calibrateTimer_eq (hcount : bus / 16 * 50 < 0xffffffff) : calibrateTimer bus t =
    ⟨0x3, 172 ||| LAPIC_PERIODIC, BitVec.ofNat 32 (calibrated bus), 0⟩ := by
  have hlt := calibrated_lt hcount
  have hcounts : (0 : K) + bus / (LapicTimer.divisor 0x3 : Nat) * delayTime 50000 = bus / 16 * 50 := by
    have h16 : LapicTimer.divisor 0x3 = 16 := rfl
    rw [h16, delayTime]
    push_cast
    ring
  have hcurrent : (LapicTimer.mk 0x10000 t.lvt 0xffffffff (bus / 16 * 50)).current =
      BitVec.ofNat 32 (0xffffffff - calibrated bus) := LapicTimer.current_of_lt hlt
  have hsub : (0xffffffff : BitVec 32) - BitVec.ofNat 32 (0xffffffff - calibrated bus) = BitVec.ofNat 32 (calibrated bus) := by
    have hmax : (0xffffffff : BitVec 32).toNat = 0xffffffff := rfl
    apply BitVec.eq_of_toNat_eq
    rw [BitVec.toNat_sub, BitVec.toNat_ofNat, BitVec.toNat_ofNat, hmax]
    omega
  simp only [calibrateTimer, LapicTimer.write_timerdiv, LapicTimer.write_initcnt, LapicTimer.write_lvttimer,
    LapicTimer.pass, hcounts, hcurrent, hsub]

theorem interrupts_calibrated (hcount : bus / 16 * 50 < 0xffffffff) (time : K) :
    ((calibrateTimer bus t).pass bus time).interrupts = periods (calibrated bus) (bus / 16 * time) := by
  have hlt := calibrated_lt hcount
  have hperiodic : ((172 : BitVec 32) ||| LAPIC_PERIODIC).getLsbD 17 = true := by decide
  have h16 : LapicTimer.divisor 0x3 = 16 := rfl
  have hnat : (BitVec.ofNat 32 (calibrated bus)).toNat = calibrated bus := by
    rw [BitVec.toNat_ofNat]
    omega
  rw [calibrateTimer_eq hcount, LapicTimer.interrupts, LapicTimer.periodic, LapicTimer.pass, if_pos hperiodic, hnat, h16,
    zero_add]
  rfl

/-- A period takes more than 25 ms. -/
theorem calibrated_long (hcal : 0 < calibrated bus) : bus / 16 * 25 < (calibrated bus : K) := by
  have hlt : bus / 16 * 50 < (calibrated bus : K) + 1 := Nat.lt_floor_add_one _
  have hone : (1 : K) ≤ (calibrated bus : K) := by exact_mod_cast hcal
  linarith

/-! ### The loop -/

/-- At its end `ms` interrupts have come since the call. -/
theorem SleepLasts.interrupts_le (h : SleepLasts bus (calibrateTimer bus t) ticks start ms d) (hbus : 0 < bus)
    (hcount : bus / 16 * 50 < 0xffffffff) (hms : ms.toNat < 2 ^ 31)
    (hticks : (ticksAfter bus (calibrateTimer bus t) ticks start).toNat < 2 ^ 31) :
    periods (calibrated bus) (bus / 16 * start) + ms.toNat ≤ periods (calibrated bus) (bus / 16 * (start + d)) := by
  have hrate : 0 < bus / 16 := by positivity
  have hnonneg := h.nonneg
  have hmono : periods (calibrated bus) (bus / 16 * start) ≤ periods (calibrated bus) (bus / 16 * (start + d)) :=
    periods_mono (by gcongr; linarith)
  obtain ⟨m, hm⟩ := Nat.exists_eq_add_of_le hmono
  have htest : sleepTest (ticksAfter bus (calibrateTimer bus t) ticks (start + d))
      (sleepStart (ticksAfter bus (calibrateTimer bus t) ticks start)) ms = true ↔ m % 2 ^ 64 < ms.toNat :=
    sleepTest_ticksAfter hms hticks (by rw [interrupts_calibrated hcount, interrupts_calibrated hcount, hm])
  have hstop : ¬m % 2 ^ 64 < ms.toNat := by
    rw [← htest, h.returns]
    exact Bool.false_ne_true
  have := Nat.mod_le m (2 ^ 64)
  omega

/-- A call for at least 2 ms waits longer than `ms + 1` milliseconds. -/
theorem SleepLasts.le_one (h : SleepLasts bus (calibrateTimer bus t) ticks start ms d) (hbus : 0 < bus)
    (hstart : 0 ≤ start) (hcal : 0 < calibrated bus) (hd : d ≤ (ms.toNat : K) + 1)
    (hle : periods (calibrated bus) (bus / 16 * start) + ms.toNat ≤ periods (calibrated bus) (bus / 16 * (start + d))) :
    ms.toNat ≤ 1 := by
  have hrate : 0 < bus / 16 := by positivity
  by_contra hgt
  obtain ⟨k, hk⟩ := Nat.exists_eq_add_of_lt (Nat.lt_of_not_le hgt)
  have hcounts : ((1 + k : Nat) : K) * calibrated bus < bus / 16 * d := by
    refine lt_of_periods_add_le hrate hcal hstart h.nonneg ?_
    omega
  have hlong := calibrated_long hcal
  have hdk : d ≤ (k : K) + 3 := by
    rw [hk] at hd
    push_cast at hd
    linarith
  have hk0 : (0 : K) ≤ k := Nat.cast_nonneg k
  push_cast at hcounts
  nlinarith

/-- A call that ends within `ms + 1` milliseconds waits for no more than one interrupt, which comes soon. -/
theorem SleepLasts.soon (h : SleepLasts bus (calibrateTimer bus t) ticks start ms d) (hbus : 0 < bus)
    (hcount : bus / 16 * 50 < 0xffffffff) (hstart : 0 ≤ start) (hms : ms.toNat < 2 ^ 31) (hpos : 0 < ms.toNat)
    (hticks : (ticksAfter bus (calibrateTimer bus t) ticks start).toNat < 2 ^ 31) (hd : d ≤ (ms.toNat : K) + 1) :
    ms.toNat = 1 ∧ InterruptSoon bus (calibrateTimer bus t) start := by
  have hrate : 0 < bus / 16 := by positivity
  have hle := h.interrupts_le hbus hcount hms hticks
  have hcal : 0 < calibrated bus := by
    by_contra hzero
    rw [Nat.eq_zero_of_not_pos hzero, periods_no_counts, periods_no_counts] at hle
    omega
  have hone : ms.toNat = 1 := Nat.le_antisymm (h.le_one hbus hstart hcal hd hle) hpos
  refine ⟨hone, ?_⟩
  have hsoon : periods (calibrated bus) (bus / 16 * (start + d)) ≤ periods (calibrated bus) (bus / 16 * (start + 2)) := by
    refine periods_mono ?_
    gcongr
    rw [hone] at hd
    push_cast at hd
    linarith
  rw [InterruptSoon, interrupts_calibrated hcount, interrupts_calibrated hcount]
  omega

/-- A call for 1 ms returns at the next interrupt. -/
theorem sleepLasts_one (hbus : 0 < bus) (hcount : bus / 16 * 50 < 0xffffffff) (hstart : 0 ≤ start)
    (hticks : (ticksAfter bus (calibrateTimer bus t) ticks start).toNat < 2 ^ 31)
    (hsoon : InterruptSoon bus (calibrateTimer bus t) start) :
    ∃ d, SleepLasts bus (calibrateTimer bus t) ticks start 1 d ∧ 0 < d ∧ d ≤ 2 := by
  have hrate : 0 < bus / 16 := by positivity
  rw [InterruptSoon, interrupts_calibrated hcount, interrupts_calibrated hcount] at hsoon
  have hcal : 0 < calibrated bus := by
    by_contra hzero
    rw [Nat.eq_zero_of_not_pos hzero, periods_no_counts, periods_no_counts] at hsoon
    omega
  have hlt : bus / 16 * start < ((periods (calibrated bus) (bus / 16 * start) + 1 : Nat) : K) * calibrated bus :=
    (periods_lt_iff hcal (by positivity)).mp (Nat.lt_succ_self _)
  set k := periods (calibrated bus) (bus / 16 * start) with hk
  -- The time of the next interrupt.
  set next : K := ((k + 1 : Nat) : K) * calibrated bus / (bus / 16) with hnext
  have hafter : start < next := (lt_div_iff₀' hrate).mpr hlt
  have hmul : bus / 16 * next = ((k + 1 : Nat) : K) * calibrated bus := mul_div_cancel₀ _ hrate.ne'
  have hwait : ∀ e, 0 ≤ e → (k + 1 ≤ periods (calibrated bus) (bus / 16 * (start + e)) ↔ next - start ≤ e) := fun e he =>
    periods_add_le_iff hrate hcal hstart he
  refine ⟨next - start, ⟨by linarith, fun e he hlt => ?_, ?_⟩, by linarith, (hwait 2 (by norm_num)).mp hsoon⟩
  · have hsame : periods (calibrated bus) (bus / 16 * (start + e)) = k + 0 := by
      have hge : k ≤ periods (calibrated bus) (bus / 16 * (start + e)) := periods_mono (by gcongr; linarith)
      have hnot := mt (hwait e he).mp (not_le.mpr hlt)
      omega
    rw [sleepTest_ticksAfter (by decide) hticks (by rw [interrupts_calibrated hcount, interrupts_calibrated hcount, hsame])]
    decide
  · have hone : periods (calibrated bus) (bus / 16 * (start + (next - start))) = k + 1 := by
      rw [add_sub_cancel, hmul, periods_mul hcal]
    rw [← Bool.not_eq_true,
      sleepTest_ticksAfter (by decide) hticks (by rw [interrupts_calibrated hcount, interrupts_calibrated hcount, hone])]
    decide

/-- After `calibrate_timer`, a call of `apic_sleep(ms)` lasts `ms` milliseconds, up to one more or less, only when
    it waits for nothing, or for one interrupt that comes within 2 ms. -/
theorem sleepTime_iff (hbus : 0 < bus) (hcount : bus / 16 * 50 < 0xffffffff) (hstart : 0 ≤ start) (hms : 0 ≤ ms.toInt)
    (hticks : (ticksAfter bus (calibrateTimer bus t) ticks start).toNat + ms.toNat < 2 ^ 31) :
    (∃ d, SleepLasts bus (calibrateTimer bus t) ticks start ms d ∧ (ms.toNat : K) - 1 < d ∧ d ≤ (ms.toNat : K) + 1) ↔
      ms = 0 ∨ ms = 1 ∧ InterruptSoon bus (calibrateTimer bus t) start := by
  constructor
  · rintro ⟨d, h, -, hd⟩
    rcases Nat.eq_zero_or_pos ms.toNat with hzero | hpos
    · exact Or.inl (BitVec.eq_of_toNat_eq hzero)
    · obtain ⟨hone, hsoon⟩ := h.soon hbus hcount hstart (by omega) hpos (by omega) hd
      exact Or.inr ⟨BitVec.eq_of_toNat_eq hone, hsoon⟩
  · rintro (rfl | ⟨rfl, hsoon⟩)
    · have h0 : (0 : BitVec 32).toNat = 0 := rfl
      exact ⟨0, sleepLasts_zero (by omega), by rw [h0]; norm_num, by rw [h0]; norm_num⟩
    · have h1 : (1 : BitVec 32).toNat = 1 := rfl
      obtain ⟨d, h, hpos, hd⟩ := sleepLasts_one hbus hcount hstart (Nat.lt_of_le_of_lt (Nat.le_add_right _ _) hticks) hsoon
      rw [h1, Nat.cast_one, sub_self, one_add_one_eq_two]
      exact ⟨d, h, hpos, hd⟩

end

/-! ### A timer that counts once in a millisecond -/

def slowTimer : LapicTimer ℚ := calibrateTimer 16 ⟨0, 0, 0, 0⟩

/-- The timer runs down at 50 ms, 1 ms after the call. -/
theorem sleepTime_iff_sample : ∃ d : ℚ, SleepLasts 16 slowTimer 0 49 1 d ∧ ((1 : BitVec 32).toNat : ℚ) - 1 < d ∧
    d ≤ ((1 : BitVec 32).toNat : ℚ) + 1 :=
  (sleepTime_iff (by norm_num) (by norm_num) (by norm_num) (by decide) (by decide +kernel)).mpr
    (Or.inr ⟨rfl, by rw [InterruptSoon]; decide +kernel⟩)

/-- A call for 2 ms waits for more than a period of 50 ms. -/
theorem sleep_too_long : ¬∃ d : ℚ, SleepLasts 16 slowTimer 0 0 2 d ∧ ((2 : BitVec 32).toNat : ℚ) - 1 < d ∧
    d ≤ ((2 : BitVec 32).toNat : ℚ) + 1 := by
  rintro ⟨d, h, -, hd⟩
  have hone := (h.soon (by norm_num) (by norm_num) le_rfl (by decide) (by decide) (by decide +kernel) hd).1
  exact absurd hone (by decide)

end Neobird64
