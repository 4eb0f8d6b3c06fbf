import Neobird64.PmTimer
import Neobird64.Lib.WrapCounter
import Mathlib.Order.Monotone.Basic

/-! `pmt_delay` on an ideal clock of which the port gives the low bits. It never returns too early, and it
    returns at all when its target fits into 24 bits. -/

namespace Neobird64
open WrapCounter

/-- The width of the counter behind the port. -/
inductive PmWidth
  | bits24
  | bits32
deriving DecidableEq, Repr

def PmWidth.bits : PmWidth → Nat
  | .bits24 => 24
  | .bits32 => 32

/-- What the port gives when the ideal clock is at `c`. -/
def PmWidth.port (w : PmWidth) (c : Nat) : BitVec 32 := BitVec.ofNat 32 (reading (2 ^ w.bits) c)

/-- `target`, when the product does not overflow. -/
def targetTicks (us : Word) : Nat := us.toNat * 3579545 / 1000000

section
variable {w : PmWidth} {us target count current : Word} {first now k : Nat} {polls : List Nat} {samples : List (BitVec 32)}

/-! ### One poll -/

theorem pmtTarget_toNat (hus : us.toNat * 3579545 < 2 ^ 64) : (pmtTarget us).toNat = targetTicks us := by
  have hrate : PMT_TIMER_RATE.toNat = 3579545 := rfl
  have hmega : (1000000 : Word).toNat = 1000000 := rfl
  rw [pmtTarget, BitVec.toNat_udiv, BitVec.toNat_mul, hrate, hmega, Nat.mod_eq_of_lt hus, targetTicks]

theorem pmtCurrent_toNat (count : Word) (sample : BitVec 32) : (pmtCurrent count sample).toNat =
    (2 ^ 64 - count.toNat + sample.toNat) % 2 ^ 64 % 2 ^ 24 := by
  have hmask : (0xffffff : Word).toNat = 2 ^ 24 - 1 := rfl
  rw [pmtCurrent, BitVec.toNat_and, hmask, Nat.and_two_pow_sub_one_eq_mod, BitVec.toNat_sub, BitVec.toNat_setWidth]
  have := sample.isLt
  rw [Nat.mod_eq_of_lt (by omega : sample.toNat < 2 ^ 64)]

theorem PmWidth.port_toNat (c : Nat) : (w.port c).toNat = reading (2 ^ w.bits) c := by
  rw [port, BitVec.toNat_ofNat, reading]
  cases w <;> simp only [bits] <;> omega

/-- The 24 bits that are compared with the target are those of the time that has passed. -/
theorem pmtCurrent_port (h : first ≤ now) :
    (pmtCurrent ((w.port first).setWidth 64) (w.port now)).toNat = (now - first) % 2 ^ 24 := by
  have hcount : ((w.port first).setWidth 64).toNat = reading (2 ^ w.bits) first := by
    rw [BitVec.toNat_setWidth, w.port_toNat, reading]
    cases w <;> simp only [PmWidth.bits] <;> omega
  rw [pmtCurrent_toNat, hcount, w.port_toNat]
  cases w
  · exact sub_reading_mod (by decide) (by decide) (by decide) (by decide) h
  · exact sub_reading_mod (by decide) (by decide) (by decide) (by decide) h

/-! ### The loop -/

/-- The loop ends at the first value that reaches the target, `current` before it being the value number 0. -/
theorem pmtLoop_eq : pmtLoop target count current samples =
    (current :: samples.map (pmtCurrent count)).findIdx? fun c => !decide (c < target) := by
  induction samples generalizing current with
  | nil => by_cases h : current < target <;> simp [pmtLoop, h]
  | cons sample samples ih =>
    rw [pmtLoop, List.map_cons, List.findIdx?_cons, ih]
    by_cases h : current < target <;> simp [h]

/-- The values that the test of the loop sees, as time that has passed. -/
def elapsed (first : Nat) (polls : List Nat) : List Nat := 0 :: polls.map fun now => (now - first) % 2 ^ 24

theorem pmtDelay_eq (hus : us.toNat * 3579545 < 2 ^ 64) (hle : ∀ now ∈ polls, first ≤ now) :
    pmtDelay 4 us ((first :: polls).map w.port) = .ok ((elapsed first polls).findIdx? fun e => decide (targetTicks us ≤ e)) := by
  have helapsed : elapsed first polls =
      ((0 : Word) :: (polls.map w.port).map (pmtCurrent ((w.port first).setWidth 64))).map BitVec.toNat := by
    have hzero : (0 : Word).toNat = 0 := rfl
    rw [elapsed, List.map_cons, List.map_map, List.map_map, hzero]
    congr 1
    refine List.map_congr_left fun now hnow => ?_
    rw [Function.comp_apply, Function.comp_apply, pmtCurrent_port (hle now hnow)]
  have htest : (fun c : Word => !decide (c < pmtTarget us)) = (fun e => decide (targetTicks us ≤ e)) ∘ BitVec.toNat := by
    funext c
    rw [Bool.eq_iff_iff, Function.comp_apply, Bool.not_eq_true', decide_eq_false_iff_not, decide_eq_true_eq, BitVec.not_lt,
      BitVec.le_def, pmtTarget_toNat hus]
  unfold pmtDelay
  rw [if_neg (by decide), List.map_cons]
  simp only
  rw [pmtLoop_eq, htest, helapsed, List.findIdx?_map]

theorem getElem?_elapsed (first : Nat) (polls : List Nat) (k : Nat) :
    (elapsed first polls)[k]? = ((first :: polls)[k]?).map fun now => (now - first) % 2 ^ 24 := by
  cases k with
  | zero => simp [elapsed]
  | succ k => simp [elapsed]

/-! ### The delay -/

theorem pmtDelay_eq_some {length : BitVec 8} (hus : us.toNat * 3579545 < 2 ^ 64) (hle : ∀ now ∈ polls, first ≤ now)
    (h : pmtDelay length us ((first :: polls).map w.port) = .ok (some k)) :
    ∃ now, (first :: polls)[k]? = some now ∧ targetTicks us ≤ (now - first) % 2 ^ 24 := by
  have hlength : length = 4 := by
    by_contra hne
    unfold pmtDelay at h
    rw [if_pos hne] at h
    cases h
  subst hlength
  rw [pmtDelay_eq hus hle, Except.ok.injEq] at h
  obtain ⟨hk, hreach, -⟩ := List.findIdx?_eq_some_iff_getElem.mp h
  have hget := getElem?_elapsed first polls k
  rw [List.getElem?_eq_getElem hk] at hget
  obtain ⟨now, hnow, hval⟩ := Option.map_eq_some_iff.mp hget.symm
  refine ⟨now, hnow, ?_⟩
  rw [hval]
  simpa using hreach

/-- When `pmt_delay(us)` returns, its time has passed; and it returns at the first poll at which its time has passed,
    when this is less than 2^24 ticks after the first read. -/
theorem pmtDelay_elapsed (w : PmWidth) (us : Word) (first : Nat) (polls : List Nat) (hus : us.toNat * 3579545 < 2 ^ 64)
    (hmono : (first :: polls).Pairwise (· ≤ ·)) :
    (∀ length k, pmtDelay length us ((first :: polls).map w.port) = .ok (some k) →
      ∃ now, (first :: polls)[k]? = some now ∧ targetTicks us ≤ now - first) ∧
    (0 < targetTicks us → ∀ k now, polls[k]? = some now → targetTicks us ≤ now - first → now - first < 2 ^ 24 →
      (∀ j < k, ∀ before, polls[j]? = some before → before - first < targetTicks us) →
      pmtDelay 4 us ((first :: polls).map w.port) = .ok (some (k + 1))) := by
  have hle : ∀ now ∈ polls, first ≤ now := (List.pairwise_cons.mp hmono).1
  constructor
  · intro length k h
    obtain ⟨now, hnow, hreach⟩ := pmtDelay_eq_some hus hle h
    exact ⟨now, hnow, hreach.trans (Nat.mod_le _ _)⟩
  · intro hpos k now hnow hreach hlt hbefore
    rw [pmtDelay_eq hus hle, Except.ok.injEq, List.findIdx?_eq_some_iff_getElem]
    obtain ⟨hk, hget⟩ := List.getElem?_eq_some_iff.mp hnow
    have hvalue : ∀ j, ∀ _ : j < polls.length, ∀ _ : j + 1 < (elapsed first polls).length,
        (elapsed first polls)[j + 1] = (polls[j] - first) % 2 ^ 24 := by
      intro j _ _
      simp [elapsed]
    refine ⟨by simp [elapsed, hk], ?_, fun j hj => ?_⟩
    · rw [hvalue k hk (by simp [elapsed, hk]), hget, Nat.mod_eq_of_lt hlt]
      exact decide_eq_true hreach
    · cases j with
      | zero => simp [elapsed, hpos.ne']
      | succ j =>
        have hj' : j < polls.length := by omega
        have hsmall := hbefore j (by omega) polls[j] (List.getElem?_eq_getElem hj')
        have hmod := Nat.mod_le (polls[j] - first) (2 ^ 24)
        rw [hvalue j hj' (by simp [elapsed, hj'])]
        simp
        omega

/-! ### A clock of which every tick is seen -/

/-- The first `n` values that are read from the port, the read number `i` at the time `clock i`. -/
def clockReads (w : PmWidth) (clock : Nat → Nat) (n : Nat) : List (BitVec 32) := (List.range n).map fun i => w.port (clock i)

variable {clock : Nat → Nat} {n : Nat}

theorem clockReads_succ : clockReads w clock (n + 1) =
    (clock 0 :: (List.range n).map fun i => clock (i + 1)).map w.port := by
  rw [clockReads, List.range_succ_eq_map, List.map_cons, List.map_cons, List.map_map, List.map_map]
  rfl

theorem first_le (hmono : Monotone clock) : ∀ now ∈ (List.range n).map fun i => clock (i + 1), clock 0 ≤ now := by
  intro now hnow
  obtain ⟨i, -, rfl⟩ := List.mem_map.mp hnow
  exact hmono (Nat.zero_le _)

theorem targetTicks_lt_of_returns (hus : us.toNat * 3579545 < 2 ^ 64) (hmono : Monotone clock)
    (h : pmtDelay 4 us (clockReads w clock n) = .ok (some k)) : targetTicks us < 2 ^ 24 := by
  cases n with
  | zero => cases h
  | succ n =>
    rw [clockReads_succ] at h
    obtain ⟨now, -, hreach⟩ := pmtDelay_eq_some hus (first_le hmono) h
    exact lt_of_le_of_lt hreach (Nat.mod_lt _ (by decide))

/-- The tick that reaches the target is seen, and its 24 bits are those of the target. -/
theorem targetTicks_mem_elapsed (hlt : targetTicks us < 2 ^ 24) {i : Nat} (hi : clock i = clock 0 + targetTicks us) :
    targetTicks us ∈ elapsed (clock 0) ((List.range i).map fun i => clock (i + 1)) := by
  cases i with
  | zero =>
    have hzero : targetTicks us = 0 := by omega
    rw [hzero]
    exact List.mem_cons_self
  | succ i =>
    refine List.mem_cons_of_mem _ (List.mem_map.mpr ⟨clock (i + 1), ?_, ?_⟩)
    · exact List.mem_map.mpr ⟨i, List.mem_range.mpr (Nat.lt_succ_self i), rfl⟩
    · rw [hi, Nat.add_sub_cancel_left, Nat.mod_eq_of_lt hlt]

/-- While the polls see every tick, `pmt_delay(us)` returns exactly when its target fits into the 24 bits that the
    loop keeps. -/
theorem pmtDelay_ends_iff (w : PmWidth) (us : Word) (clock : Nat → Nat) (hus : us.toNat * 3579545 < 2 ^ 64)
    (hmono : Monotone clock) (hall : ∀ tick, clock 0 ≤ tick → ∃ i, clock i = tick) :
    (∃ n k, pmtDelay 4 us (clockReads w clock n) = .ok (some k)) ↔ us.toNat ≤ 4686968 := by
  have htarget : targetTicks us < 2 ^ 24 ↔ us.toNat ≤ 4686968 := by
    unfold targetTicks
    omega
  rw [← htarget]
  constructor
  · rintro ⟨n, k, h⟩
    exact targetTicks_lt_of_returns hus hmono h
  · intro hlt
    obtain ⟨i, hi⟩ := hall (clock 0 + targetTicks us) (Nat.le_add_right _ _)
    have hsome : ((elapsed (clock 0) ((List.range i).map fun i => clock (i + 1))).findIdx? fun e =>
        decide (targetTicks us ≤ e)).isSome = true := by
      rw [List.findIdx?_isSome, List.any_eq_true]
      exact ⟨_, targetTicks_mem_elapsed hlt hi, decide_eq_true le_rfl⟩
    obtain ⟨k, hk⟩ := Option.isSome_iff_exists.mp hsome
    refine ⟨i + 1, k, ?_⟩
    rw [clockReads_succ, pmtDelay_eq hus (first_le hmono), hk]

end

/-- 100 µs from 4 ticks before the 24 bits wrap around. -/
theorem pmtDelay_elapsed_sample : targetTicks 100 = 357 ∧
    (∃ now, [16777212, 16777300, 16777569][2]? = some now ∧ 357 ≤ now - 16777212) ∧
    pmtDelay 4 100 ([16777212, 16777300, 16777569].map PmWidth.bits24.port) = .ok (some 2) := by
  have h := pmtDelay_elapsed .bits24 100 16777212 [16777300, 16777569] (by decide) (by decide)
  refine ⟨by decide, h.1 4 2 (by decide), h.2 (by decide) 1 16777569 rfl (by decide) (by decide) ?_⟩
  intro j hj before hbefore
  obtain rfl : j = 0 := by omega
  cases hbefore
  decide

theorem pmtDelay_ends_iff_sample : ∃ n k, pmtDelay 4 1000 (clockReads .bits24 id n) = .ok (some k) :=
  (pmtDelay_ends_iff .bits24 1000 id (by decide) monotone_id fun tick _ => ⟨tick, rfl⟩).mpr (by decide)

/-- 5 seconds are more ticks than 24 bits can hold. -/
theorem pmtDelay_never_ends : ¬∃ n k, pmtDelay 4 5000000 (clockReads .bits32 id n) = .ok (some k) := by
  rintro ⟨n, k, h⟩
  exact absurd (targetTicks_lt_of_returns (by decide) monotone_id h) (by decide)

end Neobird64
