import Neobird64.Theorems.Bitmap

/-! The loops of the kernel as folds: the page-stepped `for` loops, and `memset`. -/

namespace Neobird64
open State

/-- The values that the index of a page-stepped loop takes. -/
def pageSteps (start stop : Word) : List Word :=
  (List.range ((stop.toNat - start.toNat + 4095) / 4096)).map fun k => start + BitVec.ofNat 64 (4096 * k)

theorem mem_pageSteps {start stop x : Word} :
    x ∈ pageSteps start stop ↔ ∃ k, x.toNat = start.toNat + 4096 * k ∧ start.toNat + 4096 * k < stop.toNat := by
  have hstop := stop.isLt
  have hadd : ∀ k, start.toNat + 4096 * k < stop.toNat →
      (start + BitVec.ofNat 64 (4096 * k)).toNat = start.toNat + 4096 * k := fun k hk => by
    rw [BitVec.toNat_add, BitVec.toNat_ofNat]
    omega
  simp only [pageSteps, List.mem_map, List.mem_range]
  constructor
  · rintro ⟨k, hk, rfl⟩
    exact ⟨k, hadd k (by omega), by omega⟩
  · rintro ⟨k, hx, hk⟩
    exact ⟨k, by omega, BitVec.eq_of_toNat_eq (by rw [hadd k hk, hx])⟩

/-- A loop whose bound leaves room for the last step ends, and runs over `pageSteps`. -/
theorem forPages_eq {start stop : Word} {body : State → Word → Except Halt State} {s : State}
    (h : stop.toNat + 4095 < 2 ^ 64) : forPages start stop body s = (pageSteps start stop).foldlM body s := by
  have hidx : ∀ k ≤ (stop.toNat - start.toNat + 4095) / 4096,
      (start + BitVec.ofNat 64 (4096 * k)).toNat = (start.toNat + 4096 * k) % 2 ^ 64 := fun k _ => by
    rw [BitVec.toNat_add, BitVec.toNat_ofNat, Nat.add_mod_mod]
  have hstart := start.isLt
  have hzero : start = start + BitVec.ofNat 64 (4096 * 0) := by simp
  rw [forPages, pageSteps]
  conv_lhs => rw [hzero]
  refine Loop.forLoop_eq_foldlM (f := fun k => start + BitVec.ofNat 64 (4096 * k)) (fun k hk => ?_) (fun k hk => ?_)
    ?_ ?_
  · apply BitVec.eq_of_toNat_eq
    have hstep : (4096 : Word).toNat = 4096 := rfl
    rw [BitVec.toNat_add, hidx k (by omega), hidx (k + 1) (by omega), hstep]
    omega
  · rw [decide_eq_true_eq, BitVec.lt_def, hidx k (by omega), Nat.mod_eq_of_lt (by omega)]
    omega
  · rw [decide_eq_false_iff_not, BitVec.lt_def, hidx _ le_rfl]
    by_cases hlt : start.toNat < stop.toNat
    · rw [Nat.mod_eq_of_lt (by omega)]
      omega
    · have hn : (stop.toNat - start.toNat + 4095) / 4096 = 0 := by omega
      rw [hn, Nat.mod_eq_of_lt (by omega)]
      omega
  · rw [pageFuel]
    omega

/-! ### `memset` -/

section
variable {w : Window} {s : State} {p : Word} {c : BitVec 8} {n a : Nat}

theorem mem_memset : (memset w s p c n).mem a =
    if ∃ i < n, a = s.phys w (p + BitVec.ofNat 64 i) then c else s.mem a := by
  induction n with
  | zero => simp [memset]
  | succ n ih =>
    have hstep : memset w s p c (n + 1) = (memset w s p c n).storeByte w (p + BitVec.ofNat 64 n) c := by
      rw [memset, List.range_succ, List.foldl_append]
      rfl
    have hphys : (memset w s p c n).phys w (p + BitVec.ofNat 64 n) = s.phys w (p + BitVec.ofNat 64 n) := by
      rw [OnlyMem.memset]
      cases w <;> rfl
    rw [hstep, storeByte]
    simp only [hphys, Memory.set, ih]
    by_cases ha : a = s.phys w (p + BitVec.ofNat 64 n)
    · rw [if_pos ha, if_pos ⟨n, by omega, ha⟩]
    · rw [if_neg ha]
      have hiff : (∃ i < n + 1, a = s.phys w (p + BitVec.ofNat 64 i)) ↔
          ∃ i < n, a = s.phys w (p + BitVec.ofNat 64 i) := by
        constructor
        · rintro ⟨i, hi, hai⟩
          refine ⟨i, ?_, hai⟩
          by_contra hn
          obtain rfl : i = n := by omega
          exact ha hai
        · rintro ⟨i, hi, hai⟩
          exact ⟨i, by omega, hai⟩
      rw [if_congr hiff rfl rfl]

/-- Filling through the direct map fills a range of physical memory. -/
theorem mem_memset_hhdm {f : Nat} (hf : f + n ≤ 2 ^ 64) :
    (memset .hhdm s (BitVec.ofNat 64 f + s.hhdmoffset) c n).mem a =
      if f ≤ a ∧ a < f + n then c else s.mem a := by
  rw [mem_memset]
  refine if_congr ?_ rfl rfl
  have hphys : ∀ i < n, s.phys .hhdm (BitVec.ofNat 64 f + s.hhdmoffset + BitVec.ofNat 64 i) = f + i := fun i hi => by
    have hoff := s.hhdmoffset.isLt
    simp only [phys, BitVec.toNat_sub, BitVec.toNat_add, BitVec.toNat_ofNat]
    omega
  constructor
  · rintro ⟨i, hi, ha⟩
    rw [hphys i hi] at ha
    omega
  · intro ha
    exact ⟨a - f, by omega, by rw [hphys _ (by omega)]; omega⟩

end

end Neobird64
