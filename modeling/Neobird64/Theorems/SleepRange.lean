import Neobird64.Theorems.Sleep

/-! `apic_sleep` for every value of `apic_timer_ticks` at its call. The value is kept in an `int`, so the loop
    measures from elsewhere once it does not fit. -/

namespace Neobird64

/-- The call of `apic_sleep(ms)` at `ticks` that reads the given values returns only after the counter has advanced
    by `ms`. -/
def SleepsLong (ticks : Word) (ms : BitVec 32) (observed : List Word) : Prop :=
  ∀ t, apicSleep ticks ms observed = some t → ticks.toNat + ms.toNat ≤ t.toNat

section
variable {ticks t : Word} {ms : BitVec 32} {observed : List Word}

/-! ### One test -/

theorem FitsInt.sleepTest_iff (h : FitsInt ticks) (hms : ms.toNat < 2 ^ 31) (hle : ticks ≤ t) :
    sleepTest t (Neobird64.sleepStart ticks) ms = true ↔ t.toNat < ticks.toNat + ms.toNat := by
  rw [h.sleepTest_eq hms, decide_eq_true_eq, BitVec.toNat_sub_of_le hle]
  rw [BitVec.le_def] at hle
  omega

/-- Otherwise the difference is off by a multiple of 2^32, more than any `ms`. -/
theorem sleepTest_of_not_fitsInt (h : ¬FitsInt ticks) (hms : ms.toNat < 2 ^ 31) (hle : ticks ≤ t)
    (ht : t.toNat < ticks.toNat + ms.toNat) : sleepTest t (sleepStart ticks) ms = false := by
  have hlt := ticks.isLt
  have hlt' := t.isLt
  rw [BitVec.le_def] at hle
  rw [sleepTest_toNat hms, decide_eq_false_iff_not, BitVec.toNat_sub, toNat_sleepStart]
  unfold FitsInt at h
  split <;> omega

/-! ### The loop -/

theorem FitsInt.sleepsLong (h : FitsInt ticks) (hms : ms.toNat < 2 ^ 31) (hmono : (ticks :: observed).Pairwise (· ≤ ·)) :
    SleepsLong ticks ms observed := by
  intro t ht
  have hle : ticks ≤ t := (List.pairwise_cons.mp hmono).1 t (List.mem_of_find?_eq_some ht)
  have hstop : ¬sleepTest t (Neobird64.sleepStart ticks) ms = true := by
    simpa using List.find?_some ht
  rw [h.sleepTest_iff hms hle] at hstop
  omega

theorem sleepsLong_of_head (hmono : (ticks :: observed).Pairwise (· ≤ ·))
    (h : ∀ t ∈ observed.head?, ticks.toNat + ms.toNat ≤ t.toNat) : SleepsLong ticks ms observed := by
  intro t ht
  have hmem := List.mem_of_find?_eq_some ht
  cases observed with
  | nil => cases hmem
  | cons t₀ rest =>
    have h₀ := h t₀ rfl
    rcases List.mem_cons.mp hmem with rfl | hmem
    · exact h₀
    · have hle : t₀ ≤ t := (List.pairwise_cons.mp (List.pairwise_cons.mp hmono).2).1 t hmem
      rw [BitVec.le_def] at hle
      omega

/-- A start that does not fit makes the first test the last one. -/
theorem apicSleep_of_not_fitsInt (h : ¬FitsInt ticks) (hms : ms.toNat < 2 ^ 31) (hle : ticks ≤ t)
    (ht : t.toNat < ticks.toNat + ms.toNat) : apicSleep ticks ms (t :: observed) = some t := by
  unfold apicSleep
  rw [List.find?_cons_of_pos]
  rw [sleepTest_of_not_fitsInt h hms hle ht]
  rfl

theorem not_sleepsLong (h : ¬FitsInt ticks) (hms : ms.toNat < 2 ^ 31) (hpos : 0 < ms.toNat) : ¬SleepsLong ticks ms [ticks] := by
  intro hlong
  have := hlong ticks (apicSleep_of_not_fitsInt h hms (BitVec.le_refl ticks) (by omega))
  omega

/-- A call that reads non-decreasing values returns too early exactly when `ms` is positive, the value at its call
    does not fit into an `int`, and less than `ms` ticks have passed at the first test. -/
theorem sleepsLong_iff (hms : 0 ≤ ms.toInt) :
    (∀ observed, (ticks :: observed).Pairwise (· ≤ ·) → (SleepsLong ticks ms observed ↔
      ms = 0 ∨ FitsInt ticks ∨ ∀ t ∈ observed.head?, ticks.toNat + ms.toNat ≤ t.toNat)) ∧
    ((∀ observed, (ticks :: observed).Pairwise (· ≤ ·) → SleepsLong ticks ms observed) ↔ ms = 0 ∨ FitsInt ticks) := by
  have hnat : ms.toNat < 2 ^ 31 := by
    rw [BitVec.toInt_eq_toNat_cond] at hms
    split at hms <;> omega
  have hzero : ms = 0 → ∀ observed, (ticks :: observed).Pairwise (· ≤ ·) → SleepsLong ticks ms observed := by
    rintro rfl observed hmono t ht
    exact (List.pairwise_cons.mp hmono).1 t (List.mem_of_find?_eq_some ht)
  constructor
  · intro observed hmono
    constructor
    · intro hlong
      by_contra hne
      simp only [not_or, not_forall] at hne
      obtain ⟨-, hfits, t, hhead, ht⟩ := hne
      obtain ⟨rest, rfl⟩ := List.head?_eq_some_iff.mp hhead
      have hle : ticks ≤ t := (List.pairwise_cons.mp hmono).1 t List.mem_cons_self
      exact ht (hlong t (apicSleep_of_not_fitsInt hfits hnat hle (by omega)))
    · rintro (hms0 | hfits | hhead)
      · exact hzero hms0 observed hmono
      · exact hfits.sleepsLong hnat hmono
      · exact sleepsLong_of_head hmono hhead
  · constructor
    · intro hlong
      by_contra hne
      rw [not_or] at hne
      have hpos : ms.toNat ≠ 0 := fun h0 => hne.1 (BitVec.eq_of_toNat_eq h0)
      exact not_sleepsLong hne.2 hnat (by omega) (hlong [ticks] (by simp))
    · rintro (hms0 | hfits) observed hmono
      · exact hzero hms0 observed hmono
      · exact hfits.sleepsLong hnat hmono

end

/-- A call for 2 ms at 40 ticks. -/
theorem sleepsLong_iff_sample : SleepsLong 40 2 [40, 41, 41, 42] ∧ apicSleep 40 2 [40, 41, 41, 42] = some 42 :=
  ⟨((sleepsLong_iff (by decide : 0 ≤ (2 : BitVec 32).toInt)).1 [40, 41, 41, 42] (by decide)).mpr (Or.inr (Or.inl (by decide))),
    by decide⟩

/-- After 2^31 ticks every call returns at once. -/
theorem sleep_returns_at_once : apicSleep 0x80000000 1000 [0x80000000] = some 0x80000000 ∧
    ¬SleepsLong 0x80000000 1000 [0x80000000] :=
  ⟨by decide, not_sleepsLong (by decide) (by decide) (by decide)⟩

end Neobird64
