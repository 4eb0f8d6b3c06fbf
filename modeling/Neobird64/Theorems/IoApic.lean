import Neobird64.IoApic
import Mathlib.Data.BitVec
import Mathlib.Tactic.IntervalCases

/-! The redirection entries that `init_apic` and `ps2_int_init` leave. The masking loop stops at the highest index,
    so it leaves out the last entry; `ps2_int_init` unmasks the keyboard's entry before it sets the vector. -/

namespace Neobird64

section
variable {io : IoApic} {reg : BitVec 8} {val : Word} {r : BitVec 8} {l l' : List IoApicStore} {e n k : Nat}

/-! ### One entry -/

theorem IoApic.file_run : (io.run l).file = io.file.run ioapicReadOnly l := rfl

theorem IoApic.run_append : io.run (l ++ l') = (io.run l).run l' := IoApic.ext RegisterFile.run_append

@[simp] theorem IoApic.version_run : (io.run l).version = io.version :=
  RegisterFile.regs_run_of_readOnly rfl

theorem ioapicRedtblReg_toNat : (ioapicRedtblReg reg).toNat = (16 + 2 * reg.toNat) % 256 := by
  have h16 : (0x10 : BitVec 8).toNat = 16 := rfl
  have h2 : (2 : BitVec 8).toNat = 2 := rfl
  rw [ioapicRedtblReg, BitVec.toNat_add, BitVec.toNat_mul, h16, h2]
  omega

theorem ioapicReadOnly_eq_false_iff : ioapicReadOnly r = false ↔ r.toNat ≠ 1 := by
  rw [ioapicReadOnly, decide_eq_false_iff_not, ← BitVec.toNat_inj]
  rfl

theorem regs_configureEntry (hr : r.toNat ≠ 1) : (io.run (ioapicConfigureEntry reg val)).file.regs r =
    if r = ioapicRedtblReg reg + 1 then (val >>> 32).setWidth 32
    else if r = ioapicRedtblReg reg then val.setWidth 32 else io.file.regs r := by
  have hlow : ioapicReadOnly (ioapicRedtblReg reg) = false :=
    ioapicReadOnly_eq_false_iff.mpr (by rw [ioapicRedtblReg_toNat]; omega)
  rw [ioapicConfigureEntry, IoApic.run_append, IoApic.file_run, IoApic.file_run, ioapicWrite, ioapicWrite]
  cases hhigh : ioapicReadOnly (ioapicRedtblReg reg + 1) with
  | true =>
    have hne : r ≠ ioapicRedtblReg reg + 1 := fun heq => by
      rw [← heq, ioapicReadOnly, decide_eq_true_eq] at hhigh
      exact hr (congrArg BitVec.toNat hhigh)
    rw [RegisterFile.regs_run_write_of_readOnly hhigh, RegisterFile.regs_run_write hlow, if_neg hne, Function.update_apply]
  | false =>
    rw [RegisterFile.regs_run_write hhigh, RegisterFile.regs_run_write hlow, Function.update_apply, Function.update_apply]

theorem ofNat_eq_redtblReg_iff (he : e ≤ 119) : BitVec.ofNat 8 (0x10 + 2 * e) = ioapicRedtblReg reg ↔ reg.toNat % 128 = e := by
  rw [← BitVec.toNat_inj, ioapicRedtblReg_toNat, BitVec.toNat_ofNat]
  omega

theorem entryLow_configureEntry (he : e ≤ 119) : (io.run (ioapicConfigureEntry reg val)).entryLow e =
    if reg.toNat % 128 = e then val.setWidth 32 else io.entryLow e := by
  have hodd : BitVec.ofNat 8 (0x10 + 2 * e) ≠ ioapicRedtblReg reg + 1 := fun heq => by
    have h1 : (1 : BitVec 8).toNat = 1 := rfl
    have hnat := congrArg BitVec.toNat heq
    rw [BitVec.toNat_add, ioapicRedtblReg_toNat, BitVec.toNat_ofNat, h1] at hnat
    omega
  have hr : (BitVec.ofNat 8 (0x10 + 2 * e)).toNat ≠ 1 := by
    rw [BitVec.toNat_ofNat]
    omega
  rw [IoApic.entryLow, regs_configureEntry hr, if_neg hodd, IoApic.entryLow]
  exact if_congr (ofNat_eq_redtblReg_iff he) rfl rfl

theorem entryHigh_configureEntry (he : e ≤ 119) : (io.run (ioapicConfigureEntry reg val)).entryHigh e =
    if reg.toNat % 128 = e then (val >>> 32).setWidth 32 else io.entryHigh e := by
  have h1 : (1 : BitVec 8).toNat = 1 := rfl
  have hodd : BitVec.ofNat 8 (0x11 + 2 * e) = ioapicRedtblReg reg + 1 ↔ reg.toNat % 128 = e := by
    rw [← BitVec.toNat_inj, BitVec.toNat_add, ioapicRedtblReg_toNat, BitVec.toNat_ofNat, h1]
    omega
  have heven : BitVec.ofNat 8 (0x11 + 2 * e) ≠ ioapicRedtblReg reg := fun heq => by
    have hnat := congrArg BitVec.toNat heq
    rw [ioapicRedtblReg_toNat, BitVec.toNat_ofNat] at hnat
    omega
  have hr : (BitVec.ofNat 8 (0x11 + 2 * e)).toNat ≠ 1 := by
    rw [BitVec.toNat_ofNat]
    omega
  rw [IoApic.entryHigh, regs_configureEntry hr, if_neg heven, IoApic.entryHigh]
  exact if_congr hodd rfl rfl

/-! ### The masking loop -/

/-- The entries below `k` are masked, with vector 0, and the others are as they were. -/
structure MaskedBelow (io₀ : IoApic) (k : Nat) (io : IoApic) : Prop where
  version : io.version = io₀.version
  low : ∀ e ≤ 119, io.entryLow e = if e < k then 0x10000 else io₀.entryLow e
  high : ∀ e ≤ 119, io.entryHigh e = if e < k then 0 else io₀.entryHigh e

theorem MaskedBelow.start (io : IoApic) : MaskedBelow io 0 io :=
  ⟨rfl, fun _ _ => (if_neg (Nat.not_lt_zero _)).symm, fun _ _ => (if_neg (Nat.not_lt_zero _)).symm⟩

theorem MaskedBelow.read {io₀ : IoApic} (h : MaskedBelow io₀ k io) : MaskedBelow io₀ k (ioapicRead io r).2 :=
  ⟨h.version, h.low, h.high⟩

theorem ite_lt_succ {α : Type} {v x : α} : (if k = e then v else if e < k then v else x) = if e < k + 1 then v else x := by
  rcases Nat.lt_trichotomy e k with hlt | rfl | hgt
  · rw [if_neg (by omega), if_pos hlt, if_pos (by omega)]
  · rw [if_pos rfl, if_pos (by omega)]
  · rw [if_neg (by omega), if_neg (by omega), if_neg (by omega)]

theorem MaskedBelow.configureEntry {io₀ : IoApic} (h : MaskedBelow io₀ k io) (hreg : reg.toNat = k) (hk : k ≤ 119) :
    MaskedBelow io₀ (k + 1) (io.run (ioapicConfigureEntry reg (1 <<< 16))) where
  version := IoApic.version_run.trans h.version
  low e he := by
    have hval : (1 <<< 16 : Word).setWidth 32 = (0x10000 : BitVec 32) := by decide
    rw [entryLow_configureEntry he, h.low e he, hval, hreg, Nat.mod_eq_of_lt (by omega)]
    exact ite_lt_succ
  high e he := by
    have hval : ((1 <<< 16 : Word) >>> 32).setWidth 32 = (0 : BitVec 32) := by decide
    rw [entryHigh_configureEntry he, h.high e he, hval, hreg, Nat.mod_eq_of_lt (by omega)]
    exact ite_lt_succ

/-- The bound that the loop computes. -/
theorem bound_eq (version : BitVec 32) : version.sshiftRight 16 &&& 0xff = BitVec.ofNat 32 (highestEntry version) := by
  have hwide : BitVec.ofNat 32 (highestEntry version) = (version.extractLsb' 16 8).setWidth 32 := by
    apply BitVec.eq_of_toNat_eq
    rw [highestEntry, BitVec.toNat_ofNat, BitVec.toNat_setWidth]
  have hmask : (0xff : BitVec 32) = (BitVec.allOnes 8).setWidth 32 := by decide
  rw [hwide, hmask]
  apply BitVec.eq_of_getLsbD_eq
  intro i hi
  simp only [BitVec.getLsbD_and, BitVec.getLsbD_sshiftRight, BitVec.getLsbD_setWidth, BitVec.getLsbD_allOnes,
    BitVec.getLsbD_extractLsb']
  grind

/-- The loop ends, and has masked the entries below the highest one. -/
theorem maskPins_ok (io : IoApic) : ∃ io', maskPins io = .ok io' ∧ MaskedBelow io io.highest io' := by
  have hfits : io.highest ≤ 119 := io.fits
  have hnat : ∀ j ≤ io.highest, (BitVec.ofNat 32 j).toNat = j := fun j hj => by
    rw [BitVec.toNat_ofNat]
    omega
  refine Loop.testLoop_inv (f := fun j => BitVec.ofNat 32 j) (n := io.highest) (m := io.highest) (k := 0) (MaskedBelow io)
    (fun j hj => (BitVec.ofNat_add j 1).symm) (fun j hj io' h => ⟨?_, h.read⟩) (fun j hj io' h => ?_) (Nat.zero_add _)
    (by rw [pinFuel]; omega) (MaskedBelow.start io)
  · have hread : (ioapicRead io' IOAPICVER_REG).1 = io.version := h.version
    simp only [hread, bound_eq, decide_eq_true_eq]
    rw [ne_eq, ← BitVec.toNat_inj, hnat j hj, ← IoApic.highest, hnat _ (Nat.le_refl _)]
    omega
  · refine h.configureEntry ?_ (by omega)
    rw [BitVec.toNat_setWidth, hnat j (by omega)]
    omega

/-- All entries are masked after the loop exactly when the last one was before. -/
theorem maskPins_masked_iff (io : IoApic) : ∃ io', maskPins io = .ok io' ∧ io'.highest = io.highest ∧
    ((∀ n ≤ io'.highest, io'.masked n = true) ↔ io.masked io.highest = true) := by
  obtain ⟨io', hio', h⟩ := maskPins_ok io
  have hfits : io.highest ≤ 119 := io.fits
  have hhighest : io'.highest = io.highest := by rw [IoApic.highest, h.version, IoApic.highest]
  have hlast : io'.masked io.highest = io.masked io.highest := by
    rw [IoApic.masked, h.low _ hfits, if_neg (Nat.lt_irrefl _), IoApic.masked]
  refine ⟨io', hio', hhighest, ?_⟩
  rw [hhighest]
  constructor
  · intro hall
    rw [← hlast]
    exact hall _ (Nat.le_refl _)
  · intro hmasked n hn
    rcases Nat.lt_or_eq_of_le hn with hlt | rfl
    · rw [IoApic.masked, h.low n (by omega), if_pos hlt]
      decide
    · rw [hlast, hmasked]

/-! ### The keyboard's entry, store by store -/

/-- An interrupt that the entry lets through has the keyboard's vector. -/
def KeyboardOk (io : IoApic) (n : Nat) : Prop := io.masked n = false → io.vector n = 33

theorem ps2IntInitStores_eq {gsi : BitVec 32} {low high : BitVec 8} (hlow : low = ioapicRedtblReg (gsi.setWidth 8))
    (hhigh : high = low + 1) : ps2IntInitStores gsi =
      [.index low, .data 0, .index high, .data 0, .index low, .data 33, .index high, .data 0] := by
  subst hhigh hlow
  rfl

/-- The low half of the entry is cleared by the second store and set by the sixth. -/
theorem entryLow_ps2IntInitStores {gsi : BitVec 32} (hn : (gsi.setWidth 8).toNat ≤ 119) (k : Nat) :
    (io.run ((ps2IntInitStores gsi).take k)).entryLow (gsi.setWidth 8).toNat =
      if k < 2 then io.entryLow (gsi.setWidth 8).toNat else if k < 6 then 0 else 33 := by
  obtain ⟨low, hlow⟩ : ∃ low, low = ioapicRedtblReg (gsi.setWidth 8) := ⟨_, rfl⟩
  have hnat : low.toNat = 16 + 2 * (gsi.setWidth 8).toNat := by
    rw [hlow, ioapicRedtblReg_toNat]
    omega
  have hreg : BitVec.ofNat 8 (0x10 + 2 * (gsi.setWidth 8).toNat) = low := by
    rw [hlow]
    exact (ofNat_eq_redtblReg_iff hn).mpr (Nat.mod_eq_of_lt (by omega))
  have h1 : (1 : BitVec 8).toNat = 1 := rfl
  have hro : ioapicReadOnly low = false := ioapicReadOnly_eq_false_iff.mpr (by omega)
  obtain ⟨high, hhigh⟩ : ∃ high, high = low + 1 := ⟨_, rfl⟩
  have hsucc : high.toNat = low.toNat + 1 := by
    rw [hhigh, BitVec.toNat_add, h1]
    omega
  have hro' : ioapicReadOnly high = false := ioapicReadOnly_eq_false_iff.mpr (by omega)
  have hne : low ≠ high := fun heq => by
    rw [heq] at hsucc
    omega
  rw [IoApic.entryLow, IoApic.entryLow, IoApic.file_run, hreg, ps2IntInitStores_eq hlow hhigh]
  rcases Nat.lt_or_ge k 8 with hk | hk
  · interval_cases k <;> simp [RegisterFile.run_data, hro, hro', hne]
  · rw [List.take_of_length_le (by simpa using hk), if_neg (by omega), if_neg (by omega)]
    simp [RegisterFile.run_data, hro, hro', hne]

/-- From the second store of `ps2_int_init` up to the sixth, the keyboard's entry is unmasked and has vector 0. -/
theorem keyboardOk_iff (gsi : BitVec 32) (hn : (gsi.setWidth 8).toNat ≤ io.highest)
    (hmasked : io.masked (gsi.setWidth 8).toNat = true) :
    (∀ k, KeyboardOk (io.run ((ps2IntInitStores gsi).take k)) (gsi.setWidth 8).toNat ↔ k < 2 ∨ 6 ≤ k) ∧
      ¬∀ k, KeyboardOk (io.run ((ps2IntInitStores gsi).take k)) (gsi.setWidth 8).toNat := by
  have hfits : io.highest ≤ 119 := io.fits
  have hpoint : ∀ k, KeyboardOk (io.run ((ps2IntInitStores gsi).take k)) (gsi.setWidth 8).toNat ↔ k < 2 ∨ 6 ≤ k := by
    intro k
    rw [KeyboardOk, IoApic.masked, IoApic.vector, entryLow_ps2IntInitStores (by omega)]
    by_cases h2 : k < 2
    · rw [IoApic.masked] at hmasked
      rw [if_pos h2, hmasked]
      exact iff_of_true nofun (Or.inl h2)
    by_cases h6 : k < 6
    · rw [if_neg h2, if_pos h6]
      exact iff_of_false (by decide) (by omega)
    · rw [if_neg h2, if_neg h6]
      exact iff_of_true (by decide) (by omega)
  exact ⟨hpoint, fun h => absurd ((hpoint 2).mp (h 2)) (by omega)⟩

end

/-! ### An I/O APIC with 24 entries -/

def clearIoApic : IoApic where
  file := { index := 0, regs := fun r => if r = 1 then 0x170011 else 0 }
  fits := by decide

/-- The last entry stays unmasked. -/
theorem last_pin_unmasked : clearIoApic.highest = 23 ∧ ∃ io', maskPins clearIoApic = .ok io' ∧ io'.masked 23 = false := by
  obtain ⟨io', hio', h⟩ := maskPins_ok clearIoApic
  have hhighest : clearIoApic.highest = 23 := by decide
  refine ⟨hhighest, io', hio', ?_⟩
  rw [IoApic.masked, h.low 23 (by omega), hhighest, if_neg (by omega)]
  decide

/-- The same with the keyboard's entry masked. -/
def maskedIoApic : IoApic := clearIoApic.run (ioapicConfigureEntry 1 (1 <<< 16))

theorem keyboardOk_iff_sample : ¬∀ k, KeyboardOk (maskedIoApic.run ((ps2IntInitStores 1).take k)) 1 :=
  (keyboardOk_iff 1 (by decide) (by decide)).2

/-- After two stores, the interrupts of the keyboard have vector 0. -/
theorem keyboard_vector_zero : maskedIoApic.masked 1 = true ∧
    (maskedIoApic.run ((ps2IntInitStores 1).take 2)).vector 1 = 0 ∧
    ¬KeyboardOk (maskedIoApic.run ((ps2IntInitStores 1).take 2)) 1 :=
  ⟨by decide, by decide, fun h => absurd (h (by decide)) (by decide)⟩

end Neobird64
