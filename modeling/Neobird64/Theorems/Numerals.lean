import Neobird64.Video

/-! The numbers that are printed: the loop collects the digits, and the numeral is the canonical one, in both
    bases and for all 64-bit values. -/

namespace Neobird64
open Numeral

/-- The loop for `num` ends without the early `return` and stays inside the array, and the canonical numeral of
    `num` is written. -/
structure PrintsNumeral (base limit : Nat) (A : Alphabet Char) (num : Word) : Prop where
  collected : ∃ s, collectDigits base limit num = .ok s
  printed : ∃ text, printDigits base limit A num = .ok text ∧ Canonical A num.toNat text

/-- The digits in the array: those of `n` so far, the least significant one first. -/
structure Collected (n base : Nat) (s : DigitLoop) (l : List Nat) : Prop where
  length : s.j = l.length
  count : s.digitscount = l.length
  short : l.length ≤ 32
  entries : ∀ i d, l[i]? = some d → s.arr i = some d
  small : ∀ d ∈ l, d < base
  value : n = Nat.ofDigits base l + base ^ l.length * s.num.toNat
  top : s.num = 0 → ∀ d ∈ l.getLast?, d ≠ 0

section
variable {base limit n : Nat} {A : Alphabet Char} {s : DigitLoop} {l : List Nat} {num : Word}

/-! ### One round -/

theorem storeDigit_of_lt {arr : DigitArray} {i : Nat} (h : i < 128) (d : Nat) :
    storeDigit arr i d = .ok (Function.update arr i (some d)) := if_pos h

/-- A 64-bit number has no more than 32 digits in a base from 4 on. -/
theorem Collected.length_lt (h : Collected n base s l) (hbase : 4 ≤ base) (hn : n < 2 ^ 64) (hnum : s.num ≠ 0) :
    l.length < 32 := by
  by_contra hge
  have hpos : 1 ≤ s.num.toNat := by
    rcases Nat.eq_zero_or_pos s.num.toNat with hzero | hpos
    · exact absurd (BitVec.eq_of_toNat_eq hzero) hnum
    · exact hpos
  have hpow : 2 ^ 64 ≤ base ^ l.length :=
    calc 2 ^ 64 = 4 ^ 32 := by norm_num
      _ ≤ base ^ 32 := Nat.pow_le_pow_left hbase 32
      _ ≤ base ^ l.length := Nat.pow_le_pow_right (by omega) (by omega)
  have hle : base ^ l.length * 1 ≤ base ^ l.length * s.num.toNat := Nat.mul_le_mul_left _ hpos
  have hvalue := h.value
  omega

theorem digitBody_ok (hj : s.j < 32) (hlimit : 64 ≤ limit) : ∃ arr, digitBody base limit s = .ok
      { num := s.num / BitVec.ofNat 64 base, arr, j := s.j + 1, digitscount := s.j + 1 } ∧
    ∀ i ≤ s.j, arr i = Function.update s.arr s.j (some (s.num % BitVec.ofNat 64 base).toNat) i := by
  have hne : s.j + 1 ≠ limit := by omega
  unfold digitBody
  generalize (s.num % BitVec.ofNat 64 base).toNat = mod
  simp only [storeDigit_of_lt (by omega : s.j < 128), Loop.ok_bind, if_neg hne]
  by_cases hlast : s.num / BitVec.ofNat 64 base = 0
  · -- One more entry is written behind the last digit.
    refine ⟨Function.update (Function.update s.arr s.j (some mod)) (s.j + 1) (some mod), ?_, fun i hi =>
      Function.update_of_ne (by omega) _ _⟩
    simp only [if_pos hlast, storeDigit_of_lt (by omega : s.j + 1 < 128)]
    rfl
  · refine ⟨_, ?_, fun i _ => rfl⟩
    simp only [if_neg hlast]
    rfl

theorem Collected.entries_step {arr : DigitArray} (h : Collected n base s l) {digit : Nat}
    (harr : ∀ i ≤ s.j, arr i = Function.update s.arr s.j (some digit) i) :
    ∀ i d, (l ++ [digit])[i]? = some d → arr i = some d := by
  intro i d hi
  have hle : i < l.length + 1 := by
    have := (List.getElem?_eq_some_iff.mp hi).1
    simpa using this
  rw [harr i (by rw [h.length]; exact Nat.le_of_lt_succ hle), h.length]
  rcases Nat.lt_succ_iff_lt_or_eq.mp hle with hlt | rfl
  · rw [Function.update_of_ne hlt.ne]
    rw [List.getElem?_append_left hlt] at hi
    exact h.entries i d hi
  · rw [Function.update_self]
    rw [List.getElem?_concat_length] at hi
    exact hi

theorem Collected.value_step (h : Collected n base s l) : n =
    Nat.ofDigits base (l ++ [s.num.toNat % base]) + base ^ (l ++ [s.num.toNat % base]).length * (s.num.toNat / base) := by
  have hsplit := Nat.mod_add_div s.num.toNat base
  rw [Nat.ofDigits_append, Nat.ofDigits_singleton, List.length_append, List.length_singleton, Nat.pow_succ, Nat.mul_assoc,
    Nat.add_assoc, ← Nat.mul_add, hsplit]
  exact h.value

theorem Collected.step (h : Collected n base s l) (hbase : 4 ≤ base) (hword : base < 2 ^ 64) (hlimit : 64 ≤ limit)
    (hn : n < 2 ^ 64) (hnum : s.num ≠ 0) : ∃ s', digitBody base limit s = .ok s' ∧
      Collected n base s' (l ++ [s.num.toNat % base]) ∧ s'.num.toNat = s.num.toNat / base := by
  have hlt := h.length_lt hbase hn hnum
  have hbaseNat : (BitVec.ofNat 64 base).toNat = base := by
    rw [BitVec.toNat_ofNat, Nat.mod_eq_of_lt hword]
  have hmod : (s.num % BitVec.ofNat 64 base).toNat = s.num.toNat % base := by rw [BitVec.toNat_umod, hbaseNat]
  have hdiv : (s.num / BitVec.ofNat 64 base).toNat = s.num.toNat / base := by rw [BitVec.toNat_udiv, hbaseNat]
  have hj : s.j < 32 := by
    rw [h.length]
    exact hlt
  obtain ⟨arr, hbody, harr⟩ : ∃ arr, digitBody base limit s = _ ∧ _ := digitBody_ok hj hlimit
  rw [hmod] at harr
  have hlength : s.j + 1 = (l ++ [s.num.toNat % base]).length := by rw [List.length_append, h.length, List.length_singleton]
  refine ⟨_, hbody, ⟨hlength, hlength, ?short, h.entries_step harr, ?small, ?value, ?top⟩, hdiv⟩
  case short =>
    rw [List.length_append, List.length_singleton]
    exact hlt
  case small =>
    intro d hd
    rcases List.mem_append.mp hd with hd | hd
    · exact h.small d hd
    · rw [List.mem_singleton.mp hd]
      exact Nat.mod_lt _ (by omega)
  case value =>
    rw [hdiv]
    exact h.value_step
  case top =>
    intro hzero d hd
    rw [List.getLast?_concat] at hd
    cases hd
    have hquot : s.num.toNat / base = 0 := by
      rw [← hdiv, show s.num / BitVec.ofNat 64 base = 0 from hzero]
      rfl
    have hpos : s.num.toNat ≠ 0 := fun h0 => hnum (BitVec.eq_of_toNat_eq h0)
    have := Nat.mod_add_div s.num.toNat base
    rw [hquot] at this
    omega

/-! ### The loops -/

theorem collectDigits_ok (hbase : 4 ≤ base) (hword : base < 2 ^ 64) (hlimit : 64 ≤ limit) (num : Word) :
    ∃ s l, collectDigits base limit num = .ok s ∧ Collected num.toNat base s l ∧ s.num = 0 := by
  have hstart : Collected num.toNat base { num } [] :=
    ⟨rfl, rfl, by simp, by simp, by simp, by simp, by simp⟩
  have hround : ∀ s : DigitLoop, (∃ l, Collected num.toNat base s l) → decide (s.num ≠ 0) = true →
      ∃ s', digitBody base limit s = .ok s' ∧ (∃ l, Collected num.toNat base s' l) ∧ s'.num.toNat < s.num.toNat := by
    rintro s ⟨l, hl⟩ hcond
    have hnum : s.num ≠ 0 := by simpa using hcond
    obtain ⟨s', hbody, hl', hdiv⟩ := hl.step hbase hword hlimit num.isLt hnum
    refine ⟨s', hbody, ⟨_, hl'⟩, ?_⟩
    have hpos : 0 < s.num.toNat := Nat.pos_of_ne_zero fun h0 => hnum (BitVec.eq_of_toNat_eq h0)
    rw [hdiv]
    exact Nat.div_lt_self hpos (by omega)
  obtain ⟨s, hs, ⟨l, hl⟩, hstop⟩ := Loop.whileLoop_total _ (fun s : DigitLoop => s.num.toNat) hround ⟨[], hstart⟩ num.isLt
  exact ⟨s, l, hs, hl, by simpa using hstop⟩

theorem emitDigits_ok (symbol : Nat → List Char) (h : Collected n base s l) : ∀ {k : Nat}, k ≤ l.length →
    emitDigits symbol s.arr k = .ok ((l.take k).reverse.flatMap symbol)
  | 0, _ => by simp [emitDigits]
  | k + 1, hk => by
    have hget : l[k]? = some l[k] := List.getElem?_eq_getElem hk
    have hload : loadDigit s.arr k = .ok l[k] := by
      have hshort := h.short
      rw [loadDigit, if_pos (by rw [MAX_INTERGER_SIZE]; omega), h.entries k l[k] hget]
    rw [emitDigits, hload, Loop.ok_bind, emitDigits_ok symbol h (Nat.le_of_succ_le hk), Loop.ok_bind, List.take_add_one, hget,
      Option.toList_some, List.reverse_concat, List.flatMap_cons]
    rfl

theorem printDigits_eq (hA : A.base = base) (hzero : A.symbol 0 = ['0']) (hbase : 4 ≤ base) (hword : base < 2 ^ 64)
    (hlimit : 64 ≤ limit) (num : Word) : printDigits base limit A num = .ok (numeral A num.toNat) := by
  subst hA
  obtain ⟨s, l, hs, hl, hnum⟩ := collectDigits_ok hbase hword hlimit num
  have hvalue : num.toNat = Nat.ofDigits A.base l := by
    have := hl.value
    rw [hnum] at this
    simpa using this
  have hemit := emitDigits_ok A.symbol hl (Nat.le_refl _)
  rw [List.take_length] at hemit
  unfold printDigits
  rw [hs]
  simp only [hl.count, hemit, Loop.ok_bind]
  by_cases hnil : l = []
  · subst hnil
    rw [hvalue, numeral, Nat.ofDigits_nil, if_pos rfl, hzero]
    rfl
  · rw [if_neg (mt List.length_eq_zero_iff.mp hnil), hvalue, numeral_ofDigits (by omega) hl.small hnil fun hne =>
      hl.top hnum _ (List.getLast?_eq_some_getLast hne)]
    rfl

theorem printInt_eq (num : Word) : printInt num = .ok (numeral decimal num.toNat) :=
  printDigits_eq (A := decimal) rfl rfl (by decide) (by decide) (by decide) num

theorem printHex_eq (num : Word) : printHex num = .ok (numeral hexadecimal num.toNat) :=
  printDigits_eq (A := hexadecimal) rfl rfl (by decide) (by decide) (by decide) num

/-- Every 64-bit number is printed as its canonical numeral in base 10 and in base 16. -/
theorem printInt_printHex_canonical (num : Word) :
    PrintsNumeral 10 MAX_INTERGER_SIZE decimal num ∧ PrintsNumeral 16 64 hexadecimal num := by
  constructor
  · obtain ⟨s, l, hs, -⟩ := collectDigits_ok (by decide : 4 ≤ 10) (by decide) (by decide : 64 ≤ MAX_INTERGER_SIZE) num
    exact ⟨⟨s, hs⟩, _, printInt_eq num, canonical_numeral (by decide) _⟩
  · obtain ⟨s, l, hs, -⟩ := collectDigits_ok (by decide : 4 ≤ 16) (by decide) (by decide : 64 ≤ 64) num
    exact ⟨⟨s, hs⟩, _, printHex_eq num, canonical_numeral (by decide) _⟩

end

end Neobird64
