import Neobird64.Theorems.Keyboard

/-! What the keyboard prints, and where it reads `ascii_table`, over any sequence of scancode bytes. -/

namespace Neobird64

/-- Every read of `ascii_table` in the interrupts for `bytes` is inside the table. -/
def TableReadsOk (behind : Nat → Char) (bytes : List (BitVec 8)) : Prop :=
  ∀ before data, before ++ [data] <+: bytes →
    ∀ i ∈ ps2HandlerReads behind (keyboardRun behind before) data, i < asciiTable.length

/-- The make codes of the letters in scan code set 1, on a US keyboard. -/
def letterKeys : List (BitVec 8 × Char) := [
  (0x10, 'q'), (0x11, 'w'), (0x12, 'e'), (0x13, 'r'), (0x14, 't'), (0x15, 'y'), (0x16, 'u'), (0x17, 'i'), (0x18, 'o'),
  (0x19, 'p'), (0x1E, 'a'), (0x1F, 's'), (0x20, 'd'), (0x21, 'f'), (0x22, 'g'), (0x23, 'h'), (0x24, 'j'), (0x25, 'k'),
  (0x26, 'l'), (0x2C, 'z'), (0x2D, 'x'), (0x2E, 'c'), (0x2F, 'v'), (0x30, 'b'), (0x31, 'n'), (0x32, 'm')]

def printed (effects : List Ps2Effect) : List Char :=
  effects.filterMap fun effect =>
    match effect with
    | .print c => some c
    | .apicEoi => none

/-- The case of a letter in the given state of the keyboard. -/
def letterCase (state : KeyboardState) (letter : Char) : Char := if state = .normal then letter else letter.toUpper

/-- The interrupt of each make code of a letter prints the letter in its case, and nothing else. -/
def LettersPrinted (behind : Nat → Char) (bytes : List (BitVec 8)) : Prop :=
  ∀ before data, before ++ [data] <+: bytes → ∀ letter, (data, letter) ∈ letterKeys →
    printed (ps2Handler behind (keyboardRun behind before) data).2 = [letterCase (keyboardRun behind before) letter]

section
variable {behind behind' : Nat → Char} {state : KeyboardState} {data : BitVec 8} {scancode : BitVec 16}
variable {bytes : List (BitVec 8)} {c : Char} {i : Nat}

/-! ### The reads of the table -/

theorem toNat_setWidth16 (data : BitVec 8) : (data.setWidth 16).toNat = data.toNat := by
  rw [BitVec.toNat_setWidth]
  have := data.isLt
  omega

theorem eq_of_mem_translateReads (h : i ∈ ps2TranslateReads behind state scancode) :
    i = scancode.toNat ∧ scancode ≤ 0x58 ∧ (scancode = CAPS_LOCK_PRESSED → state = .caps) := by
  unfold ps2TranslateReads at h
  split at h
  · cases h
  rename_i hle
  split at h
  · cases h
  split at h
  · cases h
  rename_i hnormal
  split at h
  · cases h
  rename_i hshift
  refine ⟨by split at h <;> simpa using h, BitVec.not_lt.mp hle, fun hcaps => ?_⟩
  cases state with
  | normal => exact absurd ⟨hcaps, rfl⟩ hnormal
  | shift => exact absurd ⟨hcaps, rfl⟩ hshift
  | caps => rfl

theorem mem_translateReads (hle : scancode ≤ 0x58) (hshift : scancode ≠ LEFT_SHIFT_PRESSED)
    (hcaps : scancode ≠ CAPS_LOCK_PRESSED) : scancode.toNat ∈ ps2TranslateReads behind state scancode := by
  unfold ps2TranslateReads
  rw [if_neg (BitVec.not_lt.mpr hle), if_neg fun h => hshift h.1, if_neg fun h => hcaps h.1, if_neg fun h => hcaps h.1]
  split <;> exact List.mem_cons_self

theorem translate_of_agree (h : ∀ i ∈ ps2TranslateReads behind state scancode, asciiTable.length ≤ i →
    behind' (i - asciiTable.length) = behind (i - asciiTable.length)) :
    ps2Translate2ascii behind' state scancode = ps2Translate2ascii behind state scancode := by
  unfold ps2TranslateReads at h
  unfold ps2Translate2ascii
  by_cases hle : scancode > 0x58
  · rw [if_pos hle, if_pos hle]
  rw [if_neg hle] at h ⊢
  rw [if_neg hle]
  by_cases hshift : scancode = LEFT_SHIFT_PRESSED ∧ state ≠ .caps
  · rw [if_pos hshift, if_pos hshift]
  rw [if_neg hshift] at h ⊢
  rw [if_neg hshift]
  by_cases hcaps : scancode = CAPS_LOCK_PRESSED ∧ state = .normal
  · rw [if_pos hcaps, if_pos hcaps]
  rw [if_neg hcaps] at h ⊢
  rw [if_neg hcaps]
  by_cases hcaps' : scancode = CAPS_LOCK_PRESSED ∧ state = .shift
  · rw [if_pos hcaps', if_pos hcaps']
  rw [if_neg hcaps'] at h
  have hat : asciiAt behind' scancode = asciiAt behind scancode := by
    rw [asciiAt, asciiAt, List.getD_eq_getElem?_getD, List.getD_eq_getElem?_getD]
    rcases Nat.lt_or_ge scancode.toNat asciiTable.length with hlt | hge
    · rw [List.getElem?_eq_getElem hlt, Option.getD_some, Option.getD_some]
    · rw [h scancode.toNat (by split <;> exact List.mem_cons_self) hge]
  rw [hat]

/-- The handler depends on the memory behind the table only where it reads it. -/
theorem ps2Handler_of_agree (h : ∀ i ∈ ps2HandlerReads behind state data, asciiTable.length ≤ i →
    behind' (i - asciiTable.length) = behind (i - asciiTable.length)) :
    ps2Handler behind' state data = ps2Handler behind state data := by
  unfold ps2HandlerReads at h
  unfold ps2Handler
  simp only at h ⊢
  generalize (if data.setWidth 16 = LEFT_SHIFT_RELEASED ∧ state ≠ .caps then KeyboardState.normal else state) = now at h ⊢
  by_cases hcaps : now = .caps ∧ data.setWidth 16 = CAPS_LOCK_PRESSED
  · rw [if_pos hcaps, if_pos hcaps]
  rw [if_neg hcaps] at h
  rw [if_neg hcaps, if_neg hcaps, translate_of_agree h]

theorem handlerReads_inside : (∀ i ∈ ps2HandlerReads behind state data, i < asciiTable.length) ↔
    data < 0x3B ∨ 0x58 < data := by
  have hlength : asciiTable.length = 0x3A := rfl
  have hcaps : data.setWidth 16 = CAPS_LOCK_PRESSED ↔ data = 0x3A := setWidth_eq_iff 0x3A
  have hshift : data.setWidth 16 = LEFT_SHIFT_PRESSED ↔ data = 0x2A := setWidth_eq_iff 0x2A
  have hle : data.setWidth 16 ≤ 0x58 ↔ ¬0x58 < data := by
    rw [BitVec.le_def, BitVec.lt_def, toNat_setWidth16, Nat.not_lt]
    exact Iff.rfl
  unfold ps2HandlerReads
  simp only
  generalize (if data.setWidth 16 = LEFT_SHIFT_RELEASED ∧ state ≠ .caps then KeyboardState.normal else state) = now
  constructor
  · intro h
    by_contra hne
    rw [not_or] at hne
    have hge : ¬data.toNat < 0x3B := hne.1
    have h3A : data ≠ 0x3A := by
      rintro rfl
      exact hge (by decide)
    have h2A : data ≠ 0x2A := by
      rintro rfl
      exact hge (by decide)
    rw [if_neg fun hc => h3A (hcaps.mp hc.2)] at h
    have := h _ (mem_translateReads (hle.mpr hne.2) (mt hshift.mp h2A) (mt hcaps.mp h3A))
    rw [toNat_setWidth16, hlength] at this
    omega
  · intro h i hi
    split at hi
    · cases hi
    rename_i hnot
    obtain ⟨rfl, hi58, hicaps⟩ := eq_of_mem_translateReads hi
    have hdata : data.toNat < 0x3B := h.resolve_right (hle.mp hi58)
    have h3A : data.toNat ≠ 0x3A := by
      intro heq
      have hcode := hcaps.mpr (BitVec.eq_of_toNat_eq heq)
      exact hnot ⟨hicaps hcode, hcode⟩
    rw [toNat_setWidth16, hlength]
    omega

/-- The table is read inside exactly when none of the bytes from 0x3B to 0x58 arrives, whatever the state is. -/
theorem tableReadsOk_iff (behind : Nat → Char) (bytes : List (BitVec 8)) : TableReadsOk behind bytes ↔
    ∀ data ∈ bytes, data < 0x3B ∨ 0x58 < data := by
  constructor
  · intro h data hdata
    obtain ⟨before, after, rfl⟩ := List.append_of_mem hdata
    exact handlerReads_inside.mp (h before data ⟨after, by simp⟩)
  · rintro h before data ⟨after, rfl⟩
    exact handlerReads_inside.mpr (h data (by simp))

/-- While the table is read inside, what follows it in memory makes no difference. -/
theorem ps2Handler_of_readsOk (h : TableReadsOk behind (bytes ++ [data])) :
    ps2Handler behind' (keyboardRun behind bytes) data = ps2Handler behind (keyboardRun behind bytes) data :=
  ps2Handler_of_agree fun i hi hge => absurd (h bytes data (List.prefix_refl _) i hi) (Nat.not_lt.mpr hge)

/-- F1 after power-up. -/
theorem f1_outside : ps2HandlerReads (fun _ => '?') (keyboardRun (fun _ => '?') []) 0x3B = [59, 59] ∧
    asciiTable.length = 58 ∧ ¬TableReadsOk (fun _ => '?') [0x3B] := by
  refine ⟨by decide, by decide, fun h => ?_⟩
  exact absurd (h [] 0x3B (List.prefix_refl _) 59 (by decide)) (by decide)

/-! ### The letters -/

theorem toupper_ne_zero (hc : c ≠ '\x00') : toupper c ≠ '\x00' := by
  unfold toupper
  split <;> simp_all

theorem printed_of_table (h : asciiTable[data.toNat]? = some c) (hc : c ≠ '\x00') :
    printed (ps2Handler behind state data).2 = [if state = .normal then c else toupper c] := by
  have hlt : data.toNat < 0x3A := (List.getElem?_eq_some_iff.mp h).1
  have hne : ∀ code : BitVec 8, (asciiTable[code.toNat]? = none ∨ asciiTable[code.toNat]? = some '\x00') → data ≠ code := by
    rintro code hcode rfl
    rcases hcode with hcode | hcode <;> rw [h] at hcode <;> cases hcode
    exact hc rfl
  have hcaps : data.setWidth 16 ≠ CAPS_LOCK_PRESSED := mt (setWidth_eq_iff 0x3A).mp (hne 0x3A (Or.inl (by decide)))
  have hshift : data.setWidth 16 ≠ LEFT_SHIFT_PRESSED := mt (setWidth_eq_iff 0x2A).mp (hne 0x2A (Or.inr (by decide)))
  have hreleased : data.setWidth 16 ≠ LEFT_SHIFT_RELEASED := mt (setWidth_eq_iff 0xAA).mp (hne 0xAA (Or.inl (by decide)))
  have hle : ¬0x58#16 < data.setWidth 16 := by
    have h58 : (0x58#16).toNat = 0x58 := rfl
    rw [BitVec.lt_def, toNat_setWidth16]
    omega
  have hat : asciiAt behind (data.setWidth 16) = c := by
    rw [asciiAt, toNat_setWidth16, List.getD_eq_getElem?_getD, h, Option.getD_some]
  have hupper := toupper_ne_zero hc
  unfold ps2Handler ps2Translate2ascii
  cases state <;> simp [hcaps, hshift, hreleased, hle, hat, hc, hupper, printed]

theorem letterKeys_table : ∀ key ∈ letterKeys, asciiTable[key.1.toNat]? = some key.2 ∧ key.2 ≠ '\x00' ∧
    (toupper key.2 = key.2.toUpper ↔ key.1 ≠ 0x10) := by
  decide

theorem printed_letter {letter : Char} (h : (data, letter) ∈ letterKeys) :
    printed (ps2Handler behind state data).2 = [letterCase state letter] ↔ data ≠ 0x10 ∨ state = .normal := by
  obtain ⟨htable, hzero, hupper⟩ := letterKeys_table _ h
  rw [printed_of_table htable hzero, List.singleton_inj, letterCase]
  by_cases hstate : state = .normal
  · simp [hstate]
  · simp [hstate, hupper]

/-- Every letter is printed in its case, but for a q in upper case, which has no case in `toupper`. -/
theorem lettersPrinted_iff (behind : Nat → Char) (bytes : List (BitVec 8)) : LettersPrinted behind bytes ↔
    ∀ before, before ++ [0x10] <+: bytes → keyboardRun behind before = .normal := by
  constructor
  · intro h before hbefore
    have hq : ((0x10 : BitVec 8), 'q') ∈ letterKeys := List.mem_cons_self
    exact ((printed_letter hq).mp (h before 0x10 hbefore 'q' hq)).resolve_left fun hne => hne rfl
  · intro h before data hbefore letter hletter
    refine (printed_letter hletter).mpr ?_
    by_cases hdata : data = 0x10
    · subst hdata
      exact Or.inr (h before hbefore)
    · exact Or.inl hdata

end

/-- Caps Lock and then the key of the letter q. -/
theorem caps_q_not_printed : keyboardRun (fun _ => ' ') [0x3A] = .caps ∧
    printed (ps2Handler (fun _ => ' ') (keyboardRun (fun _ => ' ') [0x3A]) 0x10).2 = ['q'] ∧
    ¬LettersPrinted (fun _ => ' ') [0x3A, 0x10] := by
  refine ⟨by decide, by decide, fun h => ?_⟩
  have hq := h [0x3A] 0x10 (List.prefix_refl _) 'q' (by decide)
  exact absurd hq (by decide)

end Neobird64
