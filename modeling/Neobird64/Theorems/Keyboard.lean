import Neobird64.Ps2
import Mathlib.Algebra.Ring.Parity
import Mathlib.Data.List.DropRight

/-! `keyboard_state` over any sequence of scancode bytes. Caps Lock is told by the parity of its make
    codes; each of them also forgets the shift key, and the `0xE0` prefix is not looked at. -/

namespace Neobird64

/-- The bytes after the last Caps Lock make code. -/
def sinceCaps (bytes : List (BitVec 8)) : List (BitVec 8) := bytes.rtakeWhile (· ≠ 0x3A)

/-- The bytes of the left shift key. -/
def shiftBytes (bytes : List (BitVec 8)) : List (BitVec 8) := bytes.filter fun data => data = 0x2A ∨ data = 0xAA

/-- The state with the given number of Caps Lock make codes, when the bytes of the shift key are `shifts`. -/
def modifierState (caps : Nat) (shifts : List (BitVec 8)) : KeyboardState :=
  if Odd caps then .caps else if shifts.getLast? = some 0x2A then .shift else .normal

/-- The bytes that do not follow a `0xE0`. -/
def unprefixed : List (BitVec 8) → List (BitVec 8)
  | [] => []
  | [data] => [data]
  | a :: data :: bytes => if a = 0xE0 then a :: unprefixed bytes else a :: unprefixed (data :: bytes)

section
variable {behind : Nat → Char} {state : KeyboardState} {data : BitVec 8} {scancode : BitVec 16} {bytes : List (BitVec 8)}

/-! ### One byte -/

/-- What one byte does to `keyboard_state`. -/
def keyStep (state : KeyboardState) (data : BitVec 8) : KeyboardState :=
  if data = 0x3A then if state = .caps then .normal else .caps
  else if state = .caps then .caps
  else if data = 0x2A then .shift
  else if data = 0xAA then .normal
  else state

theorem setWidth_eq_iff (c : BitVec 8) : data.setWidth 16 = c.setWidth 16 ↔ data = c := by
  refine ⟨fun h => BitVec.eq_of_toNat_eq ?_, fun h => by rw [h]⟩
  have hnat := congrArg BitVec.toNat h
  rw [BitVec.toNat_setWidth, BitVec.toNat_setWidth] at hnat
  have hd := data.isLt
  have hc := c.isLt
  omega

theorem ps2Translate2ascii_state : (ps2Translate2ascii behind state scancode).2 =
    if scancode = LEFT_SHIFT_PRESSED ∧ state ≠ .caps then .shift
    else if scancode = CAPS_LOCK_PRESSED ∧ state ≠ .caps then .caps
    else state := by
  simp only [ps2Translate2ascii, apply_ite Prod.snd, ite_self]
  by_cases h : scancode > 0x58
  · rw [if_pos h, if_neg, if_neg]
    · rintro ⟨rfl, -⟩
      exact absurd h (by decide)
    · rintro ⟨rfl, -⟩
      exact absurd h (by decide)
  · rw [if_neg h]
    cases state <;> simp

theorem ps2Handler_state : (ps2Handler behind state data).1 = keyStep state data := by
  have hshift : data.setWidth 16 = LEFT_SHIFT_PRESSED ↔ data = 0x2A := setWidth_eq_iff 0x2A
  have hreleased : data.setWidth 16 = LEFT_SHIFT_RELEASED ↔ data = 0xAA := setWidth_eq_iff 0xAA
  have hcaps : data.setWidth 16 = CAPS_LOCK_PRESSED ↔ data = 0x3A := setWidth_eq_iff 0x3A
  simp only [ps2Handler, apply_ite Prod.fst, ite_self, ps2Translate2ascii_state, hshift, hreleased, hcaps, keyStep]
  by_cases h3A : data = 0x3A
  · subst h3A
    cases state <;> rfl
  by_cases h2A : data = 0x2A
  · subst h2A
    cases state <;> rfl
  by_cases hAA : data = 0xAA
  · subst hAA
    cases state <;> rfl
  · simp only [h3A, h2A, hAA, false_and, and_false, if_false]
    cases state <;> rfl

/-! ### Any sequence of bytes -/

theorem sinceCaps_concat : sinceCaps (bytes ++ [data]) = if data = 0x3A then [] else sinceCaps bytes ++ [data] := by
  rw [sinceCaps, List.rtakeWhile_concat]
  by_cases h : data = 0x3A
  · rw [if_pos h, if_neg (by simpa using h)]
  · rw [if_neg h, if_pos (by simpa using h), sinceCaps]

theorem shiftBytes_concat : shiftBytes (bytes ++ [data]) =
    if data = 0x2A ∨ data = 0xAA then shiftBytes bytes ++ [data] else shiftBytes bytes := by
  rw [shiftBytes, List.filter_append, List.filter_singleton]
  by_cases h : data = 0x2A ∨ data = 0xAA
  · rw [if_pos h, decide_eq_true h, shiftBytes]
    rfl
  · rw [if_neg h, decide_eq_false h, shiftBytes]
    exact List.append_nil _

theorem keyboardRun_concat : keyboardRun behind (bytes ++ [data]) = keyStep (keyboardRun behind bytes) data := by
  rw [keyboardRun, List.foldl_append, List.foldl_cons, List.foldl_nil, ps2Handler_state, keyboardRun]

/-- Caps Lock toggles and forgets the shift key. -/
theorem keyStep_caps {caps : Nat} {shifts : List (BitVec 8)} :
    keyStep (modifierState caps shifts) 0x3A = modifierState (caps + 1) [] := by
  rw [keyStep, if_pos rfl, modifierState, modifierState]
  by_cases hodd : Odd caps
  · rw [if_pos hodd, if_pos rfl, if_neg fun h => Nat.odd_add_one.mp h hodd]
    rfl
  · rw [if_neg hodd, if_pos (Nat.odd_add_one.mpr hodd), if_neg]
    split <;> simp

/-- Another byte matters when it is of the shift key and Caps Lock is off. -/
theorem keyStep_of_ne {caps : Nat} (h : data ≠ 0x3A) :
    keyStep (modifierState caps (shiftBytes bytes)) data = modifierState caps (shiftBytes (bytes ++ [data])) := by
  rw [keyStep, if_neg h, modifierState, modifierState, shiftBytes_concat]
  by_cases hodd : Odd caps
  · rw [if_pos hodd, if_pos hodd, if_pos rfl]
  rw [if_neg hodd, if_neg hodd, if_neg (by split <;> simp)]
  by_cases h2A : data = 0x2A
  · rw [if_pos h2A, if_pos (Or.inl h2A), h2A, List.getLast?_concat, if_pos rfl]
  by_cases hAA : data = 0xAA
  · rw [if_neg h2A, if_pos hAA, if_pos (Or.inr hAA), hAA, List.getLast?_concat, if_neg (by decide)]
  · have hnot : ¬(data = 0x2A ∨ data = 0xAA) := fun hor => hor.elim h2A hAA
    rw [if_neg h2A, if_neg hAA, if_neg hnot]

/-- Caps Lock is on after an odd number of its make codes. Otherwise shift is on when the last byte of the
    left shift key since the last make code of Caps Lock is its make code, with or without a prefix. -/
theorem keyboardRun_eq (behind : Nat → Char) (bytes : List (BitVec 8)) : keyboardRun behind bytes =
    modifierState (bytes.count 0x3A) (shiftBytes (sinceCaps bytes)) := by
  induction bytes using List.reverseRecOn with
  | nil => rfl
  | append_singleton bytes data ih =>
    rw [keyboardRun_concat, ih, List.count_append, List.count_singleton, sinceCaps_concat]
    by_cases h : data = 0x3A
    · subst h
      exact keyStep_caps
    · rw [if_neg h, keyStep_of_ne h, if_neg (by simpa using h), Nat.add_zero]

end

/-- After Caps Lock is off again, a shift key that is still held does not count, and a prefixed `0x2A` does. -/
theorem shift_forgotten :
    (keyboardRun (fun _ => ' ') [0x2A, 0x3A, 0x3A] ≠
      modifierState (List.count 0x3A [0x2A, 0x3A, 0x3A]) (shiftBytes (unprefixed [0x2A, 0x3A, 0x3A]))) ∧
    (keyboardRun (fun _ => ' ') [0xE0, 0x2A] ≠
      modifierState (List.count 0x3A [0xE0, 0x2A]) (shiftBytes (unprefixed [0xE0, 0x2A]))) := by
  simp only [keyboardRun, List.foldl_cons, List.foldl_nil, ps2Handler_state]
  decide

end Neobird64
