import Neobird64.Ps2Controller

/-! The self-test in `ps2_init`, for every number of bytes that are pending in the controller. The loop that
    clears the buffer looks at the status bit of the other buffer, and reads a single byte. -/

namespace Neobird64

/-- An idle controller with the given bytes pending, none of which is a reply to the self-test. -/
def pendingController (bytes : List (BitVec 8)) (last selfTest : BitVec 8) : Ps2Controller where
  output := bytes.map fun value => ⟨value, false⟩
  last := ⟨last, false⟩
  selfTest := selfTest

/-- The first loop empties the buffer, and the reply of the controller is judged. -/
def SelfTestOk (c : Ps2Controller) : Prop :=
  ∃ r, ps2Init c = .ok r ∧ r.cleared.output = [] ∧ r.judged.reply = true

section
variable {c : Ps2Controller} {bytes : List (BitVec 8)} {last selfTest : BitVec 8}

/-! ### One access -/

theorem outb_of_ne {command : BitVec 8} (h : command ≠ 0xAA) : c.outb command = { c with input := none } := by
  unfold Ps2Controller.outb Ps2Controller.process
  split
  · rename_i heq
    exact absurd (Option.some.inj heq) h
  · rfl

theorem outb_selfTest : c.outb 0xAA = { c with input := none, output := c.output ++ [⟨c.selfTest, true⟩] } := rfl

theorem inbData_output : c.inbData.2 = { c with output := c.output.tail, last := c.inbData.1 } := by
  cases c with
  | mk output last input selfTest => cases output <;> rfl

theorem inbData_fst : c.inbData.1 = c.output.headD c.last := by
  cases c with
  | mk output last input selfTest => cases output <;> rfl

/-- The bit that the loops look at is the one of the input buffer. -/
theorem statusBit : (c.inbStatus.setWidth 16 >>> 1) &&& 1 = if c.input.isSome then 1 else 0 := by
  unfold Ps2Controller.inbStatus
  cases c.output.isEmpty <;> cases c.input.isSome <;> decide

/-! ### The loops -/

theorem clearBuffer_done : clearBuffer (c, 0) = .ok (c, 0) := by
  simp [clearBuffer, clearFuel, Loop.whileLoop]

/-- The first loop takes one byte, whatever is left in the buffer. -/
theorem clearBuffer_idle (h : c.input = none) : clearBuffer (c, 1) = .ok (c.inbData.2, 0) := by
  have hinput : c.inbData.2.input.isSome = false := by rw [inbData_output, h, Option.isSome_none]
  have hgo : decide ((c, (1 : BitVec 16)).2 ≠ 0) = true := rfl
  rw [clearBuffer, clearFuel, Loop.whileLoop, if_pos hgo, Loop.ok_bind]
  simp only [statusBit, hinput]
  rfl

theorem ps2Init_eq (h : c.input = none) : ∃ r, ps2Init c = .ok r ∧ r.cleared.output = c.output.tail ∧
    r.judged = c.output.tail.headD ⟨c.selfTest, true⟩ := by
  have hoff : (c.outb 0xAD).outb 0xA7 = c := by
    rw [outb_of_ne (by decide), outb_of_ne (by decide)]
    cases c
    cases h
    rfl
  simp only [ps2Init, hoff, clearBuffer_idle h, Loop.ok_bind, clearBuffer_done]
  refine ⟨_, rfl, by rw [inbData_output], ?_⟩
  rw [outb_selfTest, inbData_fst, inbData_output]
  simp only
  cases c.output.tail <;> rfl

/-- The self-test is judged by its reply exactly when no more than one byte was pending. -/
theorem selfTestOk_iff (bytes : List (BitVec 8)) (last selfTest : BitVec 8) :
    SelfTestOk (pendingController bytes last selfTest) ↔ bytes.length ≤ 1 := by
  obtain ⟨r, hr, hcleared, hjudged⟩ := ps2Init_eq (rfl : (pendingController bytes last selfTest).input = none)
  have htail : (pendingController bytes last selfTest).output.tail = [] ↔ bytes.length ≤ 1 := by
    rw [← List.length_eq_zero_iff, List.length_tail, pendingController, List.length_map]
    omega
  rw [← htail]
  constructor
  · rintro ⟨r', hr', hempty, -⟩
    rw [hr, Except.ok.injEq] at hr'
    subst hr'
    rw [← hcleared, hempty]
  · intro hempty
    exact ⟨r, hr, by rw [hcleared, hempty], by rw [hjudged, hempty, List.headD_nil]⟩

end

/-- The codes of a key press and release are pending: the second one is taken for the result. -/
theorem stale_byte_judged : ∃ r, ps2Init (pendingController [0x1E, 0x9E] 0 0x55) = .ok r ∧
    r.cleared.output = [⟨0x9E, false⟩] ∧ r.judged = ⟨0x9E, false⟩ ∧ r.report = .unexpected 0x9E ∧
    ¬SelfTestOk (pendingController [0x1E, 0x9E] 0 0x55) := by
  have hrun : ps2Init (pendingController [0x1E, 0x9E] 0 0x55) = .ok
      { cleared := ⟨[⟨0x9E, false⟩], ⟨0x1E, false⟩, none, 0x55⟩, judged := ⟨0x9E, false⟩, report := .unexpected 0x9E,
        controller := ⟨[⟨0x55, true⟩], ⟨0x9E, false⟩, none, 0x55⟩ } := by decide
  refine ⟨_, hrun, rfl, rfl, rfl, ?_⟩
  rintro ⟨r, hr, hempty, -⟩
  rw [hrun, Except.ok.injEq] at hr
  subst hr
  cases hempty

end Neobird64
