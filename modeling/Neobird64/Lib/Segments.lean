import Mathlib.Data.BitVec
import Mathlib.Logic.Function.Basic
import Mathlib.Tactic.Common

/-! Segment registers in 64-bit mode: the descriptors of a table, and the checks with which the processor loads a register
    from one. Far transfers to another privilege level and local tables are left out. -/

namespace X86

inductive Seg
  | cs | ds | es | fs | gs | ss
deriving DecidableEq, Repr

/-- An entry of a descriptor table. -/
abbrev Descriptor := BitVec 64

namespace Descriptor

/-- Not a system descriptor. -/
def segment (d : Descriptor) : Bool := d.getLsbD 44

def executable (d : Descriptor) : Bool := d.getLsbD 43

/-- A data segment that can be written, or a code segment that can be read. -/
def accessible (d : Descriptor) : Bool := d.getLsbD 41

/-- Of a code segment. -/
def conforming (d : Descriptor) : Bool := d.getLsbD 42

def dpl (d : Descriptor) : BitVec 2 := d.extractLsb' 45 2

def present (d : Descriptor) : Bool := d.getLsbD 47

/-- The L bit without the D bit: a code segment of 64-bit mode. -/
def long (d : Descriptor) : Bool := d.getLsbD 53 && !d.getLsbD 54

/-- The accessed bit, which the processor sets when it loads the segment. -/
def accessedBit : Descriptor := BitVec.twoPow 64 40

def access (d : Descriptor) : Descriptor := d ||| accessedBit

theorem access_access (d : Descriptor) : d.access.access = d.access := by
  rw [access, access, BitVec.or_assoc, BitVec.or_self]

theorem getLsbD_accessedBit (i : Nat) : accessedBit.getLsbD i = decide (40 = i) := by
  rw [accessedBit, BitVec.getLsbD_twoPow]
  by_cases hi : 40 = i
  · simp [← hi]
  · simp [hi]

/-- A descriptor differs from its accessed form in one bit at most. -/
theorem eq_of_access_eq {d k : Descriptor} (h : d.access = k) : d = k ∨ d = k &&& ~~~accessedBit := by
  subst h
  have hother : ∀ i, 40 ≠ i → d.access.getLsbD i = d.getLsbD i := fun i hi => by
    rw [access, BitVec.getLsbD_or, getLsbD_accessedBit, decide_eq_false hi, Bool.or_false]
  cases hbit : d.getLsbD 40
  · right
    apply BitVec.eq_of_getLsbD_eq
    intro i hi
    rw [BitVec.getLsbD_and, BitVec.getLsbD_not, getLsbD_accessedBit, decide_eq_true hi, Bool.true_and]
    by_cases h40 : 40 = i
    · subst h40
      rw [hbit, decide_eq_true rfl, Bool.not_true, Bool.and_false]
    · rw [hother i h40, decide_eq_false h40, Bool.not_false, Bool.and_true]
  · left
    apply BitVec.eq_of_getLsbD_eq
    intro i hi
    by_cases h40 : 40 = i
    · subst h40
      rw [access, BitVec.getLsbD_or, hbit, Bool.true_or]
    · exact (hother i h40).symm

end Descriptor

/-! ### Selectors -/

def index (selector : BitVec 16) : Nat := (selector >>> 3).toNat

def rpl (selector : BitVec 16) : BitVec 2 := selector.setWidth 2

/-- The selectors of entry 0, which name no segment. -/
def isNull (selector : BitVec 16) : Bool := selector &&& 0xFFFC = 0

/-! ### Registers -/

structure Gdtr where
  limit : BitVec 16
  base : BitVec 64
deriving DecidableEq, Repr

/-- A segment register with its hidden part. -/
structure SegReg where
  selector : BitVec 16
  cached : Descriptor
deriving DecidableEq, Repr

structure SegFile where
  gdtr : Gdtr
  seg : Seg → SegReg

namespace SegFile

def cpl (f : SegFile) : BitVec 2 := rpl (f.seg .cs).selector

def set (f : SegFile) (seg : Seg) (r : SegReg) : SegFile := { f with seg := Function.update f.seg seg r }

/-- The register `seg` with the descriptor that `selector` names in `table`, if it is inside of the limit and allowed. -/
def load (table : Nat → Descriptor) (allowed : Descriptor → Bool) (f : SegFile) (seg : Seg) (selector : BitVec 16) :
    Option SegFile :=
  if selector.getLsbD 2 = false ∧ 8 * index selector + 7 ≤ f.gdtr.limit.toNat ∧ allowed (table (index selector)) = true then
    some (f.set seg ⟨selector, (table (index selector)).access⟩)
  else none

def dataAllowed (cpl : BitVec 2) (selector : BitVec 16) (d : Descriptor) : Bool :=
  d.segment && (!d.executable || d.accessible) &&
    (d.executable && d.conforming || decide (rpl selector ≤ d.dpl) && decide (cpl ≤ d.dpl)) && d.present

def stackAllowed (cpl : BitVec 2) (selector : BitVec 16) (d : Descriptor) : Bool :=
  d.segment && !d.executable && d.accessible && decide (rpl selector = cpl) && decide (d.dpl = cpl) && d.present

/-- For code at the current privilege level. Code above 4 GiB is past the limit of a segment of compatibility mode, so the
    transfer to one faults too. -/
def codeAllowed (cpl : BitVec 2) (d : Descriptor) : Bool :=
  d.segment && d.executable && (if d.conforming then decide (d.dpl ≤ cpl) else decide (d.dpl = cpl)) && d.present && d.long

/-- `mov` to a segment register. -/
def mov (table : Nat → Descriptor) (f : SegFile) (seg : Seg) (selector : BitVec 16) : Option SegFile :=
  match seg with
  | .cs => none
  | .ss =>
    if isNull selector then
      if rpl selector = f.cpl ∧ f.cpl ≠ 3 then some (f.set .ss ⟨selector, 0⟩) else none
    else f.load table (stackAllowed f.cpl selector) .ss selector
  | seg =>
    if isNull selector then some (f.set seg ⟨selector, 0⟩) else f.load table (dataAllowed f.cpl selector) seg selector

/-- What `retfq` loads into `cs`. -/
def farReturn (table : Nat → Descriptor) (f : SegFile) (selector : BitVec 16) : Option SegFile :=
  if isNull selector = false ∧ rpl selector = f.cpl then f.load table (codeAllowed f.cpl) .cs selector else none

/-- What an interrupt loads into `cs` through a gate: the privilege level stays. -/
def enterGate (table : Nat → Descriptor) (f : SegFile) (selector : BitVec 16) : Option SegFile :=
  if isNull selector then none
  else f.load table (codeAllowed f.cpl) .cs (selector.extractLsb' 2 14 ++ f.cpl)

/-- What `iretq` loads into `cs` and `ss`. -/
def iret (cs ss : BitVec 16) (table : Nat → Descriptor) (f : SegFile) : Option SegFile :=
  (f.farReturn table cs).bind fun f => f.mov table .ss ss

variable {f : SegFile} {seg : Seg} {r : SegReg}

@[simp] theorem seg_set : (f.set seg r).seg seg = r := Function.update_self _ _ _

theorem seg_set_of_ne {seg' : Seg} (h : seg' ≠ seg) : (f.set seg r).seg seg' = f.seg seg' := Function.update_of_ne h _ _

end SegFile

end X86
