import Mathlib.Logic.Function.Basic
import Mathlib.Tactic.Common

/-! Registers of a device behind two windows: a store to the first selects a register, and the second is the
    selected register. Some registers are read-only. -/

/-- The selected register and all registers. -/
structure RegisterFile (ι α : Type) where
  index : ι
  regs : ι → α

namespace RegisterFile
variable {ι α : Type}

/-- A store to one of the windows. -/
inductive Store (ι α : Type)
  | index (r : ι)
  | data (v : α)
deriving DecidableEq, Repr

def write (r : ι) (v : α) : List (Store ι α) := [.index r, .data v]

/-- What a load from the second window gives. -/
def load (d : RegisterFile ι α) : α := d.regs d.index

variable [DecidableEq ι]

def store (readOnly : ι → Bool) (d : RegisterFile ι α) : Store ι α → RegisterFile ι α
  | .index r => { d with index := r }
  | .data v => if readOnly d.index then d else { d with regs := Function.update d.regs d.index v }

def run (readOnly : ι → Bool) (d : RegisterFile ι α) (l : List (Store ι α)) : RegisterFile ι α := l.foldl (store readOnly) d

variable {readOnly : ι → Bool} {d : RegisterFile ι α} {l l' : List (Store ι α)} {r : ι} {v : α}

@[simp] theorem run_nil : run readOnly d [] = d := rfl

@[simp] theorem run_index : run readOnly d (.index r :: l) = run readOnly { d with index := r } l := rfl

theorem run_append : run readOnly d (l ++ l') = run readOnly (run readOnly d l) l' := List.foldl_append

theorem run_data (h : readOnly d.index = false) :
    run readOnly d (.data v :: l) = run readOnly { d with regs := Function.update d.regs d.index v } l := by
  have hne : ¬readOnly d.index = true := by rw [h]; exact Bool.false_ne_true
  rw [run, List.foldl_cons, store, if_neg hne, run]

theorem regs_run_write (h : readOnly r = false) : (run readOnly d (write r v)).regs = Function.update d.regs r v := by
  rw [write, run_index, run_data h, run_nil]

/-- A write to a register that is read-only does nothing but select it. -/
theorem regs_run_write_of_readOnly (h : readOnly r = true) : (run readOnly d (write r v)).regs = d.regs := by
  rw [write, run_index, run, List.foldl_cons, store, if_pos h, List.foldl_nil]

/-- No run changes a register that is read-only. -/
theorem regs_run_of_readOnly (h : readOnly r = true) : (run readOnly d l).regs r = d.regs r := by
  induction l generalizing d with
  | nil => rfl
  | cons a l ih =>
    rw [run, List.foldl_cons, ← run, ih]
    cases a with
    | index r' => rfl
    | data v =>
      rw [store]
      by_cases hindex : readOnly d.index = true
      · rw [if_pos hindex]
      · have hne : r ≠ d.index := fun heq => hindex (heq ▸ h)
        rw [if_neg hindex]
        exact Function.update_of_ne hne v d.regs

end RegisterFile
