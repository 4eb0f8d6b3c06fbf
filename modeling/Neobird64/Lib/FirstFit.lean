import Mathlib.Data.Finset.Sort
import Mathlib.Tactic.Common

/-! A first-fit allocator over a linearly ordered set of units: the state is the set of free units, an
    allocation takes the least one, a release puts a unit back. Allocating until nothing is free hands
    out every free unit once, in increasing order. -/

namespace FirstFit
variable {α : Type} [LinearOrder α] {S : Finset α} {a : α}

/-- The unit that the next allocation takes. -/
def least (S : Finset α) : Option α := if h : S.Nonempty then some (S.min' h) else none

def alloc (S : Finset α) : Option α × Finset α :=
  match least S with
  | some a => (some a, S.erase a)
  | none => (none, S)

def release (S : Finset α) (a : α) : Finset α := insert a S

/-- A call of the allocator. -/
inductive Call (α : Type)
  | alloc
  | release (a : α)

/-- What a call returns, `none` also for a release, and the units that are free afterwards. -/
def Call.exec (S : Finset α) : Call α → Option α × Finset α
  | .alloc => FirstFit.alloc S
  | .release a => (none, FirstFit.release S a)

/-- The unit whose state a call may change. -/
def Call.unit (S : Finset α) : Call α → Option α
  | .alloc => least S
  | .release a => some a

/-- The units that are free after a list of calls. -/
def run (S : Finset α) (calls : List (Call α)) : Finset α := calls.foldl (fun S c => (c.exec S).2) S

@[simp] theorem run_nil : run S [] = S := rfl

@[simp] theorem run_cons {c : Call α} {calls : List (Call α)} : run S (c :: calls) = run (c.exec S).2 calls := rfl

theorem least_eq_some : least S = some a ↔ a ∈ S ∧ ∀ b ∈ S, a ≤ b := by
  unfold least
  split
  · rename_i hne
    rw [Option.some.injEq]
    constructor
    · rintro rfl
      exact ⟨S.min'_mem hne, fun b hb => S.min'_le b hb⟩
    · rintro ⟨ha, hle⟩
      exact le_antisymm (S.min'_le a ha) (hle _ (S.min'_mem hne))
  · rename_i hne
    exact ⟨nofun, fun h => absurd ⟨a, h.1⟩ hne⟩

theorem least_eq_none : least S = none ↔ S = ∅ := by
  unfold least
  split
  · rename_i hne
    exact ⟨nofun, fun h => absurd h hne.ne_empty⟩
  · rename_i hne
    exact ⟨fun _ => Finset.not_nonempty_iff_eq_empty.mp hne, fun _ => rfl⟩

/-- A call changes nothing about other units. -/
theorem Call.mem_exec {c : Call α} {b : α} (h : c.unit S ≠ some b) : b ∈ (c.exec S).2 ↔ b ∈ S := by
  cases c with
  | alloc =>
    rw [Call.unit] at h
    rw [Call.exec, FirstFit.alloc]
    cases hl : least S with
    | none => rfl
    | some a =>
      have hne : b ≠ a := fun he => h (by rw [hl, he])
      simp [hne]
  | release a =>
    have hne : b ≠ a := fun he => h (by rw [Call.unit, he])
    simp [Call.exec, FirstFit.release, hne]

/-- The units that at most `n` allocations hand out, up to the first failure. -/
def drain : Nat → Finset α → List α
  | 0, _ => []
  | n + 1, S =>
    match least S with
    | some a => a :: drain n (S.erase a)
    | none => []

/-- Draining the allocator hands out the free units in increasing order. -/
theorem drain_eq_sort : ∀ {n : Nat} {S : Finset α}, S.card ≤ n → drain n S = S.sort
  | 0, S, h => by
    rw [Finset.card_eq_zero.mp (Nat.le_zero.mp h), Finset.sort_empty, drain]
  | n + 1, S, h => by
    rw [drain]
    cases ha : least S with
    | none => rw [least_eq_none.mp ha, Finset.sort_empty]
    | some a =>
      obtain ⟨hmem, hle⟩ := least_eq_some.mp ha
      have hcard : (S.erase a).card ≤ n := by
        have := Finset.card_erase_add_one hmem
        omega
      simp only
      rw [drain_eq_sort hcard]
      conv_rhs => rw [← Finset.insert_erase hmem]
      exact (Finset.sort_insert _ (fun b hb => hle b (Finset.mem_of_mem_erase hb)) (Finset.notMem_erase a S)).symm

end FirstFit
