import Neobird64.Theorems.PmmLayout
import Neobird64.Acpi

/-! The lookup of the ACPI tables: `find_acpi_table` stops at the first pointer of the root table that is NULL or leads
    to the signature. -/

namespace Neobird64
open State

theorem memcmp_eq_zero {p1 p2 : Nat → BitVec 8} {n : Nat} : memcmp p1 p2 n = 0 ↔ ∀ i < n, p1 i = p2 i := by
  have hfind : (List.range n).findSome? (fun i =>
      if p1 i ≠ p2 i then some (if (p1 i).toNat < (p2 i).toNat then (-1 : Int) else 1) else none) =
        ((List.range n).find? fun i => p1 i ≠ p2 i).map fun i => if (p1 i).toNat < (p2 i).toNat then -1 else 1 :=
    findSome?_eq_find? fun i _ => by simp
  rw [memcmp, hfind]
  cases hf : (List.range n).find? fun i => p1 i ≠ p2 i with
  | none =>
    rw [List.find?_eq_none] at hf
    simpa using hf
  | some i =>
    have hi := List.mem_range.mp (List.mem_of_find?_eq_some hf)
    have hne : p1 i ≠ p2 i := by simpa using List.find?_some hf
    refine iff_of_false ?_ fun h => hne (h i hi)
    rw [Option.map_some, Option.getD_some]
    split <;> decide

/-- The table at `p` has the signature. -/
def HasSignature (s : State) (signature : Nat → BitVec 8) (p : Word) : Prop :=
  ∀ k < 4, s.loadByte .identity (p + BitVec.ofNat 64 k) = signature k

instance (s : State) (signature : Nat → BitVec 8) (p : Word) : Decidable (HasSignature s signature p) :=
  inferInstanceAs (Decidable (∀ k < 4, _))

/-- The number of slots of the root table. -/
def tableCount (s : State) (rsdt xsdt : Word) : Nat := (rootEntries s rsdt xsdt).toNat

/-- The pointers in the slots of the root table. -/
def tablePtrs (s : State) (rsdt xsdt : Word) : List Word := (List.range (tableCount s rsdt xsdt)).map (tablePtr s rsdt xsdt)

def rootTable (rsdt xsdt : Word) : Word := if xsdt = 0 then rsdt else xsdt

/-- The pointer at which the search stops: the first that is NULL or leads to the signature. -/
def stopAt (s : State) (signature : Nat → BitVec 8) (l : List Word) : Option Word :=
  l.find? fun p => p = 0 ∨ HasSignature s signature p

/-- What the search makes of the pointer at which it stops. -/
def lookupResult : Option Word → Except Halt Word
  | none => .ok 0
  | some p => if p = 0 then .error .fault else .ok p

section
variable {s : State} {signature : Nat → BitVec 8} {rsdt xsdt : Word} {i : Nat}

theorem searchTables_cons (p : Word) (l : List Word) : searchTables s signature (p :: l) =
    if p = 0 then .error .fault else if HasSignature s signature p then .ok p else searchTables s signature l := by
  have hcmp : memcmp (fun k => s.loadByte .identity (p + BitVec.ofNat 64 k)) signature 4 = 0 ↔ HasSignature s signature p :=
    memcmp_eq_zero
  rw [searchTables]
  by_cases hsig : HasSignature s signature p
  · rw [if_pos (hcmp.mpr hsig), if_pos hsig]
  · rw [if_neg fun h => hsig (hcmp.mp h), if_neg hsig]

theorem searchTables_eq (l : List Word) : searchTables s signature l = lookupResult (stopAt s signature l) := by
  induction l with
  | nil => rfl
  | cons p l ih =>
    rw [searchTables_cons, stopAt, List.find?_cons]
    by_cases h0 : p = 0
    · rw [if_pos h0, decide_eq_true (Or.inl h0)]
      exact (if_pos h0).symm
    by_cases hsig : HasSignature s signature p
    · rw [if_neg h0, if_pos hsig, decide_eq_true (Or.inr hsig)]
      exact (if_neg h0).symm
    · rw [if_neg h0, if_neg hsig, decide_eq_false (not_or.mpr ⟨h0, hsig⟩)]
      exact ih

theorem rootTable_eq_zero : rootTable rsdt xsdt = 0 ↔ xsdt = 0 ∧ rsdt = 0 := by
  rw [rootTable]
  split
  · next h => exact ⟨fun hr => ⟨h, hr⟩, fun hr => hr.2⟩
  · next h => exact ⟨fun hx => absurd hx h, fun hx => absurd hx.1 h⟩

theorem findAcpiTable_eq (hroot : rootTable rsdt xsdt ≠ 0) :
    findAcpiTable s signature rsdt xsdt = lookupResult (stopAt s signature (tablePtrs s rsdt xsdt)) := by
  rw [findAcpiTable, if_neg fun h => hroot (rootTable_eq_zero.mpr h), searchTables_eq]
  rfl

theorem findAcpiTable_noRoot (hroot : rootTable rsdt xsdt = 0) : findAcpiTable s signature rsdt xsdt = .error .fault :=
  if_pos (rootTable_eq_zero.mp hroot)

theorem stopAt_tablePtrs (hi : i < tableCount s rsdt xsdt)
    (h : tablePtr s rsdt xsdt i = 0 ∨ HasSignature s signature (tablePtr s rsdt xsdt i))
    (hfirst : ∀ j < i, ¬(tablePtr s rsdt xsdt j = 0 ∨ HasSignature s signature (tablePtr s rsdt xsdt j))) :
    stopAt s signature (tablePtrs s rsdt xsdt) = some (tablePtr s rsdt xsdt i) := by
  have hfind : (List.range (tableCount s rsdt xsdt)).find?
      ((fun p => decide (p = 0 ∨ HasSignature s signature p)) ∘ tablePtr s rsdt xsdt) = some i := by
    rw [List.find?_range_eq_some]
    exact ⟨decide_eq_true h, List.mem_range.mpr hi, fun j hj => by simpa using hfirst j hj⟩
  rw [stopAt, tablePtrs, List.find?_map, hfind]
  rfl

/-- The table of slot `i` is found when it is the first with the signature and no slot before it is NULL. -/
theorem findAcpiTable_of_first (hroot : rootTable rsdt xsdt ≠ 0) (hi : i < tableCount s rsdt xsdt)
    (h : HasSignature s signature (tablePtr s rsdt xsdt i)) (h0 : ∀ j ≤ i, tablePtr s rsdt xsdt j ≠ 0)
    (hfirst : ∀ j < i, ¬HasSignature s signature (tablePtr s rsdt xsdt j)) :
    findAcpiTable s signature rsdt xsdt = .ok (tablePtr s rsdt xsdt i) := by
  rw [findAcpiTable_eq hroot, stopAt_tablePtrs hi (Or.inr h) fun j hj => not_or.mpr ⟨h0 j hj.le, hfirst j hj⟩]
  exact if_neg (h0 i le_rfl)

end

end Neobird64
