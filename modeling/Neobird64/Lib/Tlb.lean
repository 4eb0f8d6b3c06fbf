import Mathlib.Data.Option.Basic
import Mathlib.Logic.Function.Basic

/-! A cache of translations. It is filled at any time, and a flush empties it but for the entries that it keeps. As
    long as every change is followed by a flush and is none to a kept entry, nothing in the cache is out of date. -/

namespace Tlb
variable {κ ν : Type}

abbrev Cache (κ ν : Type) := κ → Option ν

/-- What is used for a key: the entry in the cache, if there is one. -/
def lookup (cache current : Cache κ ν) (k : κ) : Option ν := (cache k).or (current k)

def fill [DecidableEq κ] (cache current : Cache κ ν) (k : κ) : Cache κ ν := Function.update cache k (current k)

def evict [DecidableEq κ] (cache : Cache κ ν) (k : κ) : Cache κ ν := Function.update cache k none

def flush (keep : ν → Bool) (cache : Cache κ ν) : Cache κ ν := fun k => (cache k).filter keep

/-- Nothing in the cache is out of date. -/
def Coherent (cache current : Cache κ ν) : Prop := ∀ k e, cache k = some e → current k = some e

section
variable {cache current current' : Cache κ ν} {k : κ} {keep : ν → Bool}

theorem coherent_empty : Coherent (fun _ => none) current := nofun

namespace Coherent
variable (h : Coherent cache current)
include h

theorem lookup_eq : lookup cache current k = current k := by
  rw [lookup]
  cases hk : cache k with
  | none => rfl
  | some e => exact (h k e hk).symm

theorem fill [DecidableEq κ] (k : κ) : Coherent (Tlb.fill cache current k) current := by
  intro k' e he
  by_cases hk : k' = k
  · subst hk
    rwa [Tlb.fill, Function.update_self] at he
  · rw [Tlb.fill, Function.update_of_ne hk] at he
    exact h k' e he

theorem evict [DecidableEq κ] (k : κ) : Coherent (Tlb.evict cache k) current := by
  intro k' e he
  by_cases hk : k' = k
  · subst hk
    rw [Tlb.evict, Function.update_self] at he
    cases he
  · rw [Tlb.evict, Function.update_of_ne hk] at he
    exact h k' e he

/-- A change, and then a flush. -/
theorem flush (hkeep : ∀ k e, current k = some e → keep e = true → current' k = some e) :
    Coherent (Tlb.flush keep cache) current' := by
  intro k e he
  obtain ⟨hcache, hkept⟩ := Option.filter_eq_some_iff.mp he
  exact hkeep k e (h k e hcache) hkept

end Coherent

end

end Tlb
