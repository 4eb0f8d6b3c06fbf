import Mathlib.Data.Finset.Max
import Mathlib.Tactic.Common

/-! The local interrupt controller of a processor. A vector that is requested waits until the processor takes it,
    the highest one first, if its priority class is above that of every vector in service; the
    end-of-interrupt command ends the highest vector in service. -/

namespace InterruptController

/-- The vectors that are requested, and those that are in service. -/
structure Controller where
  requested : Finset Nat
  inService : Finset Nat
deriving DecidableEq

def highest (S : Finset Nat) : Option Nat := if h : S.Nonempty then some (S.max' h) else none

namespace Controller

/-- A second request for a vector that waits is merged with the first. -/
def request (c : Controller) (v : Nat) : Controller := { c with requested := insert v c.requested }

/-- The vector that the processor takes, and the controller after it. -/
def accept (c : Controller) : Option (Nat × Controller) :=
  (highest c.requested).bind fun v =>
    if ∀ w ∈ c.inService, w / 16 < v / 16 then some (v, ⟨c.requested.erase v, insert v c.inService⟩) else none

def endOfInterrupt (c : Controller) : Controller :=
  match highest c.inService with
  | some v => { c with inService := c.inService.erase v }
  | none => c

end Controller

section
variable {S : Finset Nat} {c c' : Controller} {v w : Nat}

theorem highest_eq_some : highest S = some v ↔ v ∈ S ∧ ∀ w ∈ S, w ≤ v := by
  unfold highest
  split
  · rename_i h
    rw [Option.some.injEq]
    constructor
    · rintro rfl
      exact ⟨S.max'_mem h, fun w hw => S.le_max' w hw⟩
    · rintro ⟨hv, hmax⟩
      exact le_antisymm (hmax _ (S.max'_mem h)) (S.le_max' v hv)
  · rename_i h
    exact ⟨nofun, fun hv => absurd ⟨v, hv.1⟩ h⟩

theorem highest_eq_none : highest S = none ↔ S = ∅ := by
  unfold highest
  split
  · rename_i h
    exact ⟨nofun, fun hS => absurd hS h.ne_empty⟩
  · rename_i h
    exact ⟨fun _ => Finset.not_nonempty_iff_eq_empty.mp h, fun _ => rfl⟩

theorem highest_singleton : highest {v} = some v :=
  highest_eq_some.mpr ⟨Finset.mem_singleton_self v, fun _ hw => (Finset.mem_singleton.mp hw).le⟩

@[simp] theorem mem_request : w ∈ (c.request v).requested ↔ w = v ∨ w ∈ c.requested := Finset.mem_insert

@[simp] theorem request_inService : (c.request v).inService = c.inService := rfl

theorem accept_eq_some (h : c.accept = some (v, c')) : v ∈ c.requested ∧ c'.requested = c.requested.erase v ∧
    c'.inService = insert v c.inService := by
  obtain ⟨u, hu, h⟩ := Option.bind_eq_some_iff.mp h
  split at h
  · cases h
    exact ⟨(highest_eq_some.mp hu).1, rfl, rfl⟩
  · cases h

/-- With nothing in service, a requested vector is taken. -/
theorem accept_of_idle (hi : c.inService = ∅) (hr : c.requested ≠ ∅) : ∃ v c', c.accept = some (v, c') := by
  cases hv : highest c.requested with
  | none => exact absurd (highest_eq_none.mp hv) hr
  | some v =>
    refine ⟨v, ⟨c.requested.erase v, insert v c.inService⟩, ?_⟩
    rw [Controller.accept, hv, Option.bind_some, if_pos]
    rw [hi]
    exact fun w hw => absurd hw (Finset.notMem_empty w)

/-- The command ends the only vector in service. -/
theorem endOfInterrupt_of_singleton (h : c.inService = {v}) : c.endOfInterrupt = ⟨c.requested, ∅⟩ := by
  rw [Controller.endOfInterrupt, h, highest_singleton]
  simp

end

end InterruptController
