import Neobird64.Lib.FirstFit
import Mathlib.Data.Finset.Card

/-! Things that are built on demand, each from one unit of a first-fit allocator. A request for what is
    built already costs nothing; a request for a missing one fails when no unit is free. Any requests cost
    one unit for each thing that they miss, in whatever order they come. -/

namespace OnDemand
open FirstFit

/-- The units that are free, and the things that are built. -/
@[ext]
structure Stock (α κ : Type) where
  free : Finset α
  built : Finset κ

section
variable {α κ : Type} [DecidableEq κ] {s t : Stock α κ} {k : κ} {ks : List κ}

/-- What the requests miss. -/
def missing (s : Stock α κ) (ks : List κ) : Finset κ := ks.toFinset \ s.built

theorem missing_cons_of_mem (h : k ∈ s.built) : missing s (k :: ks) = missing s ks := by
  rw [missing, missing, List.toFinset_cons, Finset.insert_sdiff_of_mem _ h]

/-- A thing that is built is not missed again. -/
theorem missing_cons_of_not_mem (ks : List κ) (h : k ∉ s.built) (ht : t.built = insert k s.built) :
    (missing s (k :: ks)).card = (missing t ks).card + 1 := by
  have hsplit : missing s (k :: ks) = insert k (missing t ks) := by
    ext x
    simp only [missing, List.toFinset_cons, ht, Finset.mem_sdiff, Finset.mem_insert, List.mem_toFinset]
    by_cases hx : x = k <;> simp [hx, h]
  have hnot : k ∉ missing t ks := by simp [missing, ht]
  rw [hsplit, Finset.card_insert_of_notMem hnot]

end

variable {α κ : Type} [LinearOrder α] [DecidableEq κ]

/-- The units that are free after `n` allocations. -/
def rest (n : Nat) (S : Finset α) : Finset α := (fun S => (alloc S).2)^[n] S

/-- A request for `k`. -/
def build (s : Stock α κ) (k : κ) : Option (Stock α κ) :=
  if k ∈ s.built then some s
  else (least s.free).map fun a => ⟨s.free.erase a, insert k s.built⟩

def buildAll (s : Stock α κ) (ks : List κ) : Option (Stock α κ) := ks.foldlM build s

section
variable {s t : Stock α κ} {S : Finset α} {k : κ} {ks ks' : List κ} {a : α} {n : Nat}

@[simp] theorem rest_zero : rest 0 S = S := rfl

theorem rest_succ (h : least S = some a) : rest (n + 1) S = rest n (S.erase a) := by
  rw [rest, Function.iterate_succ_apply, alloc, h]
  rfl

/-! ### Requests -/

@[simp] theorem buildAll_nil : buildAll s [] = some s := rfl

theorem buildAll_cons : buildAll s (k :: ks) = (build s k).bind fun t => buildAll t ks := rfl

theorem buildAll_append : buildAll s (ks ++ ks') = (buildAll s ks).bind fun t => buildAll t ks' :=
  List.foldlM_append

/-- Any requests cost one unit, the least ones first, for each thing that they miss. -/
theorem buildAll_eq : buildAll s ks =
    if (missing s ks).card ≤ s.free.card then
      some ⟨rest (missing s ks).card s.free, s.built ∪ ks.toFinset⟩
    else none := by
  induction ks generalizing s with
  | nil => simp [missing]
  | cons k ks ih =>
    rw [buildAll_cons, build]
    by_cases hk : k ∈ s.built
    · have hinsert : s.built ∪ insert k ks.toFinset = s.built ∪ ks.toFinset := by
        rw [Finset.union_insert, Finset.insert_eq_of_mem (Finset.mem_union_left _ hk)]
      rw [if_pos hk, Option.bind_some, ih, missing_cons_of_mem hk, List.toFinset_cons, hinsert]
    · rw [if_neg hk]
      cases hl : least s.free with
      | none =>
        have hempty := least_eq_none.mp hl
        have hcard := missing_cons_of_not_mem (t := ⟨s.free, insert k s.built⟩) ks hk rfl
        rw [Option.map_none, Option.bind_none, if_neg]
        rw [hcard, hempty, Finset.card_empty]
        omega
      | some a =>
        have hcard := missing_cons_of_not_mem (t := ⟨s.free.erase a, insert k s.built⟩) ks hk rfl
        have hfree := Finset.card_erase_add_one (least_eq_some.mp hl).1
        have hunion : insert k s.built ∪ ks.toFinset = s.built ∪ (k :: ks).toFinset := by
          rw [List.toFinset_cons, Finset.insert_union, Finset.union_insert]
        rw [Option.map_some, Option.bind_some, ih, hcard, rest_succ hl, hunion]
        exact if_congr (by simp only; omega) rfl rfl

/-- The order of the requests does not matter, nor how often each one comes. -/
theorem buildAll_congr (h : ks.toFinset = ks'.toFinset) : buildAll s ks = buildAll s ks' := by
  rw [buildAll_eq, buildAll_eq, missing, missing, h]

end

end OnDemand
