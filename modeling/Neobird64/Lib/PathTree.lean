import Mathlib.Data.Option.Basic
import Mathlib.Data.List.Induction
import Mathlib.Tactic.Common

/-! Nodes reached from a root by paths of edge labels, up to a fixed depth. The graph is given by a
    partial child function only; it is a tree when no node is reached by two paths. Linking a node that
    is not yet reached under an unused label adds one path and keeps the tree. -/

namespace PathTree
variable {ν ι : Type}

/-- The node that `path` leads to from `x`. -/
def follow (child : ν → ι → Option ν) : ν → List ι → Option ν
  | x, [] => some x
  | x, i :: path => (child x i).bind fun y => follow child y path

section
variable {child child' : ν → ι → Option ν} {root x y : ν} {i : ι} {p q : List ι} {d : Nat}

@[simp] theorem follow_nil : follow child x [] = some x := rfl

theorem follow_append : follow child x (p ++ q) = (follow child x p).bind (follow child · q) := by
  induction p generalizing x with
  | nil => rfl
  | cons i p ih =>
    simp only [List.cons_append, follow, Option.bind_assoc]
    congr 1
    funext y
    exact ih

theorem follow_concat : follow child x (p ++ [i]) = (follow child x p).bind (child · i) := by
  rw [follow_append]
  congr 1
  funext y
  simp [follow]

theorem follow_concat_of_eq (hp : follow child root p = some x) : follow child root (p ++ [i]) = child x i := by
  rw [follow_concat, hp, Option.bind_some]

/-- No node is reached from `root` by two paths of length at most `d`. -/
def Unique (child : ν → ι → Option ν) (root : ν) (d : Nat) : Prop :=
  ∀ p q x, p.length ≤ d → q.length ≤ d → follow child root p = some x → follow child root q = some x → p = q

/-- Two child functions that agree on the nodes above depth `d` reach the same nodes down to `d`. -/
theorem follow_congr
    (h : ∀ p x, p.length < d → follow child root p = some x → ∀ i, child' x i = child x i) :
    ∀ {p : List ι}, p.length ≤ d → follow child' root p = follow child root p := by
  intro p
  induction p using List.reverseRecOn with
  | nil => intro _; rfl
  | append_singleton p i ih =>
    intro hlen
    rw [List.length_append, List.length_singleton] at hlen
    rw [follow_concat, follow_concat, ih (by omega)]
    cases hx : follow child root p with
    | none => rfl
    | some x => simp only [Option.bind_some, h p x (by omega) hx i]

/-- `child'` is `child` with the fresh node `y` linked below `x` under the unused label `i`. -/
structure Link (child child' : ν → ι → Option ν) (root : ν) (d : Nat) (p : List ι) (x : ν) (i : ι) (y : ν) :
    Prop where
  depth : p.length < d
  parent : follow child root p = some x
  unused : child x i = none
  fresh : ∀ q, q.length ≤ d → follow child root q ≠ some y
  linked : child' x i = some y
  bare : ∀ j, child' y j = none
  same : ∀ q z j, q.length < d → follow child root q = some z → ¬(z = x ∧ j = i) → child' z j = child z j

namespace Link

theorem follow_eq [DecidableEq ι] (l : Link child child' root d p x i y) (hu : Unique child root d) :
    ∀ {q : List ι}, q.length ≤ d →
      follow child' root q = if q = p ++ [i] then some y else follow child root q := by
  intro q
  induction q using List.reverseRecOn with
  | nil => intro _; simp
  | append_singleton q j ih =>
    intro hlen
    rw [List.length_append, List.length_singleton] at hlen
    rw [follow_concat, follow_concat, ih (by omega)]
    by_cases hq : q = p ++ [i]
    · -- Nothing was reached below the unused label, and the fresh node has no children.
      have hnone : follow child root q = none := by rw [hq, follow_concat_of_eq l.parent, l.unused]
      have hne : q ++ [j] ≠ p ++ [i] := by
        intro h
        have := congrArg List.length (hq ▸ h)
        simp at this
      rw [if_pos hq, if_neg hne, hnone, Option.bind_some, l.bare, Option.bind_none]
    · rw [if_neg hq]
      cases hz : follow child root q with
      | none =>
        have hne : q ++ [j] ≠ p ++ [i] := by
          intro h
          obtain ⟨rfl, -⟩ := List.append_inj' h rfl
          rw [l.parent] at hz
          cases hz
        simp [hne]
      | some z =>
        simp only [Option.bind_some]
        by_cases hqj : q ++ [j] = p ++ [i]
        · obtain ⟨rfl, hj⟩ := List.append_inj' hqj rfl
          obtain rfl : j = i := by simpa using hj
          rw [l.parent] at hz
          cases hz
          rw [if_pos rfl, l.linked]
        · rw [if_neg hqj]
          refine l.same q z j (by omega) hz fun ⟨hzx, hji⟩ => hqj ?_
          rw [hu q p x (by omega) (by have := l.depth; omega) (hzx ▸ hz) l.parent, hji]

theorem kept (l : Link child child' root d p x i y) (hu : Unique child root d) {z : ν} (hlen : q.length ≤ d)
    (hq : follow child root q = some z) : follow child' root q = some z := by
  classical
  rw [l.follow_eq hu hlen, if_neg, hq]
  rintro rfl
  rw [follow_concat_of_eq l.parent, l.unused] at hq
  cases hq

theorem unique (l : Link child child' root d p x i y) (hu : Unique child root d) : Unique child' root d := by
  classical
  intro q r z hq hr hqz hrz
  rw [l.follow_eq hu hq] at hqz
  rw [l.follow_eq hu hr] at hrz
  split at hqz <;> split at hrz
  · rename_i h1 h2
    rw [h1, h2]
  · cases hqz
    exact absurd hrz (l.fresh r hr)
  · cases hrz
    exact absurd hqz (l.fresh q hq)
  · exact hu q r z hq hr hqz hrz

end Link
end

end PathTree
