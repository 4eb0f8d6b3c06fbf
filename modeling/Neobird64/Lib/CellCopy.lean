import Mathlib.Logic.Function.Basic
import Mathlib.Tactic.Common

/-! Copying cells one after the other inside one memory, where the cells that are read and those that are written
    may be the same. -/

namespace CellCopy
variable {ι κ ν : Type} [DecidableEq κ] {src dst : ι → κ} {l : List ι} {m : κ → ν} {i : ι} {a : κ}

/-- The memory after cell `src i` is copied to cell `dst i`, for each `i` of the list in order. -/
def copy (src dst : ι → κ) (l : List ι) (m : κ → ν) : κ → ν :=
  l.foldl (fun m i => Function.update m (dst i) (m (src i))) m

/-- No cell is written before it is read, and none twice. -/
structure InOrder (src dst : ι → κ) (l : List ι) : Prop where
  unread : l.Pairwise fun i j => dst i ≠ src j
  once : l.Pairwise fun i j => dst i ≠ dst j

theorem copy_cons : copy src dst (i :: l) m = copy src dst l (Function.update m (dst i) (m (src i))) := rfl

theorem copy_of_outside (h : ∀ i ∈ l, a ≠ dst i) : copy src dst l m a = m a := by
  induction l generalizing m with
  | nil => rfl
  | cons i l ih =>
    rw [copy_cons, ih fun j hj => h j (List.mem_cons_of_mem _ hj)]
    exact Function.update_of_ne (h i List.mem_cons_self) _ _

/-- In such an order each cell gets what its source held at first. -/
theorem copy_of_mem (h : InOrder src dst l) (hi : i ∈ l) : copy src dst l m (dst i) = m (src i) := by
  induction l generalizing m with
  | nil => cases hi
  | cons j l ih =>
    obtain ⟨hunread, hunread'⟩ := List.pairwise_cons.mp h.unread
    obtain ⟨honce, honce'⟩ := List.pairwise_cons.mp h.once
    rw [copy_cons]
    rcases List.mem_cons.mp hi with rfl | hi
    · rw [copy_of_outside honce]
      exact Function.update_self _ _ _
    · rw [ih ⟨hunread', honce'⟩ hi]
      exact Function.update_of_ne (hunread i hi).symm _ _

/-! ### A copy onto its own source -/

theorem copy_range_succ {src dst : Nat → κ} (n : Nat) : copy src dst (List.range (n + 1)) m =
    Function.update (copy src dst (List.range n) m) (dst n) (copy src dst (List.range n) m (src n)) := by
  rw [copy, List.range_succ, List.foldl_append]
  rfl

/-- When the cells that are written are the sources from number `d` on, the first `d` sources are repeated. -/
theorem copy_range_periodic {src dst : Nat → κ} {d n k : Nat} (hd : 0 < d) (hshift : ∀ i, src (i + d) = dst i)
    (hfresh : ∀ i < d, i < n → ∀ j < n, src i ≠ dst j) (honce : ∀ i < n, ∀ j < n, dst i = dst j → i = j) (hk : k ≤ n) :
    ∀ i < k, copy src dst (List.range k) m (dst i) = m (src (i % d)) := by
  induction k with
  | zero => exact nofun
  | succ k ih =>
    intro i hi
    rw [copy_range_succ]
    rcases Nat.lt_or_eq_of_le (Nat.lt_succ_iff.mp hi) with hlt | rfl
    · rw [Function.update_of_ne fun heq => absurd (honce i (by omega) k (by omega) heq) (by omega)]
      exact ih (by omega) i hlt
    · rw [Function.update_self]
      rcases Nat.lt_or_ge i d with hlt | hge
      · -- The source is still as it was.
        rw [Nat.mod_eq_of_lt hlt]
        exact copy_of_outside fun j hj => hfresh i hlt (by omega) j (by have := List.mem_range.mp hj; omega)
      · -- The source is what was written `d` cells before.
        have hback : src i = dst (i - d) := by
          rw [← hshift, Nat.sub_add_cancel hge]
        rw [hback, ih (by omega) (i - d) (by omega), Nat.mod_eq_sub_mod hge]

end CellCopy
