import Mathlib.Logic.Function.Basic
import Mathlib.Data.List.Induction
import Mathlib.Tactic.Common

/-! A map after a list of writes, of which the last one to each key wins. -/

namespace LastWrite
variable {κ ν : Type} [DecidableEq κ] {l l' : List (κ × ν)} {f : κ → ν} {k : κ} {v : ν}

/-- The map `f` after the writes `l`, in order. -/
def apply (l : List (κ × ν)) (f : κ → ν) : κ → ν := l.foldl (fun f w => Function.update f w.1 w.2) f

theorem apply_cons {w : κ × ν} : apply (w :: l) f = apply l (Function.update f w.1 w.2) := rfl

theorem apply_append : apply (l ++ l') f = apply l' (apply l f) := List.foldl_append

theorem apply_concat {w : κ × ν} : apply (l ++ [w]) f = Function.update (apply l f) w.1 w.2 := by
  rw [apply_append]
  rfl

theorem apply_of_not_mem (h : ∀ w ∈ l, w.1 ≠ k) : apply l f k = f k := by
  induction l generalizing f with
  | nil => rfl
  | cons w l ih =>
    have hw : w.1 ≠ k := h w List.mem_cons_self
    rw [apply, List.foldl_cons]
    refine (ih fun w' hw' => h w' (List.mem_cons_of_mem _ hw')).trans ?_
    exact Function.update_of_ne hw.symm _ _

/-- When all writes to a key agree, one of them is enough to know the outcome. -/
theorem apply_of_agree {w : κ × ν} (hw : w ∈ l) (hk : w.1 = k) (h : ∀ w ∈ l, w.1 = k → w.2 = v) :
    apply l f k = v := by
  induction l using List.reverseRecOn with
  | nil => cases hw
  | append_singleton l w' ih =>
    rw [apply_concat]
    by_cases hk' : w'.1 = k
    · rw [← hk', Function.update_self]
      exact h w' (by simp) hk'
    · rw [Function.update_of_ne (Ne.symm hk')]
      refine ih ?_ fun x hx => h x (List.mem_append_left _ hx)
      rcases List.mem_append.mp hw with hw | hw
      · exact hw
      · rw [List.mem_singleton.mp hw] at hk
        exact absurd hk hk'

/-- When all writes to each key agree, only the set of the writes matters. -/
theorem apply_congr_of_agree (hl : ∀ w, w ∈ l ↔ w ∈ l') (h : ∀ w ∈ l, ∀ w' ∈ l, w.1 = w'.1 → w.2 = w'.2) :
    apply l f = apply l' f := by
  funext k
  by_cases hk : ∃ w ∈ l, w.1 = k
  · obtain ⟨w, hw, hwk⟩ := hk
    have hagree : ∀ w' ∈ l, w'.1 = k → w'.2 = w.2 := fun w' hw' hk' => h w' hw' w hw (hk'.trans hwk.symm)
    rw [apply_of_agree hw hwk hagree, apply_of_agree ((hl w).mp hw) hwk fun w' hw' => hagree w' ((hl w').mpr hw')]
  · have hnot : ∀ w ∈ l, w.1 ≠ k := fun w hw hwk => hk ⟨w, hw, hwk⟩
    rw [apply_of_not_mem hnot, apply_of_not_mem fun w hw => hnot w ((hl w).mpr hw)]

theorem apply_append_of_not_mem (h : ∀ w ∈ l', w.1 ≠ k) : apply (l ++ l') f k = apply l f k := by
  rw [apply_append, apply_of_not_mem h]

theorem apply_congr {f' : κ → ν} (h : f k = f' k) : apply l f k = apply l f' k := by
  induction l generalizing f f' with
  | nil => exact h
  | cons w l ih =>
    rw [apply_cons, apply_cons]
    refine ih ?_
    by_cases hk : w.1 = k
    · rw [← hk, Function.update_self, Function.update_self]
    · rw [Function.update_of_ne (Ne.symm hk), Function.update_of_ne (Ne.symm hk), h]

/-- Writes to other keys can be left out of the middle. -/
theorem apply_append_middle {m : List (κ × ν)} (h : ∀ w ∈ m, w.1 ≠ k) :
    apply (l ++ (m ++ l')) f k = apply (l ++ l') f k := by
  rw [apply_append, apply_append, apply_append]
  exact apply_congr (apply_of_not_mem h)

/-- Of the groups of writes `g x`, the last one that writes to the key decides. -/
theorem apply_flatMap_of_last {ι : Type} {xs : List ι} {g : ι → List (κ × ν)} {p : ι → Bool} {x : ι} {w : κ × ν}
    (hp : ∀ y ∈ xs, p y = false → ∀ w ∈ g y, w.1 ≠ k) (hfind : xs.reverse.find? p = some x) (hw : w ∈ g x)
    (hk : w.1 = k) (h : ∀ w ∈ g x, w.1 = k → w.2 = v) : apply (xs.flatMap g) f k = v := by
  induction xs using List.reverseRecOn with
  | nil => cases hfind
  | append_singleton xs y ih =>
    rw [List.reverse_append, List.reverse_singleton, List.singleton_append, List.find?_cons] at hfind
    rw [List.flatMap_append, List.flatMap_singleton]
    cases hy : p y with
    | true =>
      rw [hy] at hfind
      cases hfind
      rw [apply_append]
      exact apply_of_agree hw hk h
    | false =>
      rw [hy] at hfind
      rw [apply_append_of_not_mem (hp y (by simp) hy)]
      exact ih (fun z hz => hp z (List.mem_append_left _ hz)) hfind

end LastWrite
