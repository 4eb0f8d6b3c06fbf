import Mathlib.Data.List.Basic

/-! Loops that collect elements in an array: an element that is kept goes to the next index. -/

variable {σ α β : Type}

/-- Each step puts an element with `keep` at index `next` of the array, and counts it. -/
structure Collects (step : σ → α → σ) (array : σ → Nat → β) (next : σ → Nat) (keep : α → Bool) (put : β → α → β) : Prop where
  next_step : ∀ s x, next (step s x) = if keep x then next s + 1 else next s
  array_step : ∀ s x j, array (step s x) j = if keep x ∧ j = next s then put (array s j) x else array s j

namespace Collects
variable {step : σ → α → σ} {array : σ → Nat → β} {next : σ → Nat} {keep : α → Bool} {put : β → α → β}
variable (h : Collects step array next keep put)
include h

/-- After the loop the kept elements are in the array, in order, from the index on at which it began. -/
theorem array_foldl (l : List α) (s : σ) (j : Nat) : array (l.foldl step s) j =
    if j < next s then array s j
    else (((l.filter keep)[j - next s]?).map (put (array s j))).getD (array s j) := by
  induction l generalizing s with
  | nil => simp
  | cons x l ih =>
    rw [List.foldl_cons, ih, h.next_step, h.array_step, List.filter_cons]
    by_cases hx : keep x = true
    · rw [if_pos hx, if_pos hx]
      rcases Nat.lt_trichotomy j (next s) with hlt | heq | hgt
      · have hne : ¬(keep x = true ∧ j = next s) := fun h => by omega
        rw [if_pos (show j < next s + 1 by omega), if_pos hlt, if_neg hne]
      · have hsub : j - next s = 0 := by omega
        rw [if_pos (show j < next s + 1 by omega), if_neg (show ¬j < next s by omega), if_pos ⟨hx, heq⟩, hsub,
          List.getElem?_cons_zero, Option.map_some, Option.getD_some]
      · have hne : ¬(keep x = true ∧ j = next s) := fun h => by omega
        obtain ⟨k, hk⟩ : ∃ k, j - next s = k + 1 := ⟨j - next s - 1, by omega⟩
        have hk' : j - (next s + 1) = k := by omega
        rw [if_neg (show ¬j < next s + 1 by omega), if_neg (show ¬j < next s by omega), if_neg hne, hk, hk',
          List.getElem?_cons_succ]
    · have hne : ¬(keep x = true ∧ j = next s) := fun h => hx h.1
      rw [if_neg hx, if_neg hne, if_neg hx]

end Collects
