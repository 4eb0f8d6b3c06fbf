import Neobird64.Lib.Loop
import Mathlib.Logic.Function.Iterate

/-! Walks over records that say their own size. From an offset below the limit the walk goes on by the size
    that it reads there; it ends exactly when no size on its way is 0. -/

namespace RecordWalk
variable {size : Nat → Nat} {limit fuel off x : Nat}

/-- The offset after the record at `off`. -/
def step (size : Nat → Nat) (off : Nat) : Nat := off + size off

/-- The offsets of the records from `off` up to the limit. `fuel` is no less than their number. -/
def offsets (size : Nat → Nat) (limit : Nat) : Nat → Nat → List Nat
  | 0, _ => []
  | fuel + 1, off => if off < limit then off :: offsets size limit fuel (step size off) else []

theorem offsets_of_le (h : limit ≤ off) : offsets size limit fuel off = [] := by
  cases fuel with
  | zero => rfl
  | succ fuel => rw [offsets, if_neg (by omega)]

theorem bounds_of_mem : ∀ {fuel off : Nat}, x ∈ offsets size limit fuel off → off ≤ x ∧ x < limit
  | fuel + 1, off, h => by
    rw [offsets] at h
    split at h
    · rcases List.mem_cons.mp h with rfl | h
      · exact ⟨Nat.le_refl x, ‹_›⟩
      · obtain ⟨hlo, hhi⟩ := bounds_of_mem h
        rw [step] at hlo
        exact ⟨by omega, hhi⟩
    · cases h

/-- A walk reaches the limit exactly when it meets no record of size 0. -/
theorem reaches_iff : ∀ {fuel off : Nat}, limit - off ≤ fuel →
    ((∃ n, limit ≤ (step size)^[n] off) ↔ ∀ x ∈ offsets size limit fuel off, size x ≠ 0)
  | 0, off, hfuel => iff_of_true ⟨0, by rw [Function.iterate_zero_apply]; omega⟩ fun _ hx => nomatch hx
  | fuel + 1, off, hfuel => by
    by_cases hlt : off < limit
    · have hrest : size off ≠ 0 → ((∃ n, limit ≤ (step size)^[n] (step size off)) ↔
          ∀ x ∈ offsets size limit fuel (step size off), size x ≠ 0) := fun hne =>
        reaches_iff (by rw [step]; omega)
      rw [offsets, if_pos hlt, List.forall_mem_cons]
      constructor
      · rintro ⟨n, hn⟩
        have hne : size off ≠ 0 := fun h0 => by
          rw [Function.iterate_fixed (show step size off = off by rw [step, h0, Nat.add_zero])] at hn
          omega
        cases n with
        | zero =>
          rw [Function.iterate_zero_apply] at hn
          omega
        | succ n => exact ⟨hne, (hrest hne).mp ⟨n, by rwa [Function.iterate_succ_apply] at hn⟩⟩
      · rintro ⟨hne, hx⟩
        obtain ⟨n, hn⟩ := (hrest hne).mpr hx
        exact ⟨n + 1, by rwa [Function.iterate_succ_apply]⟩
    · rw [offsets_of_le (by omega)]
      exact iff_of_true ⟨0, by rw [Function.iterate_zero_apply]; omega⟩ fun _ hx => nomatch hx

section
variable {ε σ ι : Type} {hang : ε} {cond : ι → Bool} {next : ι → ι} {body : σ → ι → Except ε σ} {cursor : Nat → ι}

theorem iterate_cursor (hnext : ∀ off, next (cursor off) = cursor (step size off)) :
    ∀ {n off : Nat}, next^[n] (cursor off) = cursor ((step size)^[n] off)
  | 0, _ => rfl
  | n + 1, off => by rw [Function.iterate_succ_apply, Function.iterate_succ_apply, hnext, iterate_cursor hnext]

/-- A loop whose index follows the offsets of a walk that ends is a fold over them. -/
theorem forLoop_eq (hnext : ∀ off, next (cursor off) = cursor (step size off))
    (hcond : ∀ off, cond (cursor off) = decide (off < limit)) :
    ∀ {walkFuel fuel off : Nat} {s : σ}, limit - off ≤ walkFuel → walkFuel < fuel →
      (∀ x ∈ offsets size limit walkFuel off, size x ≠ 0) →
      Loop.forLoop hang cond next body fuel (cursor off) s =
        ((offsets size limit walkFuel off).map cursor).foldlM body s
  | 0, fuel + 1, off, s, hwalk, _, _ => by
    rw [Loop.forLoop, hcond, if_neg (by simp; omega)]
    rfl
  | walkFuel + 1, fuel + 1, off, s, hwalk, hfuel, hsize => by
    rw [Loop.forLoop, hcond]
    by_cases hlt : off < limit
    · rw [offsets, if_pos hlt] at hsize ⊢
      obtain ⟨hne, hrest⟩ := List.forall_mem_cons.mp hsize
      rw [if_pos (by simpa using hlt), List.map_cons, List.foldlM_cons, hnext]
      congr 1
      funext t
      exact forLoop_eq hnext hcond (by rw [step]; omega) (by omega) hrest
    · rw [if_neg (by simpa using hlt), offsets_of_le (by omega)]
      rfl

end

end RecordWalk
