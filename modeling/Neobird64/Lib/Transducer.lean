import Mathlib.Algebra.GroupWithZero.Nat
import Neobird64.Lib.Loop

/-! Machines that read one symbol at a time and write output. A step may fail, and then the whole run does. -/

namespace Transducer
open Loop
variable {ε σ τ α β : Type}

/-- The state after the symbols, in order, and the output of all steps. -/
def run (step : σ → α → Except ε (σ × List β)) (s : σ) : List α → Except ε (σ × List β)
  | [] => .ok (s, [])
  | a :: l => do
    let r ← step s a
    let r' ← run step r.1 l
    return (r'.1, r.2 ++ r'.2)

section
variable {step : σ → α → Except ε (σ × List β)} {s t : σ} {a : α} {l l' : List α} {out : List β}

@[simp] theorem run_nil : run step s [] = .ok (s, []) := rfl

theorem run_cons : run step s (a :: l) =
    (step s a).bind fun r => (run step r.1 l).map fun r' => (r'.1, r.2 ++ r'.2) := by
  rw [run]
  cases step s a with
  | error e => rfl
  | ok r =>
    rw [ok_bind]
    cases h : run step r.1 l <;> simp [Except.bind, Except.map, bind, pure, Except.pure, h]

theorem run_cons_of_ok (h : step s a = .ok (t, out)) :
    run step s (a :: l) = (run step t l).map fun r => (r.1, out ++ r.2) := by
  rw [run_cons, h]
  rfl

theorem run_cons_of_silent (h : step s a = .ok (t, [])) : run step s (a :: l) = run step t l := by
  rw [run_cons_of_ok h]
  cases run step t l <;> rfl

theorem run_singleton : run step s [a] = step s a := by
  rw [run_cons]
  cases step s a with
  | error e => rfl
  | ok r => simp only [Except.bind, run_nil, Except.map, List.append_nil]

theorem run_append : run step s (l ++ l') =
    (run step s l).bind fun r => (run step r.1 l').map fun r' => (r'.1, r.2 ++ r'.2) := by
  induction l generalizing s with
  | nil => cases h : run step s l' <;> simp [Except.bind, Except.map, h]
  | cons a l ih =>
    rw [List.cons_append, run_cons, run_cons]
    cases step s a with
    | error e => rfl
    | ok r =>
      simp only [Except.bind, ih]
      cases run step r.1 l with
      | error e => rfl
      | ok r₁ => cases h : run step r₁.1 l' <;> simp [Except.map, h]

/-- A machine whose steps do what those of another one do, on the states that `f` gives. -/
theorem run_of_steps {step' : τ → α → Except ε (τ × List β)} (f : σ → τ)
    (h : ∀ a ∈ l, ∀ s, step' (f s) a = (step s a).map fun r => (f r.1, r.2)) :
    run step' (f s) l = (run step s l).map fun r => (f r.1, r.2) := by
  induction l generalizing s with
  | nil => rfl
  | cons a l ih =>
    rw [run_cons, run_cons, h a List.mem_cons_self]
    cases step s a with
    | error e => rfl
    | ok r =>
      simp only [Except.bind, Except.map]
      rw [ih fun a ha => h a (List.mem_cons_of_mem _ ha)]
      cases run step r.1 l <;> rfl

end

/-! ### Two machines side by side -/

/-- The same error, or the same output and states that `R` relates. -/
inductive Agree (R : σ → τ → Prop) : Except ε (σ × List β) → Except ε (τ × List β) → Prop
  | ok {s : σ} {t : τ} {out : List β} (h : R s t) : Agree R (.ok (s, out)) (.ok (t, out))
  | error {e : ε} : Agree R (.error e) (.error e)

theorem Agree.imp {R R' : σ → τ → Prop} {x : Except ε (σ × List β)} {y : Except ε (τ × List β)} (hxy : Agree R x y)
    (h : ∀ s t out, x = .ok (s, out) → y = .ok (t, out) → R s t → R' s t) : Agree R' x y := by
  cases hxy with
  | ok hR => exact .ok (h _ _ _ rfl rfl hR)
  | error => exact .error

theorem Agree.of_ok {R : σ → τ → Prop} {s : σ} {out : List β} {y : Except ε (τ × List β)}
    (h : Agree R (.ok (s, out)) y) : ∃ t, y = .ok (t, out) ∧ R s t := by
  cases h with
  | ok hR => exact ⟨_, rfl, hR⟩

/-- Every symbol is one that `Ok` allows in the state in which the machine reads it. -/
def Allowed (step : σ → α → Except ε (σ × List β)) (Ok : σ → α → Prop) (s : σ) : List α → Prop
  | [] => True
  | a :: l => Ok s a ∧ ∀ r, step s a = .ok r → Allowed step Ok r.1 l

/-- The simulation rule: steps that agree make runs that agree, on the inputs that the second machine allows. -/
theorem run_agree {step : σ → α → Except ε (σ × List β)} {step' : τ → α → Except ε (τ × List β)}
    {R : σ → τ → Prop} {Ok : τ → α → Prop} (h : ∀ s t a, R s t → Ok t a → Agree R (step s a) (step' t a)) :
    ∀ {l : List α} {s : σ} {t : τ}, R s t → Allowed step' Ok t l → Agree R (run step s l) (run step' t l)
  | [], _, _, hR, _ => .ok hR
  | a :: l, s, t, hR, hall => by
    have hstep := h s t a hR hall.1
    have hrest := hall.2
    rw [run_cons, run_cons]
    generalize step s a = r at hstep
    generalize step' t a = r' at hstep hrest
    cases hstep with
    | error => exact .error
    | @ok s₁ t₁ out hR₁ =>
      have hrun := run_agree h hR₁ (hrest _ rfl)
      simp only [Except.bind]
      generalize run step s₁ l = q at hrun
      generalize run step' t₁ l = q' at hrun
      cases hrun with
      | error => exact .error
      | ok hR₂ => exact .ok hR₂

/-! ### Machines that use up a list -/

/-- When each symbol takes so many entries from the front of a list, a run takes the sum of them. -/
theorem run_consumes {step : List τ → α → Except ε (List τ × List β)} (need : α → Nat)
    (h : ∀ a args, need a ≤ args.length → ∃ out, step args a = .ok (args.drop (need a), out))
    {l : List α} {args : List τ} (hlength : (l.map need).sum ≤ args.length) :
    ∃ out, run step args l = .ok (args.drop (l.map need).sum, out) := by
  induction l generalizing args with
  | nil => exact ⟨[], rfl⟩
  | cons a l ih =>
    rw [List.map_cons, List.sum_cons] at hlength ⊢
    obtain ⟨out, hstep⟩ := h a args (by omega)
    have hrest : (l.map need).sum ≤ (args.drop (need a)).length := by
      rw [List.length_drop]
      omega
    obtain ⟨out', hrun⟩ := ih hrest
    refine ⟨out ++ out', ?_⟩
    rw [run_cons_of_ok hstep, hrun, List.drop_drop]
    rfl

end Transducer
