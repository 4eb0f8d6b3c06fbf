import Mathlib.Data.List.Basic
import Mathlib.Data.Option.Basic

/-! Runs of a machine that takes one event at a time. An event that is not enabled has no successor, so an
    interleaving is any list of events that the machine runs. -/

namespace Trace
variable {σ ε : Type} {step : σ → ε → Option σ} {s s' t : σ} {e : ε} {es es' : List ε}

/-- The state after the events, in order. -/
def run (step : σ → ε → Option σ) (s : σ) (es : List ε) : Option σ := es.foldlM step s

@[simp] theorem run_nil : run step s [] = some s := rfl

@[simp] theorem run_cons : run step s (e :: es) = (step s e).bind fun s' => run step s' es := rfl

theorem run_append : run step s (es ++ es') = (run step s es).bind fun s' => run step s' es' := List.foldlM_append

theorem run_cons_eq_some : run step s (e :: es) = some t ↔ ∃ s', step s e = some s' ∧ run step s' es = some t := by
  rw [run_cons, Option.bind_eq_some_iff]

theorem run_append_eq_some : run step s (es ++ es') = some t ↔ ∃ s', run step s es = some s' ∧ run step s' es' = some t := by
  rw [run_append, Option.bind_eq_some_iff]

/-- The invariant rule, for the events that the run is made of. -/
theorem run_inv (P : σ → Prop) (hstep : ∀ s e s', e ∈ es → P s → step s e = some s' → P s') (hs : P s)
    (h : run step s es = some t) : P t := by
  induction es generalizing s with
  | nil =>
    cases h
    exact hs
  | cons e es ih =>
    obtain ⟨s', he, h⟩ := run_cons_eq_some.mp h
    exact ih (fun s e' s'' he' => hstep s e' s'' (List.mem_cons_of_mem _ he')) (hstep s e s' List.mem_cons_self hs he) h

/-! ### Progress -/

variable {I : σ → Prop} {P : ε → Prop} {work : σ → Nat}

/-- Every event of a kind keeps the invariant and leaves less work. -/
def Works (step : σ → ε → Option σ) (I : σ → Prop) (P : ε → Prop) (work : σ → Nat) : Prop :=
  ∀ s e s', I s → P e → step s e = some s' → I s' ∧ work s' < work s

/-- A run of such events is no longer than the work there was. -/
theorem Works.run (h : Works step I P work) (hs : I s) (hes : ∀ e ∈ es, P e) (hrun : Trace.run step s es = some t) :
    I t ∧ es.length + work t ≤ work s := by
  induction es generalizing s with
  | nil =>
    cases hrun
    exact ⟨hs, by simp⟩
  | cons e es ih =>
    obtain ⟨u, hu, hrun⟩ := run_cons_eq_some.mp hrun
    obtain ⟨hinv, hlt⟩ := h s e u hs (hes e List.mem_cons_self) hu
    obtain ⟨hend, hle⟩ := ih hinv (fun e he => hes e (List.mem_cons_of_mem _ he)) hrun
    refine ⟨hend, ?_⟩
    rw [List.length_cons]
    omega

/-- Events that need not end may stand between those that leave less work, if they leave no more. -/
theorem countP_le (work : σ → Nat) (p : ε → Bool) (hstep : ∀ s e s', step s e = some s' → work s' + (if p e then 1 else 0) ≤ work s)
    (h : Trace.run step s es = some t) : es.countP p + work t ≤ work s := by
  induction es generalizing s with
  | nil =>
    cases h
    simp
  | cons e es ih =>
    obtain ⟨u, hu, h⟩ := run_cons_eq_some.mp h
    have hfirst := hstep s e u hu
    have hrest := ih h
    rw [List.countP_cons]
    omega

/-- Such events come to an end. -/
theorem Works.exists_stuck (h : Works step I P work) (hs : I s) : ∃ es t, (∀ e ∈ es, P e) ∧ Trace.run step s es = some t ∧
    ∀ e, P e → step t e = none := by
  induction hw : work s using Nat.strongRecOn generalizing s with
  | _ n ih =>
    by_cases hstuck : ∀ e, P e → step s e = none
    · exact ⟨[], s, nofun, rfl, hstuck⟩
    · push Not at hstuck
      obtain ⟨e, he, hsome⟩ := hstuck
      obtain ⟨u, hu⟩ := Option.ne_none_iff_exists'.mp hsome
      obtain ⟨hinv, hlt⟩ := h s e u hs he hu
      obtain ⟨es, t, hes, hrun, hend⟩ := ih _ (hw ▸ hlt) hinv rfl
      exact ⟨e :: es, t, List.forall_mem_cons.mpr ⟨he, hes⟩, run_cons_eq_some.mpr ⟨u, hu, hrun⟩, hend⟩

end Trace
