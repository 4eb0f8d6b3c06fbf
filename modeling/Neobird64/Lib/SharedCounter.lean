import Neobird64.Lib.Trace
import Mathlib.Logic.Function.Basic
import Mathlib.Tactic.Common

/-! A counter that processes share, each of which increments it with a load and a store. A store is stale when another
    one came after the load of its process; it puts the counter back, and updates are lost. -/

namespace SharedCounter
variable {P α β : Type} [DecidableEq P]

inductive Access (P : Type)
  | load (p : P)
  | store (p : P)
deriving DecidableEq, Repr

structure Counter (P α : Type) where
  value : α
  /-- What the processes between their load and their store have loaded. -/
  loaded : P → Option α

/-- After the load of `p`. -/
def Counter.fetch (c : Counter P α) (p : P) : Counter P α := { c with loaded := Function.update c.loaded p (some c.value) }

/-- After the store of `v` by `p`. -/
def Counter.put (c : Counter P α) (p : P) (v : α) : Counter P α := ⟨v, Function.update c.loaded p none⟩

def step (next : α → α) (c : Counter P α) : Access P → Option (Counter P α)
  | .load p =>
    match c.loaded p with
    | none => some (c.fetch p)
    | some _ => none
  | .store p => (c.loaded p).map fun v => c.put p (next v)

def isStore : Access P → Bool
  | .load _ => false
  | .store _ => true

/-- How many updates the processes have made. -/
def stores (es : List (Access P)) : Nat := es.countP isStore

/-- No store is stale, when what the processes of `fresh` have loaded is what the counter has now. -/
def serial (fresh : P → Bool) : List (Access P) → Bool
  | [] => true
  | .load p :: es => serial (Function.update fresh p true) es
  | .store p :: es => fresh p && serial (fun _ => false) es

section
variable {next : α → α} {c c' : Counter P α} {p q : P} {v w : α} {fresh : P → Bool} {a : Access P} {es : List (Access P)}

omit [DecidableEq P] in
@[simp] theorem stores_load : stores (.load p :: es) = stores es := List.countP_cons_of_neg Bool.false_ne_true

omit [DecidableEq P] in
@[simp] theorem stores_store : stores (.store p :: es) = stores es + 1 := List.countP_cons_of_pos rfl

theorem step_cases (h : step next c a = some c') :
    (∃ p, a = .load p ∧ c.loaded p = none ∧ c' = c.fetch p) ∨
    ∃ p v, a = .store p ∧ c.loaded p = some v ∧ c' = c.put p (next v) := by
  cases a with
  | load p =>
    rw [step] at h
    split at h
    · next hp => exact Or.inl ⟨p, rfl, hp, (Option.some.inj h).symm⟩
    · cases h
  | store p =>
    obtain ⟨v, hv, hc⟩ := Option.map_eq_some_iff.mp h
    exact Or.inr ⟨p, v, rfl, hv, hc.symm⟩

theorem loaded_fetch (h : (c.fetch p).loaded q = some v) : q = p ∧ v = c.value ∨ q ≠ p ∧ c.loaded q = some v := by
  by_cases hqp : q = p
  · subst hqp
    have hv : Function.update c.loaded q (some c.value) q = some v := h
    rw [Function.update_self] at hv
    exact Or.inl ⟨rfl, (Option.some.inj hv).symm⟩
  · exact Or.inr ⟨hqp, (Function.update_of_ne hqp _ _).symm.trans h⟩

theorem loaded_put (h : (c.put p w).loaded q = some v) : q ≠ p ∧ c.loaded q = some v := by
  by_cases hqp : q = p
  · subst hqp
    have hv : Function.update c.loaded q none q = some v := h
    rw [Function.update_self] at hv
    cases hv
  · exact ⟨hqp, (Function.update_of_ne hqp _ _).symm.trans h⟩

/-! ### Serial runs -/

/-- The loads of the processes of `fresh` are up to date. -/
def Current (fresh : P → Bool) (c : Counter P α) : Prop := ∀ p v, c.loaded p = some v → fresh p = true → v = c.value

theorem Current.fetch (h : Current fresh c) : Current (Function.update fresh p true) (c.fetch p) := by
  intro q v hv hq
  rcases loaded_fetch hv with ⟨-, rfl⟩ | ⟨hqp, hv⟩
  · rfl
  · rw [Function.update_of_ne hqp] at hq
    exact h q v hv hq

omit [DecidableEq P] in
theorem current_stale (c : Counter P α) : Current (fun _ => false) c := fun _ _ _ h => absurd h Bool.false_ne_true

end

/-! ### What is lost -/

/-- After `n` updates of a counter that began with 0, it is at most `n`, and less when a process has loaded it before. -/
structure Behind (n : Nat) (fresh : P → Bool) (c : Counter P Nat) : Prop where
  value : c.value ≤ n
  loaded : ∀ p v, c.loaded p = some v → v ≤ n ∧ (fresh p = true → v = c.value) ∧ (fresh p = false → v < n)

section
variable {n : Nat} {fresh : P → Bool} {c c' : Counter P Nat} {p : P} {v : Nat} {es : List (Access P)}

omit [DecidableEq P] in
theorem Behind.start (n : Nat) (fresh : P → Bool) : Behind n fresh ⟨n, fun _ => none⟩ where
  value := Nat.le_refl n
  loaded _ _ hv := by cases hv

theorem Behind.fetch (h : Behind n fresh c) : Behind n (Function.update fresh p true) (c.fetch p) where
  value := h.value
  loaded q v hv := by
    rcases loaded_fetch hv with ⟨rfl, rfl⟩ | ⟨hqp, hv⟩
    · rw [Function.update_self]
      exact ⟨h.value, fun _ => rfl, fun hf => absurd hf.symm Bool.false_ne_true⟩
    · rw [Function.update_of_ne hqp]
      exact h.loaded q v hv

theorem Behind.put (h : Behind n fresh c) (hv : c.loaded p = some v) : Behind (n + 1) (fun _ => false) (c.put p (v + 1)) where
  value := Nat.succ_le_succ (h.loaded p v hv).1
  loaded q w hw := by
    have hle := (h.loaded q w (loaded_put hw).2).1
    exact ⟨Nat.le_succ_of_le hle, fun hf => absurd hf Bool.false_ne_true, fun _ => Nat.lt_succ_of_le hle⟩

omit [DecidableEq P] in
/-- The counter has all updates after a store only if it had them before. -/
theorem Behind.put_eq_iff (h : Behind n fresh c) (hv : c.loaded p = some v) :
    v + 1 = n + 1 ↔ c.value = n ∧ fresh p = true := by
  obtain ⟨-, hfresh, hstale⟩ := h.loaded p v hv
  cases hp : fresh p with
  | true =>
    have hvalue := hfresh hp
    exact ⟨fun heq => ⟨by omega, rfl⟩, fun heq => by omega⟩
  | false =>
    have hlt := hstale hp
    exact ⟨fun heq => by omega, fun heq => absurd heq.2 Bool.false_ne_true⟩

/-- In any run the counter is at most the number of updates, and has all of them exactly when no store was stale. -/
theorem Behind.run (h : Behind n fresh c) (hrun : Trace.run (step Nat.succ) c es = some c') :
    c'.value ≤ n + stores es ∧ (c'.value = n + stores es ↔ c.value = n ∧ serial fresh es = true) := by
  induction es generalizing n fresh c with
  | nil =>
    cases hrun
    exact ⟨h.value, (and_iff_left rfl).symm⟩
  | cons a es ih =>
    obtain ⟨c₁, hstep, hrun⟩ := Trace.run_cons_eq_some.mp hrun
    rcases step_cases hstep with ⟨p, rfl, -, rfl⟩ | ⟨p, v, rfl, hv, rfl⟩
    · rw [stores_load]
      have hrest := ih h.fetch hrun
      exact hrest
    · obtain ⟨hle, heq⟩ := ih (h.put hv) hrun
      have hvalue : (c.put p (v + 1)).value = n + 1 ↔ c.value = n ∧ fresh p = true := h.put_eq_iff hv
      rw [stores_store, Nat.add_comm (stores es), ← Nat.add_assoc]
      refine ⟨hle, heq.trans ?_⟩
      rw [hvalue, serial, Bool.and_eq_true, and_assoc]

end

/-! ### Other values -/

/-- The counter with other values in place of its own. -/
def Counter.map (f : α → β) (c : Counter P α) : Counter P β := ⟨f c.value, fun p => (c.loaded p).map f⟩

section
variable {next : α → α} {next' : β → β} {f : α → β} {c : Counter P α} {es : List (Access P)}

theorem update_map (loaded : P → Option α) (p : P) (v : Option α) :
    Function.update (fun q => (loaded q).map f) p (v.map f) = fun q => (Function.update loaded p v q).map f := by
  funext q
  by_cases hqp : q = p
  · subst hqp
    rw [Function.update_self, Function.update_self]
  · rw [Function.update_of_ne hqp, Function.update_of_ne hqp]

theorem map_fetch (c : Counter P α) (p : P) : (c.map f).fetch p = (c.fetch p).map f :=
  congrArg (Counter.mk _) (update_map c.loaded p (some c.value))

theorem map_put (c : Counter P α) (p : P) (v : α) : (c.map f).put p (f v) = (c.put p v).map f :=
  congrArg (Counter.mk _) (update_map c.loaded p none)

theorem step_map (h : ∀ a, f (next a) = next' (f a)) (a : Access P) :
    step next' (c.map f) a = (step next c a).map (Counter.map f) := by
  cases a with
  | load p =>
    have hloaded : (c.map f).loaded p = (c.loaded p).map f := rfl
    rw [step, step, hloaded]
    cases c.loaded p with
    | none => exact congrArg some (map_fetch c p)
    | some v => rfl
  | store p =>
    have hloaded : (c.map f).loaded p = (c.loaded p).map f := rfl
    rw [step, step, hloaded]
    cases c.loaded p with
    | none => rfl
    | some v => exact congrArg some ((congrArg _ (h v).symm).trans (map_put c p (next v)))

theorem run_map (h : ∀ a, f (next a) = next' (f a)) :
    Trace.run (step next') (c.map f) es = (Trace.run (step next) c es).map (Counter.map f) := by
  induction es generalizing c with
  | nil => rfl
  | cons a es ih =>
    rw [Trace.run_cons, Trace.run_cons, step_map h]
    cases step next c a with
    | none => rfl
    | some c₁ => exact ih

end

end SharedCounter
