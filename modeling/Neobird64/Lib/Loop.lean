import Mathlib.Data.List.Basic
import Mathlib.Logic.Function.Iterate
import Mathlib.Tactic.Common

/-! Loops over a state whose body may fail. A `for` loop is run with fuel: it fails with `hang` when it
    has not ended before the fuel is used up. A loop whose trip count is known is a fold over its
    indices, and an invariant that every step keeps holds of what the fold returns. -/

namespace Loop
variable {ε σ ι α β : Type}

theorem bind_eq_ok {x : Except ε α} {f : α → Except ε β} {b : β} :
    (x >>= f) = .ok b ↔ ∃ a, x = .ok a ∧ f a = .ok b := by
  cases x with
  | error e => exact ⟨nofun, fun ⟨_, h, _⟩ => nomatch h⟩
  | ok a => exact ⟨fun h => ⟨a, rfl, h⟩, fun ⟨_, h, hf⟩ => by cases h; exact hf⟩

theorem map_eq_ok {x : Except ε α} {f : α → β} {b : β} : x.map f = .ok b ↔ ∃ a, x = .ok a ∧ f a = b := by
  cases x with
  | error e => exact ⟨nofun, fun ⟨_, h, _⟩ => nomatch h⟩
  | ok a => exact ⟨fun h => ⟨a, rfl, Except.ok.inj h⟩, fun ⟨_, h, hf⟩ => by cases h; exact congrArg Except.ok hf⟩

theorem bind_congr_ok {x : Except ε α} {f g : α → Except ε β} (h : ∀ a, x = .ok a → f a = g a) :
    (x >>= f) = (x >>= g) := by
  cases x with
  | error e => rfl
  | ok a => exact h a rfl

@[simp] theorem ok_bind {a : α} {f : α → Except ε β} : ((Except.ok a : Except ε α) >>= f) = f a := rfl

/-- `for (i; cond i; i = next i) body`, given up with `hang` after `fuel` tests of the condition. -/
def forLoop (hang : ε) (cond : ι → Bool) (next : ι → ι) (body : σ → ι → Except ε σ) :
    Nat → ι → σ → Except ε σ
  | 0, _, _ => .error hang
  | fuel + 1, i, s =>
    if cond i then do
      let s ← body s i
      forLoop hang cond next body fuel (next i) s
    else .ok s

/-- A loop that runs over the indices `f 0, …, f (n - 1)` and then stops is a fold over them. -/
theorem forLoop_eq_foldlM {hang : ε} {cond : ι → Bool} {next : ι → ι} {body : σ → ι → Except ε σ} :
    ∀ {n fuel : Nat} {f : Nat → ι} {s : σ}, (∀ k < n, next (f k) = f (k + 1)) →
      (∀ k < n, cond (f k) = true) → cond (f n) = false → n < fuel →
      forLoop hang cond next body fuel (f 0) s = ((List.range n).map f).foldlM body s
  | 0, fuel + 1, f, s, _, _, hstop, _ => by simp [forLoop, hstop]; rfl
  | n + 1, fuel + 1, f, s, hnext, hcond, hstop, hfuel => by
    rw [forLoop, if_pos (hcond 0 (by omega)), hnext 0 (by omega), List.range_succ_eq_map, List.map_cons,
      List.map_map, List.foldlM_cons]
    congr 1
    funext t
    exact forLoop_eq_foldlM (f := fun k => f (k + 1)) (fun k hk => hnext (k + 1) (by omega))
      (fun k hk => hcond (k + 1) (by omega)) hstop (by omega)

/-- A loop whose body cannot fail returns exactly when its condition fails before the fuel is used up. -/
theorem forLoop_returns_iff {hang : ε} {cond : ι → Bool} {next : ι → ι} {body : σ → ι → σ} :
    ∀ {fuel : Nat} {i : ι} {s : σ}, (∃ t, forLoop hang cond next (fun s i => .ok (body s i)) fuel i s = .ok t) ↔
      ∃ n < fuel, cond (next^[n] i) = false
  | 0, _, _ => iff_of_false (fun ⟨_, h⟩ => nomatch h) (fun ⟨_, h, _⟩ => nomatch h)
  | fuel + 1, i, s => by
    rw [forLoop]
    cases hcond : cond i with
    | false => exact iff_of_true ⟨s, rfl⟩ ⟨0, Nat.succ_pos fuel, hcond⟩
    | true =>
      rw [if_pos rfl, ok_bind, forLoop_returns_iff]
      constructor
      · rintro ⟨n, hn, h⟩
        exact ⟨n + 1, by omega, h⟩
      · rintro ⟨n, hn, h⟩
        cases n with
        | zero =>
          rw [Function.iterate_zero_apply, hcond] at h
          cases h
        | succ n => exact ⟨n, by omega, h⟩

/-- The invariant rule of a loop that returns. -/
theorem forLoop_inv (P : σ → Prop) {hang : ε} {cond : ι → Bool} {next : ι → ι} {body : σ → ι → Except ε σ}
    (hstep : ∀ s i s', P s → body s i = .ok s' → P s') :
    ∀ {fuel : Nat} {i : ι} {s t : σ}, P s → forLoop hang cond next body fuel i s = .ok t → P t
  | 0, _, _, _, _, h => nomatch h
  | fuel + 1, i, s, t, hs, h => by
    rw [forLoop] at h
    split at h
    · obtain ⟨s', hi, hl⟩ := bind_eq_ok.mp h
      exact forLoop_inv P hstep (hstep s i s' hs hi) hl
    · cases h
      exact hs

/-- The invariant rule of a fold that returns. -/
theorem foldlM_inv (P : σ → Prop) {body : σ → ι → Except ε σ} :
    ∀ {l : List ι} {s t : σ}, (∀ s i s', i ∈ l → P s → body s i = .ok s' → P s') → P s →
      l.foldlM body s = .ok t → P t
  | [], s, t, _, hs, h => by cases h; exact hs
  | i :: l, s, t, hstep, hs, h => by
    rw [List.foldlM_cons, bind_eq_ok] at h
    obtain ⟨s', hi, hl⟩ := h
    exact foldlM_inv P (fun s j s'' hj => hstep s j s'' (List.mem_cons_of_mem _ hj))
      (hstep s i s' List.mem_cons_self hs hi) hl

/-- The invariant rule of a fold that cannot fail. -/
theorem foldl_inv (P : σ → Prop) {body : σ → ι → σ} :
    ∀ {l : List ι} {s : σ}, (∀ s, ∀ i ∈ l, P s → P (body s i)) → P s → P (l.foldl body s)
  | [], _, _, hs => hs
  | i :: l, s, hstep, hs =>
    foldl_inv P (l := l) (fun t j hj => hstep t j (List.mem_cons_of_mem _ hj)) (hstep s i List.mem_cons_self hs)

/-- Two bodies that agree under an invariant of the second give the same fold. -/
theorem foldlM_congr (P : σ → Prop) {body body' : σ → ι → Except ε σ} :
    ∀ {l : List ι} {s : σ}, (∀ s i, i ∈ l → P s → body s i = body' s i) →
      (∀ s i s', i ∈ l → P s → body' s i = .ok s' → P s') → P s → l.foldlM body s = l.foldlM body' s
  | [], _, _, _, _ => rfl
  | i :: l, s, heq, hstep, hs => by
    rw [List.foldlM_cons, List.foldlM_cons, heq s i List.mem_cons_self hs]
    cases hi : body' s i with
    | error e => rfl
    | ok s' =>
      exact foldlM_congr P (fun s j hj => heq s j (List.mem_cons_of_mem _ hj))
        (fun s j s'' hj => hstep s j s'' (List.mem_cons_of_mem _ hj)) (hstep s i s' List.mem_cons_self hs hi)

/-- A body that never fails makes the loop a plain fold. -/
theorem foldlM_ok {body : σ → ι → σ} : ∀ {l : List ι} {s : σ},
    (l.foldlM (fun s i => (.ok (body s i) : Except ε σ)) s) = .ok (l.foldl body s)
  | [], _ => rfl
  | i :: l, s => by
    rw [List.foldlM_cons, ok_bind, foldlM_ok, List.foldl_cons]

/-! ### Loops without an index -/

/-- `while (cond s) body`, given up with `hang` after `fuel` tests of the condition. -/
def whileLoop (hang : ε) (cond : σ → Bool) (body : σ → Except ε σ) : Nat → σ → Except ε σ
  | 0, _ => .error hang
  | fuel + 1, s =>
    if cond s then do
      let s ← body s
      whileLoop hang cond body fuel s
    else .ok s

/-- The rule of total correctness: each round keeps the invariant and makes the measure smaller. -/
theorem whileLoop_total (Inv : σ → Prop) (measure : σ → Nat) {hang : ε} {cond : σ → Bool} {body : σ → Except ε σ}
    (hstep : ∀ s, Inv s → cond s = true → ∃ s', body s = .ok s' ∧ Inv s' ∧ measure s' < measure s) :
    ∀ {fuel : Nat} {s : σ}, Inv s → measure s < fuel →
      ∃ t, whileLoop hang cond body fuel s = .ok t ∧ Inv t ∧ cond t = false
  | 0, _, _, hfuel => absurd hfuel (Nat.not_lt_zero _)
  | fuel + 1, s, hs, hfuel => by
    rw [whileLoop]
    cases hcond : cond s with
    | false => exact ⟨s, rfl, hs, hcond⟩
    | true =>
      obtain ⟨s', hbody, hs', hlt⟩ := hstep s hs hcond
      rw [if_pos rfl, hbody, ok_bind]
      exact whileLoop_total Inv measure hstep hs' (by omega)

/-- A loop whose condition holds after every round never ends. -/
theorem whileLoop_hang (Inv : σ → Prop) {hang : ε} {cond : σ → Bool} {body : σ → Except ε σ}
    (hstep : ∀ s, Inv s → cond s = true ∧ ∃ s', body s = .ok s' ∧ Inv s') :
    ∀ {fuel : Nat} {s : σ}, Inv s → whileLoop hang cond body fuel s = .error hang
  | 0, _, _ => rfl
  | fuel + 1, s, hs => by
    obtain ⟨hcond, s', hbody, hs'⟩ := hstep s hs
    rw [whileLoop, if_pos hcond, hbody, ok_bind]
    exact whileLoop_hang Inv hstep hs'

/-! ### A test that has an effect -/

/-- `for (i; test i; i = next i) body` where the test changes the state too. -/
def testLoop (hang : ε) (test : σ → ι → σ × Bool) (next : ι → ι) (body : σ → ι → σ) : Nat → ι → σ → Except ε σ
  | 0, _, _ => .error hang
  | fuel + 1, i, s =>
    if (test s i).2 then testLoop hang test next body fuel (next i) (body (test s i).1 i) else .ok (test s i).1

/-- A loop that runs over the indices `f 0, …, f (n - 1)` and then stops keeps what each round keeps. -/
theorem testLoop_inv {hang : ε} {test : σ → ι → σ × Bool} {next : ι → ι} {body : σ → ι → σ} {f : Nat → ι} {n : Nat}
    (Inv : Nat → σ → Prop) (hnext : ∀ k < n, next (f k) = f (k + 1))
    (htest : ∀ k ≤ n, ∀ s, Inv k s → ((test s (f k)).2 = true ↔ k < n) ∧ Inv k (test s (f k)).1)
    (hbody : ∀ k < n, ∀ s, Inv k s → Inv (k + 1) (body s (f k))) :
    ∀ {m k fuel : Nat} {s : σ}, k + m = n → m < fuel → Inv k s →
      ∃ t, testLoop hang test next body fuel (f k) s = .ok t ∧ Inv n t
  | 0, k, fuel + 1, s, hm, _, hs => by
    obtain rfl : k = n := by omega
    obtain ⟨hstop, hinv⟩ := htest k (Nat.le_refl k) s hs
    rw [testLoop, if_neg fun hgo => Nat.lt_irrefl k (hstop.mp hgo)]
    exact ⟨_, rfl, hinv⟩
  | m + 1, k, fuel + 1, s, hm, hfuel, hs => by
    obtain ⟨hgo, hinv⟩ := htest k (by omega) s hs
    rw [testLoop, if_pos (hgo.mpr (by omega)), hnext k (by omega)]
    exact testLoop_inv (m := m) (k := k + 1) Inv hnext htest hbody (by omega) (by omega) (hbody k (by omega) _ hinv)

end Loop
