import Mathlib.Data.List.TakeWhile
import Mathlib.Tactic.Common

/-! Texts made from a template: symbols that are always the same, and fields. When each field ends where its next
    symbol begins, the fields are read back from the text. -/

namespace Template

inductive Piece (α : Type)
  | symbol (a : α)
  /-- A field, and the symbols that may stand in it. -/
  | field (inside : α → Bool)

section
variable {α : Type}

/-- The text with a value in each field, in order. -/
def fill : List (Piece α) → List (List α) → List α
  | [], _ => []
  | .symbol a :: t, values => a :: fill t values
  | .field _ :: t, values => values.headD [] ++ fill t values.tail

/-- The values of the fields, if the text is one of the template. -/
def scan [DecidableEq α] : List (Piece α) → List α → Option (List (List α))
  | [], text => if text = [] then some [] else none
  | .symbol a :: t, text => if text.head? = some a then scan t text.tail else none
  | .field inside :: t, text => (scan t (text.dropWhile inside)).map fun values => text.takeWhile inside :: values

/-- A field has a symbol from outside of it right behind. -/
def endsField (inside : α → Bool) : List (Piece α) → Bool
  | [] => true
  | .symbol a :: _ => !inside a
  | .field _ :: _ => false

def separated : List (Piece α) → Bool
  | [] => true
  | .symbol _ :: t => separated t
  | .field inside :: t => endsField inside t && separated t

/-- There is one value for each field, of symbols that may stand in it. -/
inductive Fits : List (Piece α) → List (List α) → Prop
  | nil : Fits [] []
  | symbol {t : List (Piece α)} {values : List (List α)} (a : α) (h : Fits t values) : Fits (.symbol a :: t) values
  | field {inside : α → Bool} {v : List α} {t : List (Piece α)} {values : List (List α)} (hv : ∀ a ∈ v, inside a = true)
      (h : Fits t values) : Fits (.field inside :: t) (v :: values)

variable {t t' : List (Piece α)} {values values' : List (List α)} {inside : α → Bool} {v : List α}

theorem Fits.append (h : Fits t values) (h' : Fits t' values') : Fits (t ++ t') (values ++ values') := by
  induction h with
  | nil => exact h'
  | symbol a h ih => exact .symbol a ih
  | field hv h ih => exact .field hv ih

theorem fill_append (h : Fits t values) : fill (t ++ t') (values ++ values') = fill t values ++ fill t' values' := by
  induction h with
  | nil => rfl
  | symbol a h ih => exact congrArg (a :: ·) ih
  | @field inside v t values hv h ih =>
    rw [List.cons_append, List.cons_append, fill, fill, List.headD_cons, List.tail_cons, List.headD_cons, List.tail_cons, ih,
      List.append_assoc]

/-- The text behind a field has nothing that belongs to it. -/
theorem endsField_fill (values : List (List α)) (h : endsField inside t = true) : ∀ a ∈ (fill t values).head?, inside a = false := by
  cases t with
  | nil => exact nofun
  | cons p t =>
    cases p with
    | symbol b =>
      intro a ha
      simp only [fill, List.head?_cons, Option.mem_def, Option.some.injEq] at ha
      subst ha
      simpa [endsField] using h
    | field _ => cases h

theorem takeWhile_behind {l : List α} (hv : ∀ a ∈ v, inside a = true) (hl : ∀ a ∈ l.head?, inside a = false) :
    (v ++ l).takeWhile inside = v ∧ (v ++ l).dropWhile inside = l := by
  rw [List.takeWhile_append_of_pos hv, List.dropWhile_append_of_pos hv]
  cases l with
  | nil => exact ⟨List.append_nil v, rfl⟩
  | cons a l =>
    have ha : ¬inside a = true := by simp [hl a rfl]
    rw [List.takeWhile_cons_of_neg ha, List.dropWhile_cons_of_neg ha]
    exact ⟨List.append_nil v, rfl⟩

/-- The round trip. -/
theorem scan_fill [DecidableEq α] (hsep : separated t = true) (h : Fits t values) : scan t (fill t values) = some values := by
  induction h with
  | nil => rfl
  | symbol a h ih =>
    rw [fill, scan, List.head?_cons, if_pos rfl, List.tail_cons]
    exact ih hsep
  | @field inside v t values hv h ih =>
    obtain ⟨hends, hsep⟩ := (Bool.and_eq_true _ _).mp hsep
    obtain ⟨htake, hdrop⟩ := takeWhile_behind hv (endsField_fill values hends)
    rw [fill, List.headD_cons, List.tail_cons, scan, htake, hdrop, ih hsep]
    rfl

end

end Template
