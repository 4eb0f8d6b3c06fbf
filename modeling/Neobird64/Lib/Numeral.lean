import Mathlib.Data.List.Nodup
import Mathlib.Data.Nat.Digits.Lemmas
import Mathlib.Tactic.Common

/-! Numerals over an alphabet of digits, with the most significant digit first. The base is the number of digits. -/

namespace Numeral

structure Alphabet (α : Type) where
  symbols : List α
  nodup : symbols.Nodup

section
variable {α : Type}

def Alphabet.base (A : Alphabet α) : Nat := A.symbols.length

/-- The symbol of a digit, if there is one. -/
def Alphabet.symbol (A : Alphabet α) (d : Nat) : List α := A.symbols[d]?.toList

/-- The numeral of a number: its digits, and the one digit of 0. -/
def numeral (A : Alphabet α) (n : Nat) : List α :=
  if n = 0 then A.symbol 0 else (Nat.digits A.base n).reverse.flatMap A.symbol

theorem numeral_ofDigits {A : Alphabet α} {l : List Nat} (hbase : 1 < A.base) (h : ∀ d ∈ l, d < A.base) (hne : l ≠ [])
    (hlast : ∀ hne : l ≠ [], l.getLast hne ≠ 0) : numeral A (Nat.ofDigits A.base l) = l.reverse.flatMap A.symbol := by
  have hdigits := Nat.digits_ofDigits A.base hbase l h hlast
  have hvalue : Nat.ofDigits A.base l ≠ 0 := by
    intro hzero
    rw [hzero, Nat.digits_zero] at hdigits
    exact hne hdigits.symm
  rw [numeral, if_neg hvalue, hdigits]

variable [DecidableEq α]

/-- The number that is read, `none` when one of the symbols is no digit. -/
def read (A : Alphabet α) (text : List α) : Option Nat :=
  text.foldlM (fun n c => (A.symbols.idxOf? c).map fun d => n * A.base + d) 0

/-- The text is the numeral of `n` and has no leading zero unless `n` is 0. -/
structure Canonical (A : Alphabet α) (n : Nat) (text : List α) : Prop where
  value : read A text = some n
  leading : text.head? = A.symbols.head? → n = 0
  nonempty : text ≠ []

variable {A : Alphabet α} {text : List α} {c : α} {n d : Nat} {l : List Nat}

theorem read_concat (hd : d < A.base) :
    read A (text ++ A.symbol d) = (read A text).map fun n => n * A.base + d := by
  have hindex : A.symbols.idxOf? A.symbols[d] = some d := by
    rw [List.idxOf?_eq_some_iff]
    refine ⟨hd, rfl, fun j hj heq => ?_⟩
    exact hj.ne ((A.nodup.getElem_inj_iff).mp heq)
  rw [Alphabet.symbol, List.getElem?_eq_getElem hd, Option.toList_some, read, List.foldlM_append, read]
  cases text.foldlM (fun n c => (A.symbols.idxOf? c).map fun d => n * A.base + d) 0 with
  | none => rfl
  | some n =>
    rw [Option.bind_eq_bind, Option.bind_some, List.foldlM_cons, hindex]
    rfl

/-- The digits, the least significant one first, are written in reverse. -/
theorem read_symbols (h : ∀ d ∈ l, d < A.base) : read A (l.reverse.flatMap A.symbol) = some (Nat.ofDigits A.base l) := by
  induction l with
  | nil => rfl
  | cons d l ih =>
    rw [List.reverse_cons, List.flatMap_append, List.flatMap_singleton, read_concat (h d List.mem_cons_self),
      ih fun d hd => h d (List.mem_cons_of_mem _ hd), Option.map_some, Nat.ofDigits_cons, Nat.mul_comm, Nat.add_comm]

theorem canonical_symbols (h : ∀ d ∈ l, d < A.base) (hne : l ≠ []) (hlast : l.getLast hne ≠ 0) :
    Canonical A (Nat.ofDigits A.base l) (l.reverse.flatMap A.symbol) := by
  have htop : l.getLast hne < A.symbols.length := h _ (List.getLast_mem hne)
  have hfirst : l.reverse.flatMap A.symbol =
      A.symbols[l.getLast hne] :: (l.dropLast.reverse.flatMap A.symbol) := by
    nth_rewrite 1 [← List.dropLast_concat_getLast hne]
    rw [List.reverse_concat, List.flatMap_cons, Alphabet.symbol, List.getElem?_eq_getElem htop]
    rfl
  refine ⟨read_symbols h, fun hhead => ?_, by rw [hfirst]; exact List.cons_ne_nil _ _⟩
  have hzero : 0 < A.symbols.length := Nat.zero_lt_of_lt htop
  rw [hfirst, List.head?_cons, List.head?_eq_getElem?, List.getElem?_eq_getElem hzero, Option.some.injEq] at hhead
  exact absurd (A.nodup.getElem_inj_iff.mp hhead) hlast

theorem canonical_zero (h : 0 < A.base) : Canonical A 0 (A.symbol 0) where
  value := by
    have hread : read A ([] ++ A.symbol 0) = _ := read_concat h
    simpa [read] using hread
  leading _ := rfl
  nonempty := by
    rw [Alphabet.symbol, List.getElem?_eq_getElem h]
    exact List.cons_ne_nil _ _

theorem canonical_numeral (h : 1 < A.base) (n : Nat) : Canonical A n (numeral A n) := by
  by_cases hn : n = 0
  · subst hn
    exact canonical_zero (Nat.zero_lt_of_lt h)
  · have hdigits : Nat.digits A.base n ≠ [] := Nat.digits_ne_nil_iff_ne_zero.mpr hn
    have hcanonical := canonical_symbols (fun d hd => Nat.digits_lt_base h hd) hdigits (Nat.getLast_digit_ne_zero A.base hn)
    rw [Nat.ofDigits_digits] at hcanonical
    rw [numeral, if_neg hn]
    exact hcanonical

theorem read_eq_none (h : c ∉ A.symbols) : read A (c :: text) = none := by
  rw [read, List.foldlM_cons, List.idxOf?_eq_none_iff.mpr h]
  rfl

end

end Numeral
