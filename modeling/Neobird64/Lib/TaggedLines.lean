import Mathlib.Data.List.Infix
import Mathlib.Tactic.Common

/-! A text of lines, each of which begins with the header of a tag. When no header is the beginning of another one and no
    line contains the symbol that ends it, the tags and the bodies can be read back. -/

namespace TaggedLines
variable {α τ : Type} [DecidableEq α]

/-- The line of a tag and a body. -/
def line (header : τ → List α) (stop : α) (x : τ × List α) : List α := header x.1 ++ x.2 ++ [stop]

def text (header : τ → List α) (stop : α) (xs : List (τ × List α)) : List α := xs.flatMap (line header stop)

/-- The lines of a text that are ended, and those of `text` with `acc`, reversed, before it. -/
def lines (stop : α) : List α → List α → List (List α)
  | _, [] => []
  | acc, a :: l => if a = stop then acc.reverse :: lines stop [] l else lines stop (a :: acc) l

/-- The tag of which the line has the header, and the body behind it. -/
def readLine (tags : List τ) (header : τ → List α) (l : List α) : Option (τ × List α) :=
  (tags.find? fun t => (header t).isPrefixOf l).map fun t => (t, l.drop (header t).length)

def read (tags : List τ) (header : τ → List α) (stop : α) (l : List α) : Option (List (τ × List α)) :=
  (lines stop [] l).mapM (readLine tags header)

variable {tags : List τ} {header : τ → List α} {stop : α} {acc l l' : List α} {t : τ} {xs : List (τ × List α)}

theorem lines_append (h : stop ∉ l) : lines stop acc (l ++ stop :: l') = (acc.reverse ++ l) :: lines stop [] l' := by
  induction l generalizing acc with
  | nil => rw [List.nil_append, lines, if_pos rfl, List.append_nil]
  | cons a l ih =>
    have hne : a ≠ stop := fun heq => h (heq ▸ List.mem_cons_self)
    have hl : stop ∉ l := fun hmem => h (List.mem_cons_of_mem a hmem)
    rw [List.cons_append, lines, if_neg hne, ih hl, List.reverse_cons, List.append_assoc]
    rfl

/-- A line is read as what it was made of. -/
theorem readLine_line (hfree : ∀ t ∈ tags, ∀ t' ∈ tags, header t <+: header t' → t = t') (ht : t ∈ tags) :
    readLine tags header (header t ++ l) = some (t, l) := by
  have honly : ∀ t' ∈ tags, (header t').isPrefixOf (header t ++ l) = true → t' = t := fun t' ht' hpre => by
    have hpre : header t' <+: header t ++ l := List.isPrefixOf_iff_prefix.mp hpre
    rcases List.prefix_or_prefix_of_prefix hpre (List.prefix_append _ l) with h | h
    · exact hfree t' ht' t ht h
    · exact (hfree t ht t' ht' h).symm
  have hself : (header t).isPrefixOf (header t ++ l) = true := List.isPrefixOf_iff_prefix.mpr (List.prefix_append _ l)
  have hsome : (tags.find? fun t' => (header t').isPrefixOf (header t ++ l)).isSome = true :=
    List.find?_isSome.mpr ⟨t, ht, hself⟩
  obtain ⟨t', hfind⟩ := Option.isSome_iff_exists.mp hsome
  have hpre := List.find?_some (p := fun t' => (header t').isPrefixOf (header t ++ l)) hfind
  obtain rfl := honly t' (List.mem_of_find?_eq_some hfind) hpre
  rw [readLine, hfind, Option.map_some, List.drop_left]

/-- The round trip. -/
theorem read_text (hfree : ∀ t ∈ tags, ∀ t' ∈ tags, header t <+: header t' → t = t') (hheader : ∀ t ∈ tags, stop ∉ header t)
    (hxs : ∀ x ∈ xs, x.1 ∈ tags ∧ stop ∉ x.2) : read tags header stop (text header stop xs) = some xs := by
  induction xs with
  | nil => rfl
  | cons x xs ih =>
    obtain ⟨htag, hbody⟩ := hxs x List.mem_cons_self
    have hrest := ih fun y hy => hxs y (List.mem_cons_of_mem _ hy)
    have hline : stop ∉ header x.1 ++ x.2 := fun hmem =>
      (List.mem_append.mp hmem).elim (hheader x.1 htag) hbody
    have hsplit : text header stop (x :: xs) = (header x.1 ++ x.2) ++ stop :: text header stop xs := by
      rw [text, List.flatMap_cons, line, List.append_assoc, List.singleton_append, text]
    rw [read, hsplit, lines_append hline, List.reverse_nil, List.nil_append, List.mapM_cons, readLine_line hfree htag]
    rw [read] at hrest
    rw [hrest]
    rfl

end TaggedLines
