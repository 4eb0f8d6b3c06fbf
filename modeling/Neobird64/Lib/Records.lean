import Neobird64.Lib.Memory
import Mathlib.Algebra.BigOperators.Group.List.Basic
import Mathlib.Data.List.GetD

/-! Tables of records in byte memory. Each record has its type and its length in its first two bytes, and
    the records stand one after another. -/

namespace Memory
variable {m : Memory} {a k n : Nat} {l l' : List (BitVec 8)}

/-- The bytes of `l` are in memory from `a` on. -/
def Holds (m : Memory) (a : Nat) (l : List (BitVec 8)) : Prop := ∀ i < l.length, m (a + i) = l.getD i 0

/-- The memory that has the bytes of `l` from 0 on. -/
def ofList (l : List (BitVec 8)) : Memory := fun i => l.getD i 0

theorem holds_append : m.Holds a (l ++ l') ↔ m.Holds a l ∧ m.Holds (a + l.length) l' := by
  constructor
  · refine fun h => ⟨fun i hi => ?_, fun i hi => ?_⟩
    · rw [h i (by rw [List.length_append]; omega), List.getD_append _ _ _ _ hi]
    · rw [Nat.add_assoc, h (l.length + i) (by rw [List.length_append]; omega), List.getD_append_right _ _ _ _ (by omega),
        Nat.add_sub_cancel_left]
  · rintro ⟨h, h'⟩ i hi
    rw [List.length_append] at hi
    rcases Nat.lt_or_ge i l.length with hlt | hge
    · rw [h i hlt, List.getD_append _ _ _ _ hlt]
    · have hi' := h' (i - l.length) (by omega)
      rw [Nat.add_assoc, Nat.add_sub_cancel' hge] at hi'
      rw [hi', List.getD_append_right _ _ _ _ hge]

theorem Holds.readLE (h : m.Holds a l) : ∀ {n k : Nat}, k + n ≤ l.length → m.readLE (a + k) n = (ofList l).readLE k n
  | 0, _, _ => rfl
  | n + 1, k, hk => by
    rw [Memory.readLE, Memory.readLE, h k (by omega), Nat.add_assoc, h.readLE (by omega), ofList]

theorem Holds.read32 (h : m.Holds a l) (hk : k + 4 ≤ l.length) : m.read32 (a + k) = (ofList l).read32 k := by
  rw [Memory.read32, Memory.read32, h.readLE hk]

end Memory

/-- A record: its type and the bytes after the two bytes of its header. -/
structure Record where
  type : BitVec 8
  body : List (BitVec 8)
  fits : body.length + 2 ≤ 255

namespace Record
variable {m : Memory} {a p : Nat} {r : Record} {rs : List Record}

/-- The length of the record in memory. -/
def length (r : Record) : Nat := r.body.length + 2

def bytes (r : Record) : List (BitVec 8) := r.type :: BitVec.ofNat 8 r.length :: r.body

/-- The byte at offset `k` of the record. -/
def byte (r : Record) (k : Nat) : BitVec 8 := Memory.ofList r.bytes k

/-- The 32-bit word at offset `k` of the record. -/
def word32 (r : Record) (k : Nat) : BitVec 32 := (Memory.ofList r.bytes).read32 k

def encode (rs : List Record) : List (BitVec 8) := rs.flatMap bytes

def size (rs : List Record) : Nat := (rs.map length).sum

/-- The records with their addresses, when the first one is at `a`. -/
def placed : Nat → List Record → List (Nat × Record)
  | _, [] => []
  | a, r :: rs => (a, r) :: placed (a + r.length) rs

@[simp] theorem length_bytes : r.bytes.length = r.length := rfl

@[simp] theorem size_cons : size (r :: rs) = r.length + size rs := by simp [size]

theorem length_le : rs.length ≤ size rs := by
  induction rs with
  | nil => exact Nat.zero_le _
  | cons r rs ih =>
    rw [List.length_cons, size_cons, length]
    omega

/-- Every record of a table in memory is in memory at its address, inside the table. -/
theorem holds_of_placed (h : m.Holds a (encode rs)) (hp : (p, r) ∈ placed a rs) :
    m.Holds p r.bytes ∧ p + r.length ≤ a + size rs := by
  induction rs generalizing a with
  | nil => cases hp
  | cons r' rs ih =>
    rw [encode, List.flatMap_cons, Memory.holds_append, length_bytes] at h
    rw [size_cons]
    rcases List.mem_cons.mp hp with heq | hp
    · obtain ⟨rfl, rfl⟩ := Prod.mk.inj heq
      exact ⟨h.1, by omega⟩
    · obtain ⟨hr, hle⟩ := ih h.2 hp
      exact ⟨hr, by omega⟩

theorem mem_of_placed (hp : (p, r) ∈ placed a rs) : r ∈ rs := by
  induction rs generalizing a with
  | nil => cases hp
  | cons r' rs ih =>
    rcases List.mem_cons.mp hp with heq | hp
    · obtain ⟨-, rfl⟩ := Prod.mk.inj heq
      exact List.mem_cons_self
    · exact List.mem_cons_of_mem _ (ih hp)

theorem le_of_placed (hp : (p, r) ∈ placed a rs) : a ≤ p := by
  induction rs generalizing a with
  | nil => cases hp
  | cons r' rs ih =>
    rcases List.mem_cons.mp hp with heq | hp
    · exact Nat.le_of_eq (Prod.mk.inj heq).1.symm
    · have hle := ih hp
      omega

theorem map_snd_placed : (placed a rs).map Prod.snd = rs := by
  induction rs generalizing a with
  | nil => rfl
  | cons r rs ih => rw [placed, List.map_cons, ih]

section
variable (h : m.Holds p r.bytes)
include h

theorem load_type : m p = r.type := h 0 (by simp [length])

theorem load_length : m (p + 1) = BitVec.ofNat 8 r.length := h 1 (by simp [length])

theorem load_byte {k : Nat} (hk : k < r.length) : m (p + k) = r.byte k := h k hk

theorem load_word32 {k : Nat} (hk : k + 4 ≤ r.length) : m.read32 (p + k) = r.word32 k := h.read32 hk

end

end Record
