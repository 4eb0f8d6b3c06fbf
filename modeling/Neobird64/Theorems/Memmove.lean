import Neobird64.Memmove
import Neobird64.Lib.CellCopy

/-! `memmove` for every overlap of the two ranges: each direction reads a byte before it overwrites it. -/

namespace Neobird64
open CellCopy

/-- The `n` bytes at `dest` are those that were at `src`, and no other byte has changed. -/
structure Moved (mem mem' : VirtualMemory) (dest src n : Word) : Prop where
  moved : ∀ i < n.toNat, mem' (dest + BitVec.ofNat 64 i) = mem (src + BitVec.ofNat 64 i)
  kept : ∀ a : Word, a.toNat < dest.toNat ∨ dest.toNat + n.toNat ≤ a.toNat → mem' a = mem a

section
variable {mem : VirtualMemory} {p q dest src n : Word} {i j k : Nat} {l : List Nat}

/-- Byte `i` from `p` on. -/
def byteAt (p : Word) (i : Nat) : Word := p + BitVec.ofNat 64 i

/-! ### Addresses -/

theorem byteAt_toNat (hp : p.toNat + k ≤ 2 ^ 64) (hi : i < k) : (byteAt p i).toNat = p.toNat + i := by
  have hlt := p.isLt
  rw [byteAt, BitVec.toNat_add, BitVec.toNat_ofNat, Nat.add_mod_mod, Nat.mod_eq_of_lt (by omega)]

theorem byteAt_ne (hp : p.toNat + k ≤ 2 ^ 64) (hq : q.toNat + k ≤ 2 ^ 64) (hi : i < k) (hj : j < k)
    (hne : p.toNat + i ≠ q.toNat + j) : byteAt p i ≠ byteAt q j := by
  intro heq
  have hnat := congrArg BitVec.toNat heq
  rw [byteAt_toNat hp hi, byteAt_toNat hq hj] at hnat
  exact hne hnat

/-! ### The two directions -/

theorem copyForward_eq (dest src : Word) (k : Nat) (mem : VirtualMemory) :
    copyForward dest src k mem = copy (byteAt src) (byteAt dest) (List.range k) mem := rfl

theorem copyBackward_eq (dest src : Word) (k : Nat) (mem : VirtualMemory) :
    copyBackward dest src k mem = copy (byteAt src) (byteAt dest) (List.range k).reverse mem := by
  induction k generalizing mem with
  | zero => rfl
  | succ k ih =>
    rw [copyBackward, ih, List.range_succ, List.reverse_concat, copy_cons]
    rfl

theorem inOrder_forward (hdest : dest.toNat + k ≤ 2 ^ 64) (hsrc : src.toNat + k ≤ 2 ^ 64) (hlt : dest < src) :
    InOrder (byteAt src) (byteAt dest) (List.range k) := by
  have hlt' : dest.toNat < src.toNat := hlt
  constructor
  · refine List.pairwise_lt_range.imp_of_mem fun {i j} hi hj hij => ?_
    rw [List.mem_range] at hi hj
    exact byteAt_ne hdest hsrc hi hj (by omega)
  · refine List.pairwise_lt_range.imp_of_mem fun {i j} hi hj hij => ?_
    rw [List.mem_range] at hi hj
    exact byteAt_ne hdest hdest hi hj (by omega)

theorem inOrder_backward (hdest : dest.toNat + k ≤ 2 ^ 64) (hsrc : src.toNat + k ≤ 2 ^ 64) (hlt : src < dest) :
    InOrder (byteAt src) (byteAt dest) (List.range k).reverse := by
  have hlt' : src.toNat < dest.toNat := hlt
  constructor
  · rw [List.pairwise_reverse]
    refine List.pairwise_lt_range.imp_of_mem fun {i j} hi hj hij => ?_
    rw [List.mem_range] at hi hj
    exact byteAt_ne hdest hsrc hj hi (by omega)
  · rw [List.pairwise_reverse]
    refine List.pairwise_lt_range.imp_of_mem fun {i j} hi hj hij => ?_
    rw [List.mem_range] at hi hj
    exact byteAt_ne hdest hdest hj hi (by omega)

theorem moved_of_inOrder (hdest : dest.toNat + n.toNat ≤ 2 ^ 64) (h : InOrder (byteAt src) (byteAt dest) l)
    (hl : ∀ i, i ∈ l ↔ i < n.toNat) : Moved mem (copy (byteAt src) (byteAt dest) l mem) dest src n where
  moved i hi := copy_of_mem h ((hl i).mpr hi)
  kept a ha := by
    refine copy_of_outside fun i hi heq => ?_
    have hin := (hl i).mp hi
    rw [heq, byteAt_toNat hdest hin] at ha
    omega

/-- `memmove` moves the bytes whatever the overlap is, as long as neither range wraps around, and returns `dest`. -/
theorem memmove_moved (mem : VirtualMemory) (dest src n : Word) (hdest : dest.toNat + n.toNat ≤ 2 ^ 64)
    (hsrc : src.toNat + n.toNat ≤ 2 ^ 64) :
    (memmove mem dest src n).1 = dest ∧ Moved mem (memmove mem dest src n).2 dest src n := by
  unfold memmove
  split
  · next hlt =>
    refine ⟨rfl, ?_⟩
    rw [copyForward_eq]
    exact moved_of_inOrder hdest (inOrder_forward hdest hsrc hlt) fun i => List.mem_range
  · next hge =>
    split
    · next hlt =>
      refine ⟨rfl, ?_⟩
      rw [copyBackward_eq]
      exact moved_of_inOrder hdest (inOrder_backward hdest hsrc hlt) fun i => by rw [List.mem_reverse, List.mem_range]
    · next hle =>
      obtain rfl : dest = src := BitVec.le_antisymm (BitVec.not_lt.mp hle) (BitVec.not_lt.mp hge)
      exact ⟨rfl, fun i _ => rfl, fun a _ => rfl⟩

end

/-- Three bytes move up by one, onto two of themselves. -/
theorem memmove_moved_overlap : Moved (fun a => a.setWidth 8) (memmove (fun a => a.setWidth 8) 8 7 3).2 8 7 3 ∧
    ((List.range 5).map fun i => (memmove (fun a => a.setWidth 8) 8 7 3).2 (BitVec.ofNat 64 (7 + i))) = [7, 7, 8, 9, 11] :=
  ⟨(memmove_moved _ 8 7 3 (by decide) (by decide)).2, by decide⟩

end Neobird64
