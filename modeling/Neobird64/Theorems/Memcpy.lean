import Neobird64.Theorems.Memmove

/-! `memcpy`, which always copies upwards: onto bytes that it has still to read it repeats the first ones, and otherwise it
    is `memmove`. -/

namespace Neobird64
open CellCopy

/-- Which byte of the source ends up as byte `i` of the destination. -/
def sourceIndex (dest src : Word) (i : Nat) : Nat := if src < dest then i % (dest - src).toNat else i

/-- The `n` bytes at `dest` come from the source, and no other byte has changed. -/
structure Copied (mem mem' : VirtualMemory) (dest src n : Word) : Prop where
  copied : ∀ i < n.toNat, mem' (dest + BitVec.ofNat 64 i) = mem (src + BitVec.ofNat 64 (sourceIndex dest src i))
  kept : ∀ a : Word, a.toNat < dest.toNat ∨ dest.toNat + n.toNat ≤ a.toNat → mem' a = mem a

section
variable {mem mem' mem'' : VirtualMemory} {dest src n : Word} {i k : Nat}

theorem distance_toNat (hlt : src < dest) : (dest - src).toNat = dest.toNat - src.toNat := by
  have hlt' : src.toNat < dest.toNat := hlt
  have hd := dest.isLt
  rw [BitVec.toNat_sub]
  omega

theorem sourceIndex_of_lt (hi : src < dest → i < (dest - src).toNat) : sourceIndex dest src i = i := by
  unfold sourceIndex
  split
  · next hlt => exact Nat.mod_eq_of_lt (hi hlt)
  · rfl

/-- The sources from the distance on are the bytes that are written. -/
theorem byteAt_shift (src dest : Word) (i : Nat) : byteAt src (i + (dest - src).toNat) = byteAt dest i := by
  rw [byteAt, byteAt, BitVec.ofNat_add, BitVec.ofNat_toNat, BitVec.setWidth_eq, BitVec.add_comm (BitVec.ofNat 64 i),
    ← BitVec.add_assoc, BitVec.add_comm src, BitVec.sub_add_cancel]

theorem copyForward_overlap (hdest : dest.toNat + k ≤ 2 ^ 64) (hlt : src < dest) (hi : i < k) :
    copyForward dest src k mem (byteAt dest i) = mem (byteAt src (i % (dest - src).toNat)) := by
  have hlt' : src.toNat < dest.toNat := hlt
  have hdist := distance_toNat hlt
  rw [copyForward_eq]
  refine copy_range_periodic (by omega) (fun i => byteAt_shift src dest i) (fun i hi hk j hj => ?_) (fun i hi j hj heq => ?_)
    (Nat.le_refl k) i hi
  · have hsrc : src.toNat + k ≤ 2 ^ 64 := by omega
    exact byteAt_ne hsrc hdest hk hj (by omega)
  · by_contra hne
    exact byteAt_ne hdest hdest hi hj (by omega) heq

theorem copyForward_kept (hdest : dest.toNat + k ≤ 2 ^ 64) {a : Word}
    (ha : a.toNat < dest.toNat ∨ dest.toNat + k ≤ a.toNat) : copyForward dest src k mem a = mem a := by
  rw [copyForward_eq]
  refine copy_of_outside fun i hi heq => ?_
  have hin := List.mem_range.mp hi
  rw [heq, byteAt_toNat hdest hin] at ha
  omega

/-- A range copied onto itself. -/
theorem copyForward_self (hdest : dest.toNat + k ≤ 2 ^ 64) : copyForward dest dest k mem = mem := by
  induction k with
  | zero => rfl
  | succ k ih =>
    have hsucc : copyForward dest dest (k + 1) mem = copyByte dest dest (copyForward dest dest k mem) k := by
      rw [copyForward, List.range_succ, List.foldl_append]
      rfl
    rw [hsucc, ih (by omega), copyByte, Function.update_eq_self]

theorem memcpy_copied (mem : VirtualMemory) (hdest : dest.toNat + n.toNat ≤ 2 ^ 64) (hsrc : src.toNat + n.toNat ≤ 2 ^ 64) :
    Copied mem (memcpy mem dest src n).2 dest src n where
  copied i hi := by
    by_cases hlt : src < dest
    · rw [sourceIndex, if_pos hlt]
      exact copyForward_overlap hdest hlt hi
    · rw [sourceIndex, if_neg hlt]
      by_cases heq : dest = src
      · subst heq
        rw [memcpy, copyForward_self hdest]
      · have hgt : dest < src := BitVec.lt_of_le_ne (BitVec.not_lt.mp hlt) heq
        have hmoved : Moved mem (copy (byteAt src) (byteAt dest) (List.range n.toNat) mem) dest src n :=
          moved_of_inOrder hdest (inOrder_forward hdest hsrc hgt) fun i => List.mem_range
        exact hmoved.moved i hi
  kept a ha := copyForward_kept hdest ha

theorem eq_of_moved (h : Moved mem mem' dest src n) (h' : Moved mem mem'' dest src n) : mem' = mem'' := by
  funext a
  rcases Nat.lt_or_ge a.toNat dest.toNat with hlt | hge
  · rw [h.kept a (Or.inl hlt), h'.kept a (Or.inl hlt)]
  · rcases Nat.lt_or_ge a.toNat (dest.toNat + n.toNat) with hlt | hge'
    · have ha : a = dest + BitVec.ofNat 64 (a - dest).toNat := by
        rw [BitVec.ofNat_toNat, BitVec.setWidth_eq, BitVec.add_comm, BitVec.sub_add_cancel]
      have hin : (a - dest).toNat < n.toNat := by
        have hlt := a.isLt
        rw [BitVec.toNat_sub]
        omega
      rw [ha, h.moved _ hin, h'.moved _ hin]
    · rw [h.kept a (Or.inr hge'), h'.kept a (Or.inr hge')]

theorem memmove_backward (mem : VirtualMemory) (hdest : dest.toNat + n.toNat ≤ 2 ^ 64)
    (hsrc : src.toNat + n.toNat ≤ 2 ^ 64) (hlt : src < dest) :
    (memmove mem dest src n).1 = dest ∧ Moved mem (memmove mem dest src n).2 dest src n := by
  have hge : ¬src > dest := BitVec.not_lt.mpr (BitVec.le_of_lt hlt)
  rw [memmove, if_neg hge, if_pos hlt]
  refine ⟨rfl, ?_⟩
  rw [copyBackward_eq]
  exact moved_of_inOrder hdest (inOrder_backward hdest hsrc hlt) fun i => by rw [List.mem_reverse, List.mem_range]

/-- `memcpy` for every overlap, and when it may stand for `memmove`: unless the destination begins inside of the source. -/
theorem memcpy_periodic (dest src n : Word) (hdest : dest.toNat + n.toNat ≤ 2 ^ 64) (hsrc : src.toNat + n.toNat ≤ 2 ^ 64) :
    (∀ mem, (memcpy mem dest src n).1 = dest ∧ Copied mem (memcpy mem dest src n).2 dest src n) ∧
    ((∀ mem, memcpy mem dest src n = memmove mem dest src n) ↔ ¬(src < dest ∧ dest.toNat < src.toNat + n.toNat)) := by
  refine ⟨fun mem => ⟨rfl, memcpy_copied mem hdest hsrc⟩, fun h hover => ?_, fun hover mem => ?_⟩
  · -- The byte at `dest` is moved up, and `memcpy` has written over it.
    obtain ⟨hlt, hinside⟩ := hover
    have hdist := distance_toNat hlt
    have hlt' : src.toNat < dest.toNat := hlt
    obtain ⟨d, hd⟩ : ∃ d, d = (dest - src).toNat := ⟨_, rfl⟩
    have hsplit : src + BitVec.ofNat 64 d = dest := by
      rw [hd, BitVec.ofNat_toNat, BitVec.setWidth_eq, BitVec.add_comm, BitVec.sub_add_cancel]
    obtain ⟨mem, hmem⟩ : ∃ mem : VirtualMemory, mem = Function.update (fun _ => 0) dest 1 := ⟨_, rfl⟩
    have hcopied := (memcpy_copied mem hdest hsrc).copied d (by omega)
    have hmoved := (memmove_backward mem hdest hsrc hlt).2.moved d (by omega)
    have hsrcByte : mem src = 0 := by
      rw [hmem]
      exact Function.update_of_ne (fun heq => by rw [heq] at hlt'; omega) _ _
    have hdestByte : mem dest = 1 := by
      rw [hmem]
      exact Function.update_self _ _ _
    have hindex : sourceIndex dest src d = 0 := by
      rw [sourceIndex, if_pos hlt, ← hd, Nat.mod_self]
    rw [hindex, BitVec.add_zero, hsrcByte] at hcopied
    rw [← h mem, hcopied, hsplit, hdestByte] at hmoved
    exact absurd hmoved (by decide)
  · by_cases hlt : src < dest
    · have hbefore : ∀ i < n.toNat, sourceIndex dest src i = i := fun i hi => sourceIndex_of_lt fun _ => by
        have hdist := distance_toNat hlt
        have hout : ¬dest.toNat < src.toNat + n.toNat := fun hin => hover ⟨hlt, hin⟩
        omega
      have hcopied := memcpy_copied mem hdest hsrc
      have hmoved : Moved mem (memcpy mem dest src n).2 dest src n :=
        ⟨fun i hi => by rw [hcopied.copied i hi, hbefore i hi], hcopied.kept⟩
      obtain ⟨hret, hmoved'⟩ := memmove_backward mem hdest hsrc hlt
      exact Prod.ext hret.symm (eq_of_moved hmoved hmoved')
    · rw [memmove]
      split
      · rfl
      · next hle =>
        obtain rfl : dest = src := BitVec.le_antisymm (BitVec.not_lt.mp hlt) (BitVec.not_lt.mp hle)
        rw [memcpy, copyForward_self hdest]

end

/-- Five bytes copied up by two: the first two are repeated. -/
theorem memcpy_periodic_sample : ((List.range 5).map fun i => (memcpy (fun a => a.setWidth 8) 12 10 5).2 (BitVec.ofNat 64 (12 + i))) =
    [10, 11, 10, 11, 10] ∧ ¬∀ mem, memcpy mem 12 10 5 = memmove mem 12 10 5 :=
  ⟨by decide, fun h => (memcpy_periodic 12 10 5 (by decide) (by decide)).2.mp h (by decide)⟩

end Neobird64
