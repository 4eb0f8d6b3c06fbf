import Neobird64.Pmm
import Neobird64.Lib.FirstFit
import Mathlib.Tactic.IntervalCases

/-! The bitmap as a set of blocks. A bit below 2^31 survives the `int` parameter of `mmap_set` and
    `mmap_unset`, so allocating and freeing change exactly one bit; the search finds the least clear
    bit, so the allocator is first fit over the clear bits of the scanned range. -/

namespace Neobird64

namespace State

/-- The physical address of byte `i` of the bitmap. -/
def bitmapAddr (s : State) (i : Nat) : Nat := (s.pmmBitmap + BitVec.ofNat 64 i).toNat

/-- Bit `n` of the bitmap: the block is used. -/
def bit (s : State) (n : Nat) : Bool := (s.mem (s.bitmapAddr (n / 8))).getLsbD (n % 8)

/-- The number of bits that `find_free_block` scans. -/
def scanned (s : State) : Nat := 8 * bitmapBytes s

/-- The bytes of the bitmap. -/
def Storage (s : State) (a : Nat) : Prop := ∃ i < bitmapBytes s, a = s.bitmapAddr i

/-- The clear bits of the scanned range. -/
def clear (s : State) : Finset Nat := (Finset.range s.scanned).filter fun n => s.bit n = false

end State

/-- `t` differs from `s` in memory only. -/
def OnlyMem (s t : State) : Prop := t = { s with mem := t.mem }

namespace OnlyMem
variable {s t u : State}

theorem refl (s : State) : OnlyMem s s := rfl

theorem trans (h₁ : OnlyMem s t) (h₂ : OnlyMem t u) : OnlyMem s u := by
  unfold OnlyMem at *
  rw [h₂, h₁]

theorem storeByte {w : Window} {p : Word} {b : BitVec 8} : OnlyMem s (s.storeByte w p b) := rfl
theorem store64 {w : Window} {p v : Word} : OnlyMem s (s.store64 w p v) := rfl
theorem mmapSet {b : Int} : OnlyMem s (mmapSet s b) := rfl
theorem mmapUnset {b : Int} : OnlyMem s (mmapUnset s b) := rfl

theorem memset {w : Window} {p : Word} {c : BitVec 8} {n : Nat} : OnlyMem s (memset w s p c n) :=
  Loop.foldl_inv (OnlyMem s) (fun _ _ _ h => h.trans storeByte) (refl s)

section
variable (h : OnlyMem s t)
include h

theorem memmap : t.memmap = s.memmap := by rw [h]
theorem pmmUsableAddr : t.pmmUsableAddr = s.pmmUsableAddr := by rw [h]
theorem pmmBlockCount : t.pmmBlockCount = s.pmmBlockCount := by rw [h]
theorem pmmBitmap : t.pmmBitmap = s.pmmBitmap := by rw [h]
theorem hhdmoffset : t.hhdmoffset = s.hhdmoffset := by rw [h]
theorem kernelPageMap : t.kernelPageMap = s.kernelPageMap := by rw [h]
theorem cr3 : t.cr3 = s.cr3 := by rw [h]
theorem lapicAddr : t.lapicAddr = s.lapicAddr := by rw [h]
theorem madt : t.madt = s.madt := by rw [h]
theorem fadt : t.fadt = s.fadt := by rw [h]
theorem bitmapBytes : bitmapBytes t = bitmapBytes s := by rw [h]; rfl
theorem scanned : t.scanned = s.scanned := by rw [State.scanned, h.bitmapBytes]; rfl
theorem bitmapAddr (i : Nat) : t.bitmapAddr i = s.bitmapAddr i := by rw [h]; rfl
theorem storage {a : Nat} : t.Storage a ↔ s.Storage a := by
  simp only [State.Storage, h.bitmapBytes, h.bitmapAddr]

end
end OnlyMem

/-! ### Addresses and masks of single bits -/

theorem toInt_of_lt {x : Word} (h : x.toNat < 2 ^ 31) : toInt x = x.toNat := by
  rw [toInt, BitVec.toInt_eq_toNat_of_lt, BitVec.toNat_setWidth, Nat.mod_eq_of_lt (by omega)]
  rw [BitVec.toNat_setWidth]
  omega

theorem tdiv_natCast (n : Nat) : (n : Int).tdiv 8 = ((n / 8 : Nat) : Int) := rfl

theorem bitmapPtr_natCast (s : State) (n : Nat) : bitmapPtr s n = s.pmmBitmap + BitVec.ofNat 64 (n / 8) := by
  rw [bitmapPtr, tdiv_natCast, BitVec.ofInt_natCast]

theorem bitMask_natCast (n : Nat) : bitMask n = BitVec.twoPow 8 (n % 8) := by
  have hmod : ((n : Int).tmod 8 % 32).toNat = n % 8 := by
    have htmod : (n : Int).tmod 8 = ((n % 8 : Nat) : Int) := rfl
    rw [htmod]
    omega
  rw [bitMask, hmod]
  have hk : n % 8 < 8 := Nat.mod_lt _ (by omega)
  generalize n % 8 = k at hk
  interval_cases k <;> rfl

theorem bitmapAddr_inj {s : State} {i j : Nat} (hi : i < 2 ^ 64) (hj : j < 2 ^ 64)
    (h : s.bitmapAddr i = s.bitmapAddr j) : i = j := by
  simp only [State.bitmapAddr, BitVec.toNat_add, BitVec.toNat_ofNat] at h
  omega

theorem bitmapByte_eq (s : State) (i : Nat) : bitmapByte s i = s.mem (s.bitmapAddr i) := rfl

section
variable {s : State} {n k a : Nat}

theorem mem_mmapSet : (mmapSet s n).mem a =
    if a = s.bitmapAddr (n / 8) then s.mem a ||| BitVec.twoPow 8 (n % 8) else s.mem a := by
  simp only [mmapSet, State.storeByte, State.loadByte, State.phys, bitmapPtr_natCast, bitMask_natCast, Memory.set,
    State.bitmapAddr]
  by_cases h : a = (s.pmmBitmap + BitVec.ofNat 64 (n / 8)).toNat <;> simp only [h, ↓reduceIte]

theorem mem_mmapUnset : (mmapUnset s n).mem a =
    if a = s.bitmapAddr (n / 8) then s.mem a &&& ~~~BitVec.twoPow 8 (n % 8) else s.mem a := by
  simp only [mmapUnset, State.storeByte, State.loadByte, State.phys, bitmapPtr_natCast, bitMask_natCast, Memory.set,
    State.bitmapAddr]
  by_cases h : a = (s.pmmBitmap + BitVec.ofNat 64 (n / 8)).toNat <;> simp only [h, ↓reduceIte]

theorem mem_mmapSet_of_ne {bit : Int} (h : a ≠ (bitmapPtr s bit).toNat) : (mmapSet s bit).mem a = s.mem a :=
  Memory.set_of_ne _ _ h

theorem mem_mmapUnset_of_ne {bit : Int} (h : a ≠ (bitmapPtr s bit).toNat) : (mmapUnset s bit).mem a = s.mem a :=
  Memory.set_of_ne _ _ h

theorem bit_mmapSet (hn : n < 2 ^ 64) (hk : k < 2 ^ 64) : (mmapSet s n).bit k = (decide (k = n) || s.bit k) := by
  rw [State.bit, OnlyMem.mmapSet.bitmapAddr, mem_mmapSet]
  by_cases h : k / 8 = n / 8
  · have hiff : n % 8 = k % 8 ↔ k = n := by omega
    have hn8 : n % 8 < 8 := Nat.mod_lt _ (by omega)
    rw [h, if_pos rfl, BitVec.getLsbD_or, BitVec.getLsbD_twoPow, ← h]
    simp only [State.bit, hn8, decide_true, Bool.true_and, hiff, Bool.or_comm]
  · have hne : s.bitmapAddr (k / 8) ≠ s.bitmapAddr (n / 8) := fun he =>
      h (bitmapAddr_inj (by omega) (by omega) he)
    have hkn : k ≠ n := fun he => h (by rw [he])
    rw [if_neg hne]
    simp [State.bit, hkn]

theorem bit_mmapUnset (hn : n < 2 ^ 64) (hk : k < 2 ^ 64) :
    (mmapUnset s n).bit k = (!decide (k = n) && s.bit k) := by
  rw [State.bit, OnlyMem.mmapUnset.bitmapAddr, mem_mmapUnset]
  by_cases h : k / 8 = n / 8
  · have hiff : n % 8 = k % 8 ↔ k = n := by omega
    have hk8 : k % 8 < 8 := Nat.mod_lt _ (by omega)
    have hn8 : n % 8 < 8 := Nat.mod_lt _ (by omega)
    rw [h, if_pos rfl, BitVec.getLsbD_and, BitVec.getLsbD_not, BitVec.getLsbD_twoPow, ← h]
    simp only [State.bit, hk8, hn8, decide_true, Bool.true_and, hiff, Bool.and_comm]
  · have hne : s.bitmapAddr (k / 8) ≠ s.bitmapAddr (n / 8) := fun he =>
      h (bitmapAddr_inj (by omega) (by omega) he)
    have hkn : k ≠ n := fun he => h (by rw [he])
    rw [if_neg hne]
    simp [State.bit, hkn]

end

/-! ### Bits past the range of `int`

A block number from 2^31 on turns negative in the `int` parameter, and its byte then lies below the
bitmap. -/

theorem toInt_of_wrapped {x : Word} (h : 2 ^ 31 ≤ x.toNat) (h' : x.toNat < 2 ^ 32) :
    toInt x = x.toNat - 2 ^ 32 := by
  have hx : (x.setWidth 32).toNat = x.toNat := by
    rw [BitVec.toNat_setWidth, Nat.mod_eq_of_lt h']
  rw [toInt, BitVec.toInt_eq_toNat_cond, hx, if_neg (by omega)]
  rfl

/-- The byte of a bit that turned negative lies below the bitmap. -/
theorem tdiv_of_wrapped {x : Word} (h : 2 ^ 31 ≤ x.toNat) (h' : x.toNat + 8 ≤ 2 ^ 32) :
    ∃ k : Nat, (toInt x).tdiv 8 = -(k : Int) ∧ 1 ≤ k ∧ k ≤ 2 ^ 28 := by
  obtain ⟨m, hm, hlo, hhi⟩ : ∃ m : Nat, toInt x = -(m : Int) ∧ 8 ≤ m ∧ m ≤ 2 ^ 31 :=
    ⟨2 ^ 32 - x.toNat, by rw [toInt_of_wrapped h (by omega)]; omega, by omega, by omega⟩
  refine ⟨m / 8, ?_, by omega, by omega⟩
  rw [hm, Int.neg_tdiv]
  rfl

theorem bitmapPtr_of_wrapped {s : State} {x : Word} (h : 2 ^ 31 ≤ x.toNat) (h' : x.toNat + 8 ≤ 2 ^ 32) {i : Nat}
    (hi : i < 2 ^ 63) : (bitmapPtr s (toInt x)).toNat ≠ s.bitmapAddr i := by
  obtain ⟨k, hk, hlo, hhi⟩ := tdiv_of_wrapped h h'
  intro he
  rw [bitmapPtr, hk, State.bitmapAddr, BitVec.toNat_add, BitVec.toNat_add, BitVec.toNat_ofInt,
    BitVec.toNat_ofNat] at he
  omega

theorem bit_mmapSet_of_wrapped {s : State} {x : Word} (h : 2 ^ 31 ≤ x.toNat) (h' : x.toNat + 8 ≤ 2 ^ 32) {k : Nat}
    (hk : k < 2 ^ 63) : (mmapSet s (toInt x)).bit k = s.bit k := by
  have hne := bitmapPtr_of_wrapped (s := s) h h' (i := k / 8) (by omega)
  rw [State.bit, OnlyMem.mmapSet.bitmapAddr, mmapSet, State.storeByte]
  simp only [State.phys, Memory.set_of_ne _ _ hne.symm]
  rfl

/-! ### The search for a clear bit -/

section
variable {s : State}

theorem and_twoPow_eq_zero {b : BitVec 8} {j : Nat} (hj : j < 8) :
    b &&& BitVec.twoPow 8 j = 0 ↔ b.getLsbD j = false := by
  rw [BitVec.and_twoPow]
  cases b.getLsbD j
  · simp
  · have hne : BitVec.twoPow 8 j ≠ 0 := by interval_cases j <;> decide
    simpa using hne

theorem findSome?_eq_find? {α β : Type} {p : α → Bool} {f : α → β} {g : α → Option β} :
    ∀ {l : List α}, (∀ a ∈ l, g a = if p a then some (f a) else none) → l.findSome? g = (l.find? p).map f
  | [], _ => rfl
  | a :: l, h => by
    have ih := findSome?_eq_find? fun b hb => h b (List.mem_cons_of_mem _ hb)
    rw [List.findSome?_cons, h a List.mem_cons_self, List.find?_cons]
    cases p a
    · exact ih
    · rfl

theorem bit_eq_getLsbD {i j : Nat} (hj : j < 8) : s.bit (8 * i + j) = (bitmapByte s i).getLsbD j := by
  have hdiv : (8 * i + j) / 8 = i := by omega
  have hmod : (8 * i + j) % 8 = j := by omega
  rw [State.bit, hdiv, hmod, bitmapByte_eq]

theorem findInByte_eq (i : Nat) :
    findInByte s i = (((List.range 8).map (8 * i + ·)).find? fun n => !s.bit n).map (BitVec.ofNat 64) := by
  rw [List.find?_map, Option.map_map, findInByte]
  refine findSome?_eq_find? fun j hj => ?_
  rw [List.mem_range] at hj
  have hpow : (1 <<< j : BitVec 8) = BitVec.twoPow 8 j := (BitVec.twoPow_eq 8 j).symm
  simp only [hpow, and_twoPow_eq_zero hj, Function.comp_apply, bit_eq_getLsbD hj, Bool.not_eq_true',
    Nat.mul_comm i 8]

theorem findSome?_byte (i : Nat) :
    (if bitmapByte s i ≠ 0xff then findInByte s i else none) =
      (((List.range 8).map (8 * i + ·)).find? fun n => !s.bit n).map (BitVec.ofNat 64) := by
  split
  · exact findInByte_eq i
  · rename_i hff
    rw [not_not] at hff
    have hnone : (((List.range 8).map (8 * i + ·)).find? fun n => !s.bit n) = none := by
      rw [List.find?_eq_none]
      intro n hn
      obtain ⟨j, hj, rfl⟩ := List.mem_map.mp hn
      rw [List.mem_range] at hj
      rw [bit_eq_getLsbD hj, hff]
      interval_cases j <;> decide
    rw [hnone, Option.map_none]

/-- The search returns the first clear bit of the scanned range. -/
theorem findFreeBlock_eq :
    findFreeBlock s = (((List.range s.scanned).find? fun n => !s.bit n).map (BitVec.ofNat 64)).getD (-1) := by
  have hrange : ∀ N, (List.range N).findSome? (fun i =>
      if bitmapByte s i ≠ 0xff then findInByte s i else none) =
        ((List.range (8 * N)).find? fun n => !s.bit n).map (BitVec.ofNat 64) := by
    intro N
    induction N with
    | zero => rfl
    | succ N ih =>
      have hsplit : List.range (8 * (N + 1)) = List.range (8 * N) ++ (List.range 8).map (8 * N + ·) := by
        rw [Nat.mul_add_one, List.range_add]
      rw [hsplit, List.find?_append, List.range_succ, List.findSome?_append, ih, List.findSome?_singleton,
        findSome?_byte, Option.map_or]
  rw [findFreeBlock, hrange, State.scanned]

end

/-! ### Allocating and freeing -/

/-- The address of block `n`. -/
def blockAddr (n : Nat) : Word := BitVec.ofNat 64 (n * 4096)

theorem blockAddr_toNat {n : Nat} (h : n < 2 ^ 52) : (blockAddr n).toNat = n * 4096 := by
  rw [blockAddr, BitVec.toNat_ofNat]
  omega

theorem blockAddr_inj {m n : Nat} (hm : m < 2 ^ 52) (hn : n < 2 ^ 52) (h : blockAddr m = blockAddr n) : m = n := by
  have := congrArg BitVec.toNat h
  rw [blockAddr_toNat hm, blockAddr_toNat hn] at this
  omega

theorem blockAddr_eq_zero {n : Nat} (hn : n < 2 ^ 52) : blockAddr n = 0 ↔ n = 0 :=
  ⟨fun h => blockAddr_inj hn (by omega) h, fun h => by rw [h]; rfl⟩

section
variable {s : State} {n a : Nat}

theorem mem_clear : n ∈ s.clear ↔ n < s.scanned ∧ s.bit n = false := by
  simp [State.clear]

theorem scanned_eq : s.scanned = 8 * (s.pmmBlockCount.toNat / 8) := by
  have hdiv : bitmapBytes s = s.pmmBlockCount.toNat / 8 := BitVec.toNat_udiv
  rw [State.scanned, hdiv]

theorem scanned_of_count (h : s.pmmBlockCount.toNat ≤ 2 ^ 31) : s.scanned ≤ 2 ^ 31 := by
  rw [scanned_eq]
  omega

theorem findFreeBlock_of_least (h : FirstFit.least s.clear = some n) : findFreeBlock s = BitVec.ofNat 64 n := by
  obtain ⟨hn, hle⟩ := FirstFit.least_eq_some.mp h
  obtain ⟨hlt, hbit⟩ := mem_clear.mp hn
  have hfind : (List.range s.scanned).find? (fun n => !s.bit n) = some n := by
    rw [List.find?_range_eq_some]
    refine ⟨by simp [hbit], List.mem_range.mpr hlt, fun j hj => ?_⟩
    cases hj' : s.bit j
    · have := hle j (mem_clear.mpr ⟨by omega, hj'⟩)
      omega
    · rfl
  rw [findFreeBlock_eq, hfind]
  rfl

theorem findFreeBlock_of_empty (h : s.clear = ∅) : findFreeBlock s = -1 := by
  have hfind : (List.range s.scanned).find? (fun n => !s.bit n) = none := by
    rw [List.find?_eq_none]
    intro n hn
    have hn' : ¬(n < s.scanned ∧ s.bit n = false) := by simp [← mem_clear, h]
    simpa [List.mem_range.mp hn] using hn'
  rw [findFreeBlock_eq, hfind]
  rfl

theorem pmmAllocBlock_onlyMem : OnlyMem s (pmmAllocBlock s).2 := by
  rw [pmmAllocBlock]
  split
  · exact OnlyMem.refl s
  · exact OnlyMem.mmapSet

theorem pmmAllocBlock_of_empty (h : s.clear = ∅) : pmmAllocBlock s = (0, s) := by
  simp [pmmAllocBlock, findFreeBlock_of_empty h]

/-- The address of a block is right for every bitmap; the bit that is set is only when `int` can hold it. -/
theorem pmmAllocBlock_eq (hs : s.scanned ≤ 2 ^ 52) (h : FirstFit.least s.clear = some n) :
    pmmAllocBlock s = (blockAddr n, mmapSet s (toInt (BitVec.ofNat 64 n))) := by
  have hn : n < 2 ^ 52 := by
    have := (mem_clear.mp (FirstFit.least_eq_some.mp h).1).1
    omega
  have hne : BitVec.ofNat 64 n ≠ -1 := fun he => by
    have := congrArg BitVec.toNat he
    simp at this
    omega
  have haddr : BitVec.ofNat 64 n * BLOCK_SIZE = blockAddr n := by
    rw [blockAddr, BitVec.ofNat_mul]
    rfl
  simp only [pmmAllocBlock, findFreeBlock_of_least h, if_neg hne, haddr]

theorem pmmAllocBlock_of_least (hs : s.scanned ≤ 2 ^ 31) (h : FirstFit.least s.clear = some n) :
    pmmAllocBlock s = (blockAddr n, mmapSet s n) := by
  have hn := (mem_clear.mp (FirstFit.least_eq_some.mp h).1).1
  have htoNat : (BitVec.ofNat 64 n).toNat = n := by
    rw [BitVec.toNat_ofNat]
    omega
  have hint : toInt (BitVec.ofNat 64 n) = n := by
    rw [toInt_of_lt (by omega), htoNat]
  rw [pmmAllocBlock_eq (by omega) h, hint]

theorem pmmFreeBlock_eq {addr : Word} (h : addr.toNat / 4096 < 2 ^ 31) :
    pmmFreeBlock s addr = mmapUnset s (addr.toNat / 4096 : Nat) := by
  have hdiv : (addr2block addr).toNat = addr.toNat / 4096 := BitVec.toNat_udiv
  rw [pmmFreeBlock, toInt_of_lt (by rw [hdiv]; exact h), hdiv]

theorem pmmFreeBlock_blockAddr (hn : n < 2 ^ 31) : pmmFreeBlock s (blockAddr n) = mmapUnset s n := by
  have hdiv : (blockAddr n).toNat / 4096 = n := by
    rw [blockAddr_toNat (by omega)]
    omega
  rw [pmmFreeBlock_eq (by omega), hdiv]

theorem clear_mmapSet (hs : s.scanned ≤ 2 ^ 31) (hn : n < 2 ^ 64) : (mmapSet s n).clear = s.clear.erase n := by
  ext k
  rw [Finset.mem_erase, mem_clear, mem_clear, OnlyMem.mmapSet.scanned]
  constructor
  · rintro ⟨hk, hbit⟩
    rw [bit_mmapSet hn (by omega), Bool.or_eq_false_iff, decide_eq_false_iff_not] at hbit
    exact ⟨hbit.1, hk, hbit.2⟩
  · rintro ⟨hne, hk, hbit⟩
    exact ⟨hk, by rw [bit_mmapSet hn (by omega)]; simp [hne, hbit]⟩

theorem clear_mmapUnset (hs : s.scanned ≤ 2 ^ 31) (hn : n < s.scanned) :
    (mmapUnset s n).clear = insert n s.clear := by
  ext k
  rw [Finset.mem_insert, mem_clear, mem_clear, OnlyMem.mmapUnset.scanned]
  constructor
  · rintro ⟨hk, hbit⟩
    rw [bit_mmapUnset (by omega) (by omega)] at hbit
    by_cases hkn : k = n
    · exact Or.inl hkn
    · exact Or.inr ⟨hk, by simpa [hkn] using hbit⟩
  · rintro (rfl | ⟨hk, hbit⟩)
    · exact ⟨hn, by rw [bit_mmapUnset (by omega) (by omega)]; simp⟩
    · exact ⟨hk, by rw [bit_mmapUnset (by omega) (by omega), hbit, Bool.and_false]⟩

theorem storage_of_lt (hn : n < s.scanned) : s.Storage (s.bitmapAddr (n / 8)) :=
  ⟨n / 8, by rw [State.scanned] at hn; omega, rfl⟩

theorem mem_mmapSet_of_not_storage (hn : n < s.scanned) (ha : ¬s.Storage a) : (mmapSet s n).mem a = s.mem a := by
  rw [mem_mmapSet, if_neg]
  rintro rfl
  exact ha (storage_of_lt hn)

theorem mem_mmapUnset_of_not_storage (hn : n < s.scanned) (ha : ¬s.Storage a) :
    (mmapUnset s n).mem a = s.mem a := by
  rw [mem_mmapUnset, if_neg]
  rintro rfl
  exact ha (storage_of_lt hn)

theorem OnlyMem.bit {t : State} (h : OnlyMem s t) (hmem : ∀ a, s.Storage a → t.mem a = s.mem a)
    (hn : n < s.scanned) : t.bit n = s.bit n := by
  rw [State.bit, h.bitmapAddr, hmem _ (storage_of_lt hn), State.bit]

theorem OnlyMem.clear {t : State} (h : OnlyMem s t) (hmem : ∀ a, s.Storage a → t.mem a = s.mem a) :
    t.clear = s.clear := by
  ext n
  rw [mem_clear, mem_clear, h.scanned]
  constructor <;> rintro ⟨hn, hbit⟩ <;> refine ⟨hn, ?_⟩
  · rwa [h.bit hmem hn] at hbit
  · rwa [h.bit hmem hn]

/-- `pmm_alloc_block` is first fit over the clear bits; NULL is also what it returns for block 0. -/
theorem pmmAllocBlock_refines (hs : s.scanned ≤ 2 ^ 31) :
    (pmmAllocBlock s).1 = ((FirstFit.alloc s.clear).1.map blockAddr).getD 0 ∧
      (pmmAllocBlock s).2.clear = (FirstFit.alloc s.clear).2 := by
  cases h : FirstFit.least s.clear with
  | none =>
    rw [pmmAllocBlock_of_empty (FirstFit.least_eq_none.mp h)]
    simp [FirstFit.alloc, h]
  | some n =>
    have hn := (mem_clear.mp (FirstFit.least_eq_some.mp h).1).1
    rw [pmmAllocBlock_of_least hs h]
    simp [FirstFit.alloc, h, clear_mmapSet hs (show n < 2 ^ 64 by omega)]

/-- `pmm_free_block` of a scanned block puts it back. -/
theorem pmmFreeBlock_refines {addr : Word} (hs : s.scanned ≤ 2 ^ 31) (haddr : addr.toNat / 4096 < s.scanned) :
    (pmmFreeBlock s addr).clear = FirstFit.release s.clear (addr.toNat / 4096) := by
  rw [pmmFreeBlock_eq (by omega), clear_mmapUnset hs haddr, FirstFit.release]

end

end Neobird64
