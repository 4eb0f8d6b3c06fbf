import Neobird64.Theorems.Bitmap

/-! The block numbers of `find_free_block` have 64 bits, and `mmap_set`, `mmap_unset` and `mmap_test` take an `int`.
    The bits are the same up to 2^31 blocks, and from there on none is. -/

namespace Neobird64

namespace State

def setBit (s : State) (n : Nat) : State :=
  { s with mem := s.mem.set (s.bitmapAddr (n / 8)) (s.mem (s.bitmapAddr (n / 8)) ||| BitVec.twoPow 8 (n % 8)) }

def clearBit (s : State) (n : Nat) : State :=
  { s with mem := s.mem.set (s.bitmapAddr (n / 8)) (s.mem (s.bitmapAddr (n / 8)) &&& ~~~BitVec.twoPow 8 (n % 8)) }

end State

/-- Whatever is in memory, the functions of the allocator reach bit `b % 8` of byte `b / 8` for block `b`, which is
    the bit that the search reports as `b`. -/
structure AddressesBit (s : State) (b : Word) : Prop where
  set : ∀ mem, mmapSet { s with mem } (toInt b) = State.setBit { s with mem } b.toNat
  unset : ∀ mem, mmapUnset { s with mem } (toInt b) = State.clearBit { s with mem } b.toNat
  test : ∀ mem, mmapTest { s with mem } (toInt b) = State.bit { s with mem } b.toNat
  found : ∀ mem, findFreeBlock { s with mem } = b →
    State.bit { s with mem } b.toNat = false ∧ ∀ n < b.toNat, State.bit { s with mem } n = true
  alloc : ∀ mem, findFreeBlock { s with mem } = b →
    pmmAllocBlock { s with mem } = (b * BLOCK_SIZE, State.setBit { s with mem } b.toNat)
  free : ∀ mem addr, addr2block addr = b → pmmFreeBlock { s with mem } addr = State.clearBit { s with mem } b.toNat

section
variable {s : State} {b : Word}

/-! ### Blocks in the range of `int` -/

theorem mmapSet_eq (h : b.toNat < 2 ^ 31) : mmapSet s (toInt b) = s.setBit b.toNat := by
  rw [toInt_of_lt h, mmapSet, State.setBit, bitmapPtr_natCast, bitMask_natCast]
  rfl

theorem mmapUnset_eq (h : b.toNat < 2 ^ 31) : mmapUnset s (toInt b) = s.clearBit b.toNat := by
  rw [toInt_of_lt h, mmapUnset, State.clearBit, bitmapPtr_natCast, bitMask_natCast]
  rfl

theorem mmapTest_eq (h : b.toNat < 2 ^ 31) : mmapTest s (toInt b) = s.bit b.toNat := by
  have hzero := and_twoPow_eq_zero (b := s.mem (s.bitmapAddr (b.toNat / 8))) (Nat.mod_lt b.toNat (by decide : 8 > 0))
  rw [toInt_of_lt h, mmapTest, bitmapPtr_natCast, bitMask_natCast, Bool.eq_iff_iff, decide_eq_true_iff]
  exact (not_congr hzero).trans (by rw [State.bit, Bool.not_eq_false])

theorem findFreeBlock_bit (h : findFreeBlock s = b) (hb : b ≠ -1) :
    s.bit b.toNat = false ∧ ∀ n < b.toNat, s.bit n = true := by
  rw [findFreeBlock_eq] at h
  cases hfind : (List.range s.scanned).find? fun n => !s.bit n with
  | none =>
    rw [hfind] at h
    exact absurd h.symm hb
  | some n =>
    obtain ⟨hclear, hmem, hbefore⟩ := List.find?_range_eq_some.mp hfind
    have hn : n < 2 ^ 64 := by
      have := s.pmmBlockCount.isLt
      rw [List.mem_range, scanned_eq] at hmem
      omega
    rw [hfind, Option.map_some, Option.getD_some] at h
    have hnat : b.toNat = n := by rw [← h, BitVec.toNat_ofNat, Nat.mod_eq_of_lt hn]
    rw [hnat]
    exact ⟨by simpa using hclear, fun k hk => by simpa using hbefore k hk⟩

theorem ne_neg_one (h : b.toNat < 2 ^ 31) : b ≠ -1 := by
  rintro rfl
  exact absurd h (by decide)

theorem addressesBit_of_lt (h : b.toNat < 2 ^ 31) : AddressesBit s b where
  set _ := mmapSet_eq h
  unset _ := mmapUnset_eq h
  test _ := mmapTest_eq h
  found _ hfind := findFreeBlock_bit hfind (ne_neg_one h)
  alloc mem hfind := by
    simp only [pmmAllocBlock, hfind, if_neg (ne_neg_one h), mmapSet_eq h]
  free mem addr haddr := by rw [pmmFreeBlock, haddr, mmapUnset_eq h]

/-! ### Blocks from 2^31 on -/

theorem toInt_eq (b : Word) : toInt b = if 2 * (b.toNat % 2 ^ 32) < 2 ^ 32 then ((b.toNat % 2 ^ 32 : Nat) : Int)
    else ((b.toNat % 2 ^ 32 : Nat) : Int) - 2 ^ 32 := by
  rw [toInt, BitVec.toInt_eq_toNat_cond, BitVec.toNat_setWidth]
  rfl

/-- The byte of the `int` is another one: a positive one is that of a smaller block, and a negative one does not
    lie in the bitmap, but for byte 0. -/
theorem bitmapPtr_ne (h : 2 ^ 31 ≤ b.toNat) : (bitmapPtr s (toInt b)).toNat ≠ s.bitmapAddr (b.toNat / 8) := by
  have hb := b.isLt
  intro heq
  have hptr : BitVec.ofInt 64 ((toInt b).tdiv 8) = BitVec.ofNat 64 (b.toNat / 8) := by
    have := BitVec.eq_of_toNat_eq heq
    rw [bitmapPtr] at this
    exact (BitVec.add_right_inj _).mp this
  have hnat := congrArg BitVec.toNat hptr
  rw [BitVec.toNat_ofNat, toInt_eq] at hnat
  split at hnat
  · rw [tdiv_natCast, BitVec.ofInt_natCast, BitVec.toNat_ofNat] at hnat
    omega
  · obtain ⟨m, hm⟩ : ∃ m : Nat, ((b.toNat % 2 ^ 32 : Nat) : Int) - 2 ^ 32 = -(m : Int) ∧ m ≤ 2 ^ 31 :=
      ⟨2 ^ 32 - b.toNat % 2 ^ 32, by omega, by omega⟩
    rw [hm.1, Int.neg_tdiv, tdiv_natCast, BitVec.toNat_ofInt] at hnat
    omega

theorem not_addressesBit (h : 2 ^ 31 ≤ b.toNat) : ¬AddressesBit s b := by
  intro haddr
  -- In a bitmap of zeros the bit is not set.
  have hkept : (mmapSet { s with mem := fun _ => 0 } (toInt b)).mem (s.bitmapAddr (b.toNat / 8)) = 0 :=
    mem_mmapSet_of_ne (bitmapPtr_ne h).symm
  have hwritten : (State.setBit { s with mem := fun _ => 0 } b.toNat).mem (s.bitmapAddr (b.toNat / 8)) =
      BitVec.twoPow 8 (b.toNat % 8) := (Memory.set_same _ _ _).trans BitVec.zero_or
  rw [haddr.set, hwritten] at hkept
  have hbit : (BitVec.twoPow 8 (b.toNat % 8)).getLsbD (b.toNat % 8) = true := by
    rw [BitVec.getLsbD_twoPow, decide_eq_true (Nat.mod_lt b.toNat (by decide : 8 > 0)), decide_eq_true rfl]
    rfl
  rw [hkept] at hbit
  exact absurd hbit (by simp)

/-- A block is addressed exactly when its number is below 2^31, and so all blocks are when there are no more than
    2^31. -/
theorem addressesBit_iff (s : State) : (∀ b, AddressesBit s b ↔ b.toNat < 2 ^ 31) ∧
    ((∀ b < s.pmmBlockCount, AddressesBit s b) ↔ s.pmmBlockCount.toNat ≤ 2 ^ 31) := by
  have hone : ∀ b, AddressesBit s b ↔ b.toNat < 2 ^ 31 := by
    intro b
    constructor
    · intro h
      by_contra hge
      exact not_addressesBit (Nat.le_of_not_lt hge) h
    · exact addressesBit_of_lt
  refine ⟨hone, ?_⟩
  constructor
  · intro h
    by_contra hgt
    exact not_addressesBit (Nat.le_refl _) (h 0x80000000 (Nat.lt_of_not_le hgt))
  · intro hcount b hb
    have hlt : b.toNat < s.pmmBlockCount.toNat := hb
    exact (hone b).mpr (by omega)

end

/-- Eight more blocks than an `int` can number, with the bitmap at 1 GiB. -/
def wideState : State := { mem := fun _ => 0, pmmBlockCount := 0x80000008, pmmBitmap := 0x40000000 }

/-- The byte of block 2^31 is taken 2^28 bytes below the bitmap instead of above. -/
theorem wide_block_below : 0x80000000 < wideState.pmmBlockCount ∧
    bitmapPtr wideState (toInt 0x80000000) = wideState.pmmBitmap - 0x10000000 ∧ ¬AddressesBit wideState 0x80000000 :=
  ⟨by decide, by decide, not_addressesBit (by decide)⟩

end Neobird64
