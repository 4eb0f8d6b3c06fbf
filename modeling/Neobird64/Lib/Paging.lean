import Neobird64.Lib.Memory
import Mathlib.Data.Nat.Bitwise

/-! The 4-level page tables of the x86-64 in byte memory: the fields of an entry, the four indices of a
    virtual address and the walk from `cr3`. Only 4 KiB pages are translated: an upper-level entry with
    the page-size bit ends the walk. -/

namespace Paging

abbrev Entry := BitVec 64

def present (e : Entry) : Bool := e.getLsbD 0
def writable (e : Entry) : Bool := e.getLsbD 1
def user (e : Entry) : Bool := e.getLsbD 2
def pageSize (e : Entry) : Bool := e.getLsbD 7
def noExec (e : Entry) : Bool := e.getLsbD 63

/-- Bits 12 to 51, which hold the physical address of a table or a page. -/
def addrMask : Entry := 0x000ffffffffff000

/-- The physical address that an entry holds. -/
def frame (e : Entry) : Nat := (e &&& addrMask).toNat

/-- Entry `i` of the table at `t`. -/
def entry (m : Memory) (t : Nat) (i : Fin 512) : Entry := m.read64 (t + 8 * i)

/-- The nine index bits of `va` from bit `shift` on. -/
def index (va : BitVec 64) (shift : Nat) : Fin 512 :=
  ⟨va.toNat / 2 ^ shift % 512, Nat.mod_lt _ (by omega)⟩

/-- The indices of `va` in the three upper levels, top level first. -/
def upper (va : BitVec 64) : List (Fin 512) := [index va 39, index va 30, index va 21]

/-- Bits 47 to 12 of `va`, which select its page. -/
def vpn (va : BitVec 64) : Nat := va.toNat / 4096 % 2 ^ 36

structure Translation where
  page : Nat
  writable : Bool
  user : Bool
  noExec : Bool
  leaf : Entry
deriving DecidableEq, Repr

/-- The entry of an upper level when it leads to a table. -/
def tableEntry (m : Memory) (t : Nat) (i : Fin 512) : Option Entry :=
  let e := entry m t i
  if present e && !pageSize e then some e else none

/-- The translation of `va` under the tables at `cr3`: write and user rights are needed at every level,
    and one level is enough to forbid execution. -/
def walk (m : Memory) (cr3 : Nat) (va : BitVec 64) : Option Translation := do
  let e4 ← tableEntry m cr3 (index va 39)
  let e3 ← tableEntry m (frame e4) (index va 30)
  let e2 ← tableEntry m (frame e3) (index va 21)
  let e1 := entry m (frame e2) (index va 12)
  if present e1 then
    some {
      page := frame e1
      writable := writable e4 && writable e3 && writable e2 && writable e1
      user := user e4 && user e3 && user e2 && user e1
      noExec := noExec e4 || noExec e3 || noExec e2 || noExec e1
      leaf := e1 }
  else none

/-- The address is in the lower half: bits 63 to 47 are clear. -/
def Low (va : BitVec 64) : Prop := va.toNat < 2 ^ 47

/-- The address is in the higher half: bits 63 to 47 are set. -/
def High (va : BitVec 64) : Prop := 2 ^ 64 - 2 ^ 47 ≤ va.toNat

instance (va : BitVec 64) : Decidable (Low va) := inferInstanceAs (Decidable (_ < _))
instance (va : BitVec 64) : Decidable (High va) := inferInstanceAs (Decidable (_ ≤ _))

/-- The physical address of the byte at `va`; an address in neither half faults. -/
def translate (m : Memory) (cr3 : Nat) (va : BitVec 64) : Option Nat :=
  if Low va ∨ High va then (walk m cr3 va).map fun t => t.page + va.toNat % 4096 else none

/-! ### Entries -/

theorem addrMask_toNat : addrMask.toNat = (2 ^ 40 - 1) <<< 12 := by decide

theorem frame_eq (e : Entry) : frame e = e.toNat % 2 ^ 52 / 4096 * 4096 := by
  have hpow : (4096 : Nat) = 2 ^ 12 := by decide
  unfold frame
  rw [BitVec.toNat_and, addrMask_toNat]
  apply Nat.eq_of_testBit_eq
  intro i
  rw [hpow, ← Nat.shiftLeft_eq, ← Nat.shiftRight_eq_div_pow]
  simp only [Nat.testBit_and, Nat.testBit_shiftLeft, Nat.testBit_shiftRight, Nat.testBit_mod_two_pow,
    Nat.testBit_two_pow_sub_one]
  by_cases h : 12 ≤ i
  · have hi : 12 + (i - 12) = i := by omega
    have hiff : (i - 12 < 40) ↔ i < 52 := by omega
    simp [h, hi, hiff, Bool.and_comm]
  · simp [h]

theorem frame_mod (e : Entry) : frame e % 4096 = 0 := by
  rw [frame_eq]
  omega

theorem frame_lt (e : Entry) : frame e + 4096 ≤ 2 ^ 52 := by
  rw [frame_eq]
  omega

theorem ofNat_frame (e : Entry) : BitVec.ofNat 64 (frame e) = e &&& addrMask := by
  rw [frame, BitVec.ofNat_toNat, BitVec.setWidth_eq]

/-- Flags outside the address field leave the page of an address below 2^52 as it is. -/
theorem frame_or {pa flags : Entry} (hpa : pa.toNat < 2 ^ 52) (hflags : flags &&& addrMask = 0) :
    frame (pa ||| flags) = pa.toNat / 4096 * 4096 := by
  have hor : (pa ||| flags) &&& addrMask = pa &&& addrMask := by
    simp [BitVec.and_or_distrib_right, hflags]
  rw [frame, hor, ← frame, frame_eq, Nat.mod_eq_of_lt hpa]

/-- The address of a page has no bit outside the address field. -/
theorem getLsbD_or {pa flags : Entry} (hpa : pa.toNat < 2 ^ 52) (hal : pa.toNat % 4096 = 0) {k : Nat}
    (hk : k < 12 ∨ 52 ≤ k) : (pa ||| flags).getLsbD k = flags.getLsbD k := by
  have hbit : pa.getLsbD k = false := by
    rw [BitVec.getLsbD]
    rcases hk with hk | hk
    · have hpow : pa.toNat = 2 ^ 12 * (pa.toNat / 4096) := by omega
      rw [hpow, Nat.testBit_two_pow_mul]
      simp [hk]
    · exact Nat.testBit_lt_two_pow (lt_of_lt_of_le hpa (Nat.pow_le_pow_right (by omega) hk))
  rw [BitVec.getLsbD_or, hbit, Bool.false_or]

theorem getLsbD_addrMask (i : Nat) : addrMask.getLsbD i = (decide (12 ≤ i) && decide (i < 52)) := by
  have hiff : 12 ≤ i → (i - 12 < 40 ↔ i < 52) := fun h => by omega
  rw [BitVec.getLsbD, addrMask_toNat, Nat.testBit_shiftLeft, Nat.testBit_two_pow_sub_one]
  by_cases h : 12 ≤ i <;> simp [h, hiff]

/-- The bits of an entry outside the address field: the low bits of an address that is not the base of a
    page, and the flags. -/
theorem or_and_not_addrMask {pa flags : Entry} (hpa : pa.toNat < 2 ^ 52) (hflags : flags &&& addrMask = 0) :
    (pa ||| flags) &&& ~~~addrMask = (pa &&& 0xfff) ||| flags := by
  have hlow : (0xfff : Entry).toNat = 2 ^ 12 - 1 := by decide
  apply BitVec.eq_of_getLsbD_eq
  intro i hi
  have hflag : (flags.getLsbD i && addrMask.getLsbD i) = false := by
    rw [← BitVec.getLsbD_and, hflags]
    exact BitVec.getLsbD_zero
  have hmask : (0xfff : Entry).getLsbD i = decide (i < 12) := by
    rw [BitVec.getLsbD, hlow, Nat.testBit_two_pow_sub_one]
  have htop : 52 ≤ i → pa.getLsbD i = false := fun h =>
    Nat.testBit_lt_two_pow (lt_of_lt_of_le hpa (Nat.pow_le_pow_right (by omega) h))
  rw [getLsbD_addrMask] at hflag
  rw [BitVec.getLsbD_and, BitVec.getLsbD_or, BitVec.getLsbD_or, BitVec.getLsbD_and, BitVec.getLsbD_not, getLsbD_addrMask,
    hmask]
  generalize flags.getLsbD i = y at hflag
  generalize pa.getLsbD i = x at htop
  rcases lt_or_ge i 12 with h | h
  · simp [h, hi]
  · rcases lt_or_ge i 52 with h' | h'
    · have hy : y = false := by simpa [h, h'] using hflag
      simp [h, h', hy]
    · simp [h, h', htop h', hi]

/-! ### Indices -/

theorem index_toNat (va : BitVec 64) (shift : Nat) : (index va shift : Nat) = va.toNat / 2 ^ shift % 512 := rfl

/-- The index that the source computes by a shift and a mask. -/
theorem index_eq (va : BitVec 64) (shift : Nat) :
    ((va >>> shift) &&& 0x1ff) = BitVec.ofNat 64 (index va shift) := by
  apply BitVec.eq_of_toNat_eq
  have hmask : (0x1ff : BitVec 64).toNat = 2 ^ 9 - 1 := by decide
  rw [BitVec.toNat_and, hmask, Nat.and_two_pow_sub_one_eq_mod, BitVec.toNat_ushiftRight,
    Nat.shiftRight_eq_div_pow, BitVec.toNat_ofNat, index_toNat]
  omega

/-- Two addresses select the same page when they agree on all four indices. -/
theorem vpn_eq_iff {va va' : BitVec 64} :
    vpn va = vpn va' ↔ upper va = upper va' ∧ index va 12 = index va' 12 := by
  unfold vpn upper index
  simp only [List.cons.injEq, and_true, Fin.mk.injEq]
  omega

/-- The upper indices select a region of 2 MiB. -/
theorem upper_eq_of_region {va va' : BitVec 64} (h : va.toNat / 2 ^ 21 = va'.toNat / 2 ^ 21) : upper va = upper va' := by
  unfold upper index
  simp only [List.cons.injEq, and_true, Fin.mk.injEq]
  omega

/-! ### The halves of the address space -/

theorem vpn_of_low {va : BitVec 64} (h : Low va) : vpn va = va.toNat / 4096 := by
  rw [Low] at h
  rw [vpn, Nat.mod_eq_of_lt (by omega)]

theorem vpn_eq_iff_of_high {va va' : BitVec 64} (h : High va) (h' : High va') :
    vpn va = vpn va' ↔ va.toNat / 4096 = va'.toNat / 4096 := by
  have hlt := va.isLt
  have hlt' := va'.isLt
  rw [High] at h h'
  rw [vpn, vpn]
  omega

theorem vpn_ne_of_low_of_high {va va' : BitVec 64} (h : Low va) (h' : High va') : vpn va ≠ vpn va' := by
  have hlt := va'.isLt
  rw [Low] at h
  rw [High] at h'
  rw [vpn, vpn]
  omega

end Paging
