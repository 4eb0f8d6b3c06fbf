import Mathlib.Data.BitVec
import Mathlib.Tactic.Common

/-! Byte memory: single bytes, little-endian numbers and 64-bit words. Every write says what it
    leaves alone, so a user separates two accesses by comparing their ranges. -/

/-- The byte at each address. -/
abbrev Memory := Nat → BitVec 8

namespace Memory

def set (m : Memory) (a : Nat) (b : BitVec 8) : Memory := fun x => if x = a then b else m x

@[simp] theorem set_same (m : Memory) (a : Nat) (b : BitVec 8) : m.set a b a = b := by simp [set]

theorem set_of_ne (m : Memory) {a x : Nat} (b : BitVec 8) (h : x ≠ a) : m.set a b x = m x := by simp [set, h]

/-! ### Little-endian numbers -/

/-- The number spelled by the `n` bytes from `a` on, least significant byte first. -/
def readLE (m : Memory) : Nat → Nat → Nat
  | _, 0 => 0
  | a, n + 1 => (m a).toNat + 256 * readLE m (a + 1) n

/-- Store the low `n` bytes of `v` from `a` on, least significant byte first. -/
def writeLE (m : Memory) : Nat → Nat → Nat → Memory
  | _, 0, _ => m
  | a, n + 1, v => writeLE (m.set a (BitVec.ofNat 8 v)) (a + 1) n (v / 256)

theorem writeLE_of_outside {m : Memory} {x : Nat} :
    ∀ {n a v : Nat}, x < a ∨ a + n ≤ x → m.writeLE a n v x = m x := by
  intro n
  induction n generalizing m with
  | zero => intro a v _; rfl
  | succ n ih =>
    intro a v h
    rw [writeLE, ih (by omega), set_of_ne _ _ (by omega)]

theorem readLE_congr {m m' : Memory} :
    ∀ {n a : Nat}, (∀ x, a ≤ x → x < a + n → m' x = m x) → m'.readLE a n = m.readLE a n
  | 0, _, _ => rfl
  | n + 1, a, h => by
    rw [readLE, readLE, h a (by omega) (by omega), readLE_congr fun x hx hx' => h x (by omega) (by omega)]

theorem readLE_lt (m : Memory) : ∀ (n a : Nat), m.readLE a n < 256 ^ n
  | 0, _ => by simp [readLE]
  | n + 1, a => by
    have hb := (m a).isLt
    have ih := readLE_lt m n (a + 1)
    rw [readLE, pow_succ]
    omega

theorem readLE_writeLE {m : Memory} : ∀ {n a v : Nat}, (m.writeLE a n v).readLE a n = v % 256 ^ n := by
  intro n
  induction n generalizing m with
  | zero => intro a v; simp [readLE, Nat.mod_one]
  | succ n ih =>
    intro a v
    have hlow : (m.writeLE a (n + 1) v) a = BitVec.ofNat 8 v := by
      rw [writeLE, writeLE_of_outside (by omega), set_same]
    have hhigh : (m.writeLE a (n + 1) v).readLE (a + 1) n = v / 256 % 256 ^ n := by
      rw [writeLE, ih]
    have hmod : v % 256 ^ (n + 1) = v % 256 + 256 * (v / 256 % 256 ^ n) := by rw [Nat.pow_succ', Nat.mod_mul]
    rw [readLE, hlow, hhigh, hmod, BitVec.toNat_ofNat]

theorem readLE_zero {m : Memory} : ∀ {n a : Nat}, (∀ x, a ≤ x → x < a + n → m x = 0) → m.readLE a n = 0
  | 0, _, _ => rfl
  | n + 1, a, h => by
    rw [readLE, h a (by omega) (by omega), readLE_zero fun x hx hx' => h x (by omega) (by omega)]
    rfl

/-- Storing what is there already. -/
theorem writeLE_readLE (m : Memory) : ∀ (n a : Nat), m.writeLE a n (m.readLE a n) = m
  | 0, _ => rfl
  | n + 1, a => by
    have hb := (m a).isLt
    have hlow : BitVec.ofNat 8 ((m a).toNat + 256 * m.readLE (a + 1) n) = m a := BitVec.eq_of_toNat_eq (by
      rw [BitVec.toNat_ofNat]
      omega)
    have hset : m.set a (m a) = m := funext fun x => by
      by_cases hx : x = a
      · rw [hx, set_same]
      · rw [set_of_ne _ _ hx]
    have hhigh : ((m a).toNat + 256 * m.readLE (a + 1) n) / 256 = m.readLE (a + 1) n := by omega
    rw [readLE, writeLE, hlow, hset, hhigh, writeLE_readLE m n (a + 1)]

/-! ### Words -/

def read32 (m : Memory) (a : Nat) : BitVec 32 := BitVec.ofNat 32 (m.readLE a 4)

def read64 (m : Memory) (a : Nat) : BitVec 64 := BitVec.ofNat 64 (m.readLE a 8)

def write64 (m : Memory) (a : Nat) (v : BitVec 64) : Memory := m.writeLE a 8 v.toNat

@[simp] theorem read64_write64 (m : Memory) (a : Nat) (v : BitVec 64) : (m.write64 a v).read64 a = v := by
  apply BitVec.eq_of_toNat_eq
  have hv := v.isLt
  rw [read64, write64, readLE_writeLE, BitVec.toNat_ofNat]
  omega

@[simp] theorem write64_read64 (m : Memory) (a : Nat) : m.write64 a (m.read64 a) = m := by
  have hmod : m.readLE a 8 % 2 ^ 64 = m.readLE a 8 := Nat.mod_eq_of_lt (m.readLE_lt 8 a)
  rw [write64, read64, BitVec.toNat_ofNat, hmod, writeLE_readLE]

theorem write64_of_outside {m : Memory} {a x : Nat} {v : BitVec 64} (h : x < a ∨ a + 8 ≤ x) :
    m.write64 a v x = m x :=
  writeLE_of_outside h

theorem read64_congr {m m' : Memory} {a : Nat} (h : ∀ x, a ≤ x → x < a + 8 → m' x = m x) :
    m'.read64 a = m.read64 a := by
  rw [read64, read64, readLE_congr h]

theorem read32_congr {m m' : Memory} {a : Nat} (h : ∀ x, a ≤ x → x < a + 4 → m' x = m x) :
    m'.read32 a = m.read32 a := by
  rw [read32, read32, readLE_congr h]

theorem read64_zero {m : Memory} {a : Nat} (h : ∀ x, a ≤ x → x < a + 8 → m x = 0) : m.read64 a = 0 := by
  rw [read64, readLE_zero h]
  rfl

end Memory
