import Mathlib.Data.Nat.ModEq

/-! A counter that never goes back, of which a reader sees the value modulo `w`. The difference of two readings
    gives the distance modulo every divisor of `w`. -/

namespace WrapCounter
variable {m w b first now : Nat}

def reading (w now : Nat) : Nat := now % w

/-- The difference is computed modulo `b`, after the readings are converted to a wider type. -/
theorem sub_reading_mod (hm : m ∣ w) (hb : m ∣ b) (hw : w ≤ b) (hpos : 0 < w) (h : first ≤ now) :
    (b - reading w first + reading w now) % b % m = (now - first) % m := by
  have hlt : reading w first < w := Nat.mod_lt first hpos
  have hle : reading w first ≤ b := by omega
  have hread : ∀ c, reading w c ≡ c [MOD m] := fun c => (Nat.mod_modEq c w).of_dvd hm
  have hzero : b ≡ 0 [MOD m] := (Nat.modEq_zero_iff_dvd).mpr hb
  rw [Nat.mod_mod_of_dvd _ hb]
  have hsum : b - reading w first + reading w now + reading w first ≡ now - first + reading w first [MOD m] := by
    calc b - reading w first + reading w now + reading w first
        = b + reading w now := by omega
      _ ≡ 0 + now [MOD m] := hzero.add (hread now)
      _ = now - first + first := by omega
      _ ≡ now - first + reading w first [MOD m] := Nat.ModEq.rfl.add (hread first).symm
  exact Nat.ModEq.add_right_cancel' _ hsum

end WrapCounter
