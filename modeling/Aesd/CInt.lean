/-
**C's fixed-width integers.**

An object of a fixed-width type is modelled by its value, a natural number or an integer; what the
width does is made explicit where a value is converted or an operation can leave the range.  This
module has the two conversions — to the unsigned and to the signed type of a given width — and the
facts about them that mixed arithmetic needs: a value in range is converted to itself, and a detour
through the signed type does not change the unsigned value.

* `CInt.unsigned`, `CInt.signed` — conversion to the unsigned and to the signed type of width `w`;
* `CInt.unsigned_of_lt`, `CInt.signed_of_range` — values in range;
* `CInt.unsigned_signed` — the detour through the signed type.
-/

import Mathlib.Data.Int.ModEq
import Mathlib.Tactic.Positivity
import Mathlib.Tactic.Ring

set_option relaxedAutoImplicit false
set_option autoImplicit false

namespace CInt

/-- Conversion to the unsigned type of width `w`: reduction modulo `2 ^ w`. -/
def unsigned (w : ℕ) (x : ℤ) : ℕ := (x % (2 ^ w : ℕ)).toNat

/-- Conversion to the signed type of width `w`: the representative of `x` modulo `2 ^ w` in
`[-2 ^ (w - 1), 2 ^ (w - 1))`. -/
def signed (w : ℕ) (x : ℤ) : ℤ :=
  if unsigned w x < 2 ^ (w - 1) then unsigned w x else (unsigned w x : ℤ) - (2 ^ w : ℕ)

theorem unsigned_cast (w : ℕ) (x : ℤ) : (unsigned w x : ℤ) = x % 2 ^ w := by
  rw [unsigned, Int.toNat_of_nonneg (Int.emod_nonneg _ (by positivity))]
  push_cast
  rfl

theorem unsigned_lt (w : ℕ) (x : ℤ) : unsigned w x < 2 ^ w := by
  have h : (unsigned w x : ℤ) < 2 ^ w := by
    rw [unsigned_cast]
    exact Int.emod_lt_of_pos _ (by positivity)
  exact_mod_cast h

/-- A value in range is converted to itself. -/
theorem unsigned_of_lt {w n : ℕ} (h : n < 2 ^ w) : unsigned w (n : ℤ) = n := by
  have hn : ((n : ℤ) % (2 ^ w : ℕ)) = n := Int.emod_eq_of_lt (by positivity) (by exact_mod_cast h)
  rw [unsigned, hn, Int.toNat_natCast]

/-- A value in range is converted to itself. -/
theorem signed_of_range {w : ℕ} {x : ℤ} (h₀ : -(2 ^ w) ≤ x) (h₁ : x < 2 ^ w) :
    signed (w + 1) x = x := by
  have hcast := unsigned_cast (w + 1) x
  have hpow : (2 : ℤ) ^ (w + 1) = 2 * 2 ^ w := by ring
  have hlt : (unsigned (w + 1) x < 2 ^ (w + 1 - 1)) ↔ (unsigned (w + 1) x : ℤ) < 2 ^ w := by
    rw [Nat.add_sub_cancel]
    exact_mod_cast Iff.rfl
  have hnat : ((2 ^ (w + 1) : ℕ) : ℤ) = 2 * 2 ^ w := by push_cast; ring
  simp only [signed, hlt, hcast, hpow, hnat]
  rcases lt_or_ge x 0 with hneg | hpos
  · have hmod : x % (2 * 2 ^ w) = x + 2 * 2 ^ w := by
      rw [← Int.add_emod_right, Int.emod_eq_of_lt (by omega) (by omega)]
    rw [hmod, if_neg (by omega)]
    omega
  · rw [Int.emod_eq_of_lt hpos (by omega), if_pos h₁]

/-- The signed value is the value itself, modulo `2 ^ w`. -/
theorem signed_emod (w : ℕ) (x : ℤ) : signed w x % (2 ^ w : ℕ) = x % (2 ^ w : ℕ) := by
  have hcast : (unsigned w x : ℤ) = x % (2 ^ w : ℕ) := by
    rw [unsigned_cast]
    push_cast
    rfl
  rw [signed, hcast]
  split
  · rw [Int.emod_emod]
  · rw [Int.sub_emod_right, Int.emod_emod]

/-- Only the value modulo `2 ^ w` matters. -/
theorem signed_congr {w : ℕ} {x y : ℤ} (h : x % (2 ^ w : ℕ) = y % (2 ^ w : ℕ)) :
    signed w x = signed w y := by
  have hu : unsigned w x = unsigned w y := by rw [unsigned, h, unsigned]
  rw [signed, signed, hu]

/-- The unsigned value does not notice a detour through the signed type of the same width. -/
theorem unsigned_signed (w : ℕ) (x : ℤ) : unsigned w (signed w x) = unsigned w x := by
  rw [unsigned, signed_emod, unsigned]

/-- The signed value is the unsigned one as long as that is below half the range. -/
theorem signed_of_unsigned_lt {w : ℕ} {x : ℤ} (h : unsigned w x < 2 ^ (w - 1)) :
    signed w x = unsigned w x := if_pos h

end CInt
