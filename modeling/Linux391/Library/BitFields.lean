import Mathlib.Algebra.Group.Nat.Defs
import Mathlib.Data.Nat.ModEq

/-!
Packed bit fields.

`pack` lays fields out from the least significant bit on, each cut to its width, as a packed
structure of bit fields is laid out. `extract` reads some of the bits back. The two are
related field by field: `extract_first` reads the field in front, `extract_rest` goes past it.
-/

namespace Linux391.BitFields

/-- Fields as width and value, the least significant first. -/
def pack : List (Nat × Nat) → Nat
  | [] => 0
  | (w, v) :: rest => v % 2 ^ w + 2 ^ w * pack rest

/-- The `w` bits from bit `lo` on. -/
def extract (x lo w : Nat) : Nat := x / 2 ^ lo % 2 ^ w

variable {v w lo l x : Nat} {rest : List (Nat × Nat)}

theorem extract_first : extract (pack ((w, v) :: rest)) 0 w = v % 2 ^ w := by
  rw [extract, pack, Nat.pow_zero, Nat.div_one, Nat.add_mul_mod_self_left, Nat.mod_mod]

theorem extract_rest (past : w ≤ lo) :
    extract (pack ((w, v) :: rest)) lo l = extract (pack rest) (lo - w) l := by
  have split : 2 ^ lo = 2 ^ w * 2 ^ (lo - w) := by rw [← Nat.pow_add, Nat.add_sub_cancel' past]
  have pos : 0 < 2 ^ w := Nat.two_pow_pos w
  rw [extract, extract, pack, split, ← Nat.div_div_eq_div_mul, Nat.add_mul_div_left _ _ pos,
    Nat.div_eq_of_lt (Nat.mod_lt v pos), Nat.zero_add]

/-- Neighbouring fields read as one. -/
theorem extract_add (x lo w l : Nat) :
    extract x lo (w + l) = extract x lo w + 2 ^ w * extract x (lo + w) l := by
  rw [extract, extract, extract, Nat.pow_add, Nat.mod_mul, Nat.pow_add, Nat.div_div_eq_div_mul]

end Linux391.BitFields
