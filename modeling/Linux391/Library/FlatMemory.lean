import Mathlib.Algebra.Group.Nat.Defs
import Mathlib.Logic.Function.Basic

/-!
A flat address space of 32 bits, with bytes and little-endian words in it.

Addresses are words themselves, so the space has no end: what goes beyond the last address goes on at
the first one. Places are given by their offset from a base, and a store is described by the
offsets it covers (`update_offset`, `store32_offset`).
-/

namespace Linux391.FlatMemory

abbrev Space := UInt32 → UInt8

/-- The bytes of a word, the least significant first. -/
def byteOf (v : UInt32) (i : Nat) : UInt8 := UInt8.ofNat (v.toNat / 256 ^ i)

def store32 (m : Space) (a v : UInt32) : Space := fun x =>
  if (x - a).toNat < 4 then byteOf v (x - a).toNat else m x

def load32 (m : Space) (a : UInt32) : UInt32 :=
  UInt32.ofNat ((m a).toNat + 256 * (m (a + 1)).toNat + 256 ^ 2 * (m (a + 2)).toNat +
    256 ^ 3 * (m (a + 3)).toNat)

variable {m : Space} {a base o v : UInt32} {k i : Nat}

theorem toNat_ofNat_of_lt (fits : k < 2 ^ 32) : (UInt32.ofNat k).toNat = k :=
  UInt32.toNat_ofNat_of_lt' fits

theorem eq_ofNat_iff (fits : k < 2 ^ 32) : o = UInt32.ofNat k ↔ o.toNat = k := by
  rw [← UInt32.toNat_inj, toNat_ofNat_of_lt fits]

theorem byteOf_zero (v : UInt32) : byteOf v 0 = v.toUInt8 := by
  rw [← UInt8.toNat_inj, byteOf, Nat.pow_zero, Nat.div_one, UInt8.toNat_ofNat', UInt32.toNat_toUInt8]

/-- One step on from an offset. -/
theorem add_ofNat_add (base : UInt32) (k i : Nat) :
    base + UInt32.ofNat k + UInt32.ofNat i = base + UInt32.ofNat (k + i) := by
  rw [UInt32.ofNat_add, UInt32.add_assoc]

theorem toNat_load32 : (load32 m a).toNat = (m a).toNat + 256 * (m (a + 1)).toNat +
    256 ^ 2 * (m (a + 2)).toNat + 256 ^ 3 * (m (a + 3)).toNat := by
  have zero := (m a).toNat_lt
  have one := (m (a + 1)).toNat_lt
  have two := (m (a + 2)).toNat_lt
  have three := (m (a + 3)).toNat_lt
  exact toNat_ofNat_of_lt (by omega)

theorem byteOf_load32 (inside : i < 4) : byteOf (load32 m a) i = m (a + UInt32.ofNat i) := by
  have zero := (m a).toNat_lt
  have one := (m (a + 1)).toNat_lt
  have two := (m (a + 2)).toNat_lt
  rw [← UInt8.toNat_inj, byteOf, toNat_load32, UInt8.toNat_ofNat']
  match i with
  | 0 =>
      have here : a + UInt32.ofNat 0 = a := UInt32.add_zero a
      rw [here]
      omega
  | 1 =>
      have here : a + UInt32.ofNat 1 = a + 1 := rfl
      rw [here]
      omega
  | 2 =>
      have here : a + UInt32.ofNat 2 = a + 2 := rfl
      rw [here]
      omega
  | 3 =>
      have three := (m (a + 3)).toNat_lt
      have here : a + UInt32.ofNat 3 = a + 3 := rfl
      rw [here]
      omega

/-- A byte stored at an offset. -/
theorem update_offset (fits : k < 2 ^ 32) (c : UInt8) :
    Function.update m (base + UInt32.ofNat k) c (base + o) =
      if o.toNat = k then c else m (base + o) := by
  rw [Function.update_apply]
  exact if_congr ((UInt32.add_right_inj base).trans (eq_ofNat_iff fits)) rfl rfl

/-- A word stored at an offset. -/
theorem store32_offset (fits : k + 4 ≤ 2 ^ 32) :
    store32 m (base + UInt32.ofNat k) v (base + o) =
      if k ≤ o.toNat ∧ o.toNat < k + 4 then byteOf v (o.toNat - k) else m (base + o) := by
  have bound := o.toNat_lt
  have distance : (base + o - (base + UInt32.ofNat k)).toNat = (2 ^ 32 - k + o.toNat) % 2 ^ 32 := by
    rw [UInt32.toNat_sub, UInt32.toNat_add, UInt32.toNat_add, toNat_ofNat_of_lt (by omega)]
    omega
  rw [store32, distance]
  by_cases inside : k ≤ o.toNat ∧ o.toNat < k + 4
  · have less : (2 ^ 32 - k + o.toNat) % 2 ^ 32 = o.toNat - k := by omega
    rw [if_pos inside, less, if_pos (by omega)]
  · rw [if_neg inside, if_neg (by omega)]

end Linux391.FlatMemory
