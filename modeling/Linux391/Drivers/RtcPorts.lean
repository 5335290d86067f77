import Linux391.Drivers.Rtc
import Mathlib.Algebra.Ring.Int.Defs
import Mathlib.Algebra.Ring.Nat

/-!
The clock behind its ports.

`rtc_write` reaches register A through two ports: a byte written to `RTC_PORT` selects a
register, and `RTC_CMOS` reads or writes the selected one. `Cmos` is that register file
with the writes the ports have seen. `rtc_programming_exact` says which rates are
accepted and what they leave in the register, and `rtcWrite_eq` that register A alone,
as the rest of the kernel's model keeps it, is what is left here.
-/

namespace Linux391

/-- The two ports of `rtc.h`. -/
inductive RtcPort where
  | rtcPort
  | rtcCmos
  deriving DecidableEq, Repr

/-- The registers, the byte that selects one of them, and the bytes written to the ports,
the last one last. -/
structure Cmos where
  index : UInt8
  regs : UInt8 → UInt8
  written : List (RtcPort × UInt8)

namespace Cmos

/-- The register selected. Bit 7 of the index disables NMIs and selects nothing. -/
def selected (c : Cmos) : UInt8 := c.index &&& 0x7F

/-- `outb(value, port)`. -/
def outb (c : Cmos) (value : UInt8) (port : RtcPort) : Cmos :=
  let c := { c with written := c.written ++ [(port, value)] }
  match port with
  | .rtcPort => { c with index := value }
  | .rtcCmos => { c with regs := fun r => if r = c.selected then value else c.regs r }

/-- `inb(RTC_CMOS)`. -/
def inb (c : Cmos) : UInt8 := c.regs c.selected

/-- The loop that looks up the divider, with `n` rounds to go. It leaves `divider_value`
alone when no bit is found. -/
def lookUpDivider (rtcRate : BitVec 32) (dividerValue : UInt8) : Nat → Nat → BitVec 32 → UInt8
  | 0, _, _ => dividerValue
  | n + 1, i, bitmask =>
      if rtcRate &&& bitmask ≠ 0 then UInt8.ofNat (16 - i)
      else lookUpDivider rtcRate dividerValue n (i + 1) (bitmask <<< 1)

/-- The test for a power of two. -/
def isPowerOfTwo (rtcRate : BitVec 32) : Bool :=
  rtcRate != 0 && rtcRate &&& (~~~rtcRate + 1) == rtcRate

/-- `rtc_write` of a rate. `dividerValue` is what the uninitialised local held. -/
def rtcWrite (c : Cmos) (rtcRate : BitVec 32) (dividerValue : UInt8) : Int × Cmos :=
  if 1024 < rtcRate.toInt ∨ rtcRate.toInt < 2 then (-1, c)
  else if !isPowerOfTwo rtcRate then (-1, c)
  else
    let dividerValue := lookUpDivider (rtcRate &&& 0xFFF) dividerValue 12 0 1
    let c := c.outb 0x8A .rtcPort
    let prev := c.inb
    let c := c.outb 0x8A .rtcPort
    (0, c.outb ((prev &&& 0xF0) ||| dividerValue) .rtcCmos)

/-! ### Rates -/

/-- The rates the clock can be set to: the powers of two from 2 to 1024. -/
def Programmable (rate : Int) : Prop :=
  ∃ e : Nat, rate = 2 ^ e ∧ 2 ≤ rate ∧ rate ≤ 1024

theorem programmable_iff (rate : Int) :
    Programmable rate ↔ ∃ e : Nat, 1 ≤ e ∧ e ≤ 10 ∧ rate = 2 ^ e := by
  constructor
  · rintro ⟨e, power, low, high⟩
    refine ⟨e, ?_, ?_, power⟩
    · rcases e with _ | e
      · rw [power] at low
        exact absurd low (by decide)
      · omega
    · by_contra large
      have : (2 : Int) ^ 11 ≤ 2 ^ e := by
        exact_mod_cast Nat.pow_le_pow_right (n := 2) (by decide) (by omega)
      omega
  · rintro ⟨e, low, high, power⟩
    have atLeast : (2 : Int) ^ 1 ≤ 2 ^ e := by
      exact_mod_cast Nat.pow_le_pow_right (n := 2) (by decide) low
    have atMost : (2 : Int) ^ e ≤ 2 ^ 10 := by
      exact_mod_cast Nat.pow_le_pow_right (n := 2) (by decide) high
    exact ⟨e, power, by omega, by omega⟩

/-- The bit trick in natural numbers. -/
theorem isPowerOfTwo_ofNat {n : Nat} (positive : 0 < n) (small : n < 2 ^ 32) :
    isPowerOfTwo (BitVec.ofNat 32 n) = true ↔ n &&& (2 ^ 32 - n) = n := by
  have value : (BitVec.ofNat 32 n).toNat = n := by
    rw [BitVec.toNat_ofNat, Nat.mod_eq_of_lt small]
  have nonzero : BitVec.ofNat 32 n ≠ 0 := by
    intro zero
    rw [zero] at value
    exact absurd value (Nat.ne_of_lt positive)
  have trick : ~~~BitVec.ofNat 32 n + 1 = -BitVec.ofNat 32 n := (BitVec.neg_eq_not_add _).symm
  simp only [isPowerOfTwo, bne_iff_ne, Bool.and_eq_true, beq_iff_eq, nonzero, ne_eq,
    not_false_eq_true, true_and, trick]
  rw [← BitVec.toNat_inj, BitVec.toNat_and, BitVec.toNat_neg, value, Nat.mod_eq_of_lt (by omega)]

/-- In the range the driver accepts, the bit trick finds the powers of two. -/
theorem isPowerOfTwo_iff {n : Nat} (low : 2 ≤ n) (high : n ≤ 1024) :
    isPowerOfTwo (BitVec.ofNat 32 n) = true ↔ ∃ e, 1 ≤ e ∧ e ≤ 10 ∧ n = 2 ^ e := by
  rw [isPowerOfTwo_ofNat (by omega) (by omega)]
  constructor
  · intro trick
    have table : ∀ n < 1025, n &&& (2 ^ 32 - n) = n →
        n < 2 ∨ n ∈ [2, 4, 8, 16, 32, 64, 128, 256, 512, 1024] := by
      decide +kernel
    have powers : ∀ n ∈ [2, 4, 8, 16, 32, 64, 128, 256, 512, 1024],
        ∃ e < 11, 1 ≤ e ∧ n = 2 ^ e := by decide
    obtain ⟨e, below, positive, power⟩ :=
      powers n ((table n (by omega) trick).resolve_left (by omega))
    exact ⟨e, positive, by omega, power⟩
  · rintro ⟨e, positive, below, rfl⟩
    have table : ∀ e < 11, 2 ^ e &&& (2 ^ 32 - 2 ^ e) = 2 ^ e := by decide
    exact table e (by omega)

/-- A word in the range, as a natural number. -/
theorem ofNat_of_range (rate : BitVec 32) (low : 2 ≤ rate.toInt) (high : rate.toInt ≤ 1024) :
    ∃ n : Nat, 2 ≤ n ∧ n ≤ 1024 ∧ rate = BitVec.ofNat 32 n ∧ rate.toInt = n := by
  refine ⟨rate.toInt.toNat, by omega, by omega, ?_, by omega⟩
  rw [← BitVec.ofInt_natCast, Int.toNat_of_nonneg (by omega), BitVec.ofInt_toInt]

/-- The two tests together accept exactly the programmable rates. -/
theorem accepts_iff (rate : BitVec 32) :
    (¬ (1024 < rate.toInt ∨ rate.toInt < 2) ∧ isPowerOfTwo rate = true) ↔
      Programmable rate.toInt := by
  rw [programmable_iff]
  constructor
  · rintro ⟨range, power⟩
    obtain ⟨n, low, high, rfl, same⟩ := ofNat_of_range rate (by omega) (by omega)
    obtain ⟨e, positive, below, rfl⟩ := (isPowerOfTwo_iff low high).mp power
    exact ⟨e, positive, below, by rw [same]; push_cast; rfl⟩
  · intro programmable
    obtain ⟨-, -, low, high⟩ := (programmable_iff _).mpr programmable
    obtain ⟨n, low', high', rfl, same⟩ := ofNat_of_range _ low high
    obtain ⟨e, positive, below, power⟩ := programmable
    refine ⟨by omega, (isPowerOfTwo_iff low' high').mpr ⟨e, positive, below, ?_⟩⟩
    rw [same] at power
    exact_mod_cast power

/-- The divider of `2 ^ e`, whatever the local held. -/
theorem lookUpDivider_pow (dividerValue : UInt8) {e : Nat} (low : 1 ≤ e) (high : e ≤ 10) :
    lookUpDivider (BitVec.ofNat 32 (2 ^ e) &&& 0xFFF) dividerValue 12 0 1 =
      UInt8.ofNat (16 - e) := by
  have cases : e = 1 ∨ e = 2 ∨ e = 3 ∨ e = 4 ∨ e = 5 ∨ e = 6 ∨ e = 7 ∨ e = 8 ∨ e = 9 ∨ e = 10 := by
    omega
  rcases cases with rfl | rfl | rfl | rfl | rfl | rfl | rfl | rfl | rfl | rfl <;> rfl

/-- The hardware's formula for the rate of a divider, solved for the divider. -/
theorem rate_of_divider {e d : Nat} (low : 1 ≤ e) (high : e ≤ 10) (positive : 1 ≤ d) :
    32768 >>> (d - 1) = 2 ^ e ↔ d = 16 - e := by
  rw [Nat.shiftRight_eq_div_pow]
  rcases Nat.lt_or_ge 16 d with large | small
  · have zero : 32768 / 2 ^ (d - 1) = 0 := by
      apply Nat.div_eq_of_lt
      calc 32768 < 2 ^ 16 := by decide
        _ ≤ 2 ^ (d - 1) := Nat.pow_le_pow_right (by decide) (by omega)
    have := Nat.two_pow_pos e
    omega
  · have quotient : 32768 / 2 ^ (d - 1) = 2 ^ (16 - d) := by
      rw [show (32768 : Nat) = 2 ^ 15 from rfl, Nat.pow_div (by omega) (by decide)]
      congr 1
      omega
    rw [quotient, Nat.pow_right_inj (by decide)]
    omega

/-! ### Register A -/

@[simp] theorem regs_outb_rtcPort (c : Cmos) (value : UInt8) :
    (c.outb value .rtcPort).regs = c.regs := rfl

@[simp] theorem index_outb_rtcPort (c : Cmos) (value : UInt8) :
    (c.outb value .rtcPort).index = value := rfl

theorem regs_outb_rtcCmos (c : Cmos) (value r : UInt8) :
    (c.outb value .rtcCmos).regs r = if r = c.index &&& 0x7F then value else c.regs r := rfl

@[simp] theorem inb_outb_rtcPort (c : Cmos) (value : UInt8) :
    (c.outb value .rtcPort).inb = c.regs (value &&& 0x7F) := rfl

/-- `RTC_REG_A_M` selects register A. -/
theorem selects_regA : (0x8A : UInt8) &&& 0x7F = 0x0A := by decide

/-- What an accepted rate leaves on the ports and in the registers. -/
theorem rtcWrite_of_programmable (c : Cmos) (rate : BitVec 32) (dividerValue : UInt8) {e : Nat}
    (low : 1 ≤ e) (high : e ≤ 10) (power : rate.toInt = 2 ^ e) :
    c.rtcWrite rate dividerValue =
      (0, ((c.outb 0x8A .rtcPort).outb 0x8A .rtcPort).outb
        ((c.regs 0x0A &&& 0xF0) ||| UInt8.ofNat (16 - e)) .rtcCmos) := by
  obtain ⟨range, test⟩ := (accepts_iff rate).mpr ((programmable_iff _).mpr ⟨e, low, high, power⟩)
  obtain ⟨n, -, -, rfl, same⟩ := ofNat_of_range rate (by omega) (by omega)
  obtain rfl : n = 2 ^ e := by
    rw [same] at power
    exact_mod_cast power
  rw [rtcWrite, if_neg range, if_neg (by rw [test]; decide), lookUpDivider_pow _ low high]
  simp only [inb_outb_rtcPort, selects_regA]

theorem rtcWrite_of_not_programmable (c : Cmos) {rate : BitVec 32} (dividerValue : UInt8)
    (refused : ¬ Programmable rate.toInt) : c.rtcWrite rate dividerValue = (-1, c) := by
  rw [← accepts_iff, not_and] at refused
  unfold rtcWrite
  by_cases range : 1024 < rate.toInt ∨ rate.toInt < 2
  · rw [if_pos range]
  · rw [if_neg range, if_pos (by simpa using refused range)]

theorem rtcWrite_eq_zero_iff (c : Cmos) (rate : BitVec 32) (dividerValue : UInt8) :
    (c.rtcWrite rate dividerValue).1 = 0 ↔ Programmable rate.toInt := by
  constructor
  · intro accepted
    by_contra refused
    rw [rtcWrite_of_not_programmable c dividerValue refused] at accepted
    exact absurd accepted (by simp)
  · intro programmable
    obtain ⟨e, low, high, power⟩ := (programmable_iff _).mp programmable
    rw [rtcWrite_of_programmable c rate dividerValue low high power]

/-- Mask and divider do not meet in a byte. -/
theorem nibbles (a : UInt8) {d : Nat} (small : d < 16) :
    ((a &&& 0xF0) ||| UInt8.ofNat d) &&& 0xF0 = a &&& 0xF0 ∧
      (((a &&& 0xF0) ||| UInt8.ofNat d) &&& 0x0F).toNat = d := by
  have table : ∀ d < 16, UInt8.ofNat d &&& 0xF0 = 0 ∧ UInt8.ofNat d &&& 0x0F = UInt8.ofNat d ∧
      (UInt8.ofNat d).toNat = d := by decide
  have distrib : ∀ a b c : UInt8, (a ||| b) &&& c = (a &&& c) ||| (b &&& c) := by
    intro a b c
    apply UInt8.toBitVec_inj.mp
    simp only [UInt8.toBitVec_and, UInt8.toBitVec_or, BitVec.and_or_distrib_right]
  obtain ⟨high, low, same⟩ := table d small
  rw [distrib, distrib, UInt8.and_assoc, UInt8.and_assoc, high, low]
  refine ⟨?_, ?_⟩
  · simp
  · simp [same]

/-- Every word and every content of the registers: `rtc_write` returns 0 exactly on a power
of two from 2 to 1024. It then keeps the high nibble of register A, puts in the low nibble
the divider the clock needs for that rate and changes no other register. On every other
word it returns -1 and writes no port. -/
theorem rtc_programming_exact (c : Cmos) (rate : BitVec 32) (dividerValue : UInt8) :
    ((c.rtcWrite rate dividerValue).1 = 0 ↔ Programmable rate.toInt) ∧
      (Programmable rate.toInt →
        (c.rtcWrite rate dividerValue).2.regs 0x0A &&& 0xF0 = c.regs 0x0A &&& 0xF0 ∧
        (∀ d : Nat, 1 ≤ d →
          (((c.rtcWrite rate dividerValue).2.regs 0x0A &&& 0x0F).toNat = d ↔
            ((32768 >>> (d - 1) : Nat) : Int) = rate.toInt)) ∧
        ∀ r, r ≠ 0x0A → (c.rtcWrite rate dividerValue).2.regs r = c.regs r) ∧
      (¬ Programmable rate.toInt → c.rtcWrite rate dividerValue = (-1, c)) := by
  refine ⟨rtcWrite_eq_zero_iff c rate dividerValue, ?_, rtcWrite_of_not_programmable c dividerValue⟩
  intro programmable
  obtain ⟨e, low, high, power⟩ := (programmable_iff _).mp programmable
  rw [rtcWrite_of_programmable c rate dividerValue low high power]
  simp only [regs_outb_rtcCmos, index_outb_rtcPort, regs_outb_rtcPort, selects_regA]
  obtain ⟨kept, set⟩ := nibbles (c.regs 0x0A) (d := 16 - e) (by omega)
  refine ⟨?_, ?_, ?_⟩
  · rw [if_pos trivial, kept]
  · intro d positive
    rw [if_pos trivial, set, power]
    have := rate_of_divider low high positive
    constructor
    · intro divider
      exact_mod_cast this.mpr divider.symm
    · intro formula
      exact (this.mp (by exact_mod_cast formula)).symm
  · intro r other
    rw [if_neg other]

/-- `rtcWrite` on register A alone, at an accepted rate. -/
theorem rtcWrite_pow (regA : UInt8) {e : Nat} (low : 1 ≤ e) (high : e ≤ 10) :
    Linux391.rtcWrite regA (2 ^ e) = (0, (regA &&& 0xF0) ||| UInt8.ofNat (16 - e)) := by
  have cases : e = 1 ∨ e = 2 ∨ e = 3 ∨ e = 4 ∨ e = 5 ∨ e = 6 ∨ e = 7 ∨ e = 8 ∨ e = 9 ∨ e = 10 := by
    omega
  rcases cases with rfl | rfl | rfl | rfl | rfl | rfl | rfl | rfl | rfl | rfl <;>
    simp [Linux391.rtcWrite, List.range, List.range.loop]

/-- Register A alone, as the kernel's model of the clock keeps it. -/
theorem rtcWrite_eq (c : Cmos) (rate : BitVec 32) (dividerValue : UInt8) :
    Linux391.rtcWrite (c.regs 0x0A) rate.toInt =
      ((c.rtcWrite rate dividerValue).1, (c.rtcWrite rate dividerValue).2.regs 0x0A) := by
  by_cases programmable : Programmable rate.toInt
  · obtain ⟨e, low, high, power⟩ := (programmable_iff _).mp programmable
    rw [rtcWrite_of_programmable c rate dividerValue low high power, power,
      rtcWrite_pow _ low high]
    simp only [regs_outb_rtcCmos, index_outb_rtcPort, selects_regA, if_true]
  · rw [rtcWrite_of_not_programmable c dividerValue programmable]
    rw [← accepts_iff, not_and] at programmable
    unfold Linux391.rtcWrite
    rw [BitVec.ofInt_toInt]
    by_cases range : 1024 < rate.toInt ∨ rate.toInt < 2
    · rw [if_pos range]
    · have refused := programmable range
      rw [if_neg range, if_pos]
      intro test
      apply refused
      simpa [isPowerOfTwo] using test

end Cmos

end Linux391
