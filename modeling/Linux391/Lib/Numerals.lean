import Linux391.Lib.Strings
import Linux391.Library.Buffer
import Mathlib.Data.Nat.Digits.Lemmas

/-!
Number conversion: `itoa` and `strrev` of `lib/lib.c`.

`numeral` is the canonical numeral of a number, its digits by Mathlib's `Nat.digits` with the most
significant first. `itoa` stores the digits the other way round, adds the NUL, measures the
string it has just stored and reverses it in place. `itoa_eq` says that it always returns,
with the numeral and a NUL in the buffer and nothing else changed.
-/

namespace Linux391

open Memory

/-! ### The routines -/

/-- `lookup` of `itoa`. -/
def lookup : CStr :=
  cLit [48, 49, 50, 51, 52, 53, 54, 55, 56, 57, 65, 66, 67, 68, 69, 70, 71, 72, 73, 74, 75, 76, 77,
    78, 79, 80, 81, 82, 83, 84, 85, 86, 87, 88, 89, 90]

/-- `strlen` of what stands in a buffer from `s` on; it reads up to the NUL. -/
def Buffer.strlen (b : Buffer) (s : Nat) : Nat × Buffer :=
  let len := Linux391.strlen (b.after s)
  (len, b.touch (s + len))

/-- The loop of `strrev`, with at most `fuel` rounds. -/
def strrevLoop (s : Nat) : Nat → Int → Int → Buffer → Option Buffer
  | 0, _, _, _ => none
  | fuel + 1, beg, last, b =>
      if beg < last then
        strrevLoop s fuel (beg + 1) (last - 1) (b.swap (s + beg.toNat) (s + last.toNat))
      else some b

/-- `strrev` of what stands in a buffer from `s` on. -/
def strrev (fuel : Nat) (b : Buffer) (s : Nat) : Option Buffer :=
  let (len, b) := b.strlen s
  strrevLoop s fuel 0 (int32 len - 1) b

/-- The loop of `itoa`: where `newbuf` ends and the buffer. -/
def itoaLoop (radix : Nat) : Nat → Nat → Nat → Buffer → Option (Nat × Buffer)
  | 0, _, _, _ => none
  | fuel + 1, newval, newbuf, b =>
      if 0 < newval then
        itoaLoop radix fuel (newval / radix) (newbuf + 1) (b.put newbuf (lookup (newval % radix)))
      else some (newbuf, b)

/-- `itoa(value, &b[buf], radix)`. -/
def itoa (fuel value : Nat) (b : Buffer) (buf radix : Nat) : Option Buffer :=
  if value = 0 then some ((b.put buf 48).put (buf + 1) 0)
  else do
    let (newbuf, b) ← itoaLoop radix fuel value buf b
    strrev fuel (b.put newbuf 0) buf

/-! ### Numerals -/

/-- 0 to 9, then the capital letters. -/
def digitChar (d : Nat) : UInt8 := UInt8.ofNat (if d < 10 then 48 + d else 55 + d)

/-- The digits of a number in some base, most significant first. -/
def numeral (radix value : Nat) : List UInt8 :=
  if value = 0 then [48] else ((Nat.digits radix value).map digitChar).reverse

theorem lookup_eq {d : Nat} (small : d < 36) : lookup d = digitChar d := by
  have all : ∀ n : Fin 36, lookup n.val = digitChar n.val := by decide
  exact all ⟨d, small⟩

theorem digitChar_ne_zero {d : Nat} (small : d < 36) : digitChar d ≠ 0 := by
  have all : ∀ n : Fin 36, digitChar n.val ≠ 0 := by decide
  exact all ⟨d, small⟩

variable {radix value : Nat}

theorem numeral_ne_zero (low : 2 ≤ radix) (high : radix ≤ 36) : ∀ c ∈ numeral radix value, c ≠ 0 := by
  intro c mem
  unfold numeral at mem
  split_ifs at mem with zero
  · rw [List.mem_singleton] at mem
    rw [mem]
    decide
  · obtain ⟨d, digit, rfl⟩ := List.mem_map.mp (List.mem_reverse.mp mem)
    have small := Nat.digits_lt_base low digit
    exact digitChar_ne_zero (by omega)

/-- A number below a power of its base has no more digits than the exponent. -/
theorem length_numeral_le {k : Nat} (low : 2 ≤ radix) (some : 0 < k) (bound : value < radix ^ k) :
    (numeral radix value).length ≤ k := by
  unfold numeral
  split_ifs with zero
  · exact some
  · rw [List.length_reverse, List.length_map]
    exact (Nat.digits_length_le_iff low value).mpr bound

/-! ### What a numeral is -/

/-- The number a digit stands for. -/
def digitValue (c : UInt8) : Nat := if c < 58 then c.toNat - 48 else c.toNat - 55

/-- Read a text digit by digit. -/
def readNumeral (radix : Nat) (text : List UInt8) : Nat :=
  text.foldl (fun value c => value * radix + digitValue c) 0

/-- The canonical way to write a number: digits of the base, the first one not 0 unless it is the only
one, that read back as the number. -/
structure IsNumeral (radix value : Nat) (text : List UInt8) : Prop where
  digits : ∀ c ∈ text, ∃ d < radix, c = digitChar d
  nonempty : text ≠ []
  leading : text.head? = some 48 → text = [48]
  reads : readNumeral radix text = value

theorem digitValue_digitChar {d : Nat} (small : d < 36) : digitValue (digitChar d) = d := by
  have all : ∀ n : Fin 36, digitValue (digitChar n.val) = n.val := by decide
  exact all ⟨d, small⟩

theorem digitChar_eq_zero_iff {d : Nat} (small : d < 36) : digitChar d = 48 ↔ d = 0 := by
  constructor
  · intro zero
    rw [← digitValue_digitChar small, zero]
    rfl
  · rintro rfl
    rfl

theorem readNumeral_zero : readNumeral radix [48] = 0 := by
  rw [readNumeral, List.foldl_cons, Nat.zero_mul]
  rfl

/-- Read from the other end, a text is its digits in Mathlib's order. -/
theorem readNumeral_reverse (ds : List Nat) (small : ∀ d ∈ ds, d < 36) :
    readNumeral radix (ds.map digitChar).reverse = Nat.ofDigits radix ds := by
  rw [readNumeral, List.foldl_reverse, List.foldr_map, Nat.ofDigits_eq_foldr]
  refine List.foldr_ext _ _ 0 fun d mem value => ?_
  rw [digitValue_digitChar (small d mem), Nat.mul_comm, Nat.add_comm]
  rfl

theorem isNumeral_numeral (low : 2 ≤ radix) (high : radix ≤ 36) :
    IsNumeral radix value (numeral radix value) := by
  by_cases zero : value = 0
  · rw [numeral, if_pos zero]
    refine ⟨?_, List.cons_ne_nil _ _, fun _ => rfl, readNumeral_zero.trans zero.symm⟩
    exact fun c mem => ⟨0, by omega, List.mem_singleton.mp mem⟩
  · rw [numeral, if_neg zero]
    have small : ∀ d ∈ Nat.digits radix value, d < 36 := fun d mem =>
      Nat.lt_of_lt_of_le (Nat.digits_lt_base low mem) high
    have nonempty : Nat.digits radix value ≠ [] := Nat.digits_ne_nil_iff_ne_zero.mpr zero
    constructor
    · intro c mem
      obtain ⟨d, digit, rfl⟩ := List.mem_map.mp (List.mem_reverse.mp mem)
      exact ⟨d, Nat.digits_lt_base low digit, rfl⟩
    · simpa using nonempty
    · intro first
      rw [List.head?_reverse, List.getLast?_map, List.getLast?_eq_some_getLast nonempty] at first
      have last := Nat.getLast_digit_ne_zero radix zero
      exact absurd ((digitChar_eq_zero_iff (small _ (List.getLast_mem nonempty))).mp
        (Option.some.inj first)) last
    · rw [readNumeral_reverse _ small, Nat.ofDigits_digits]

/-- A text of digits, as the digits of a number least significant first. -/
theorem exists_digits {text : List UInt8} (high : radix ≤ 36)
    (digits : ∀ c ∈ text, ∃ d < radix, c = digitChar d) :
    ∃ ds : List Nat, (∀ d ∈ ds, d < radix) ∧ text = (ds.map digitChar).reverse := by
  have back : ∀ c ∈ text, digitValue c < radix ∧ digitChar (digitValue c) = c := by
    intro c mem
    obtain ⟨d, lt, rfl⟩ := digits c mem
    rw [digitValue_digitChar (Nat.lt_of_lt_of_le lt high)]
    exact ⟨lt, rfl⟩
  refine ⟨(text.map digitValue).reverse, ?_, ?_⟩
  · intro d mem
    obtain ⟨c, inside, rfl⟩ := List.mem_map.mp (List.mem_reverse.mp mem)
    exact (back c inside).1
  · rw [List.map_reverse, List.reverse_reverse, List.map_map]
    exact ((List.map_congr_left fun c mem => (back c mem).2).trans (List.map_id text)).symm

/-- There is one canonical way. -/
theorem isNumeral_iff (low : 2 ≤ radix) (high : radix ≤ 36) {text : List UInt8} :
    IsNumeral radix value text ↔ text = numeral radix value := by
  constructor
  · rintro ⟨digits, nonempty, leading, rfl⟩
    by_cases zero : text.head? = some 48
    · rw [leading zero, readNumeral_zero]
      rfl
    · obtain ⟨ds, lt, rfl⟩ := exists_digits high digits
      have small : ∀ d ∈ ds, d < 36 := fun d mem => Nat.lt_of_lt_of_le (lt d mem) high
      have last : ∀ some : ds ≠ [], ds.getLast some ≠ 0 := by
        intro some last
        rw [List.head?_reverse, List.getLast?_map, List.getLast?_eq_some_getLast some, last] at zero
        exact zero rfl
      have same := Nat.digits_ofDigits radix low ds lt last
      rw [readNumeral_reverse ds small, numeral, if_neg, same]
      intro none
      rw [none, Nat.digits_zero] at same
      exact nonempty (by simp [← same])
  · rintro rfl
    exact isNumeral_numeral low high

/-! ### The loops -/

/-- The loop of `strrev` mirrors the part of the buffer between its indices. -/
theorem strrevLoop_eq {s : Nat} (fuel beg hi : Nat) (b : Buffer) (some : 0 < fuel)
    (enough : hi < beg + fuel) (inside : s + hi ≤ b.size) :
    strrevLoop s fuel beg (hi - 1) b = Option.some (b.mirror (s + beg) (s + hi)) := by
  induction fuel generalizing beg hi b with
  | zero => omega
  | succ fuel ih =>
      simp only [strrevLoop]
      by_cases short : hi ≤ beg + 1
      · rw [if_neg (by omega), Buffer.mirror_short (by omega)]
      · have next : (beg : Int) + 1 = (beg + 1 : Nat) := by omega
        have previous : (hi : Int) - 1 - 1 = (hi - 1 : Nat) - 1 := by omega
        have last : s + ((hi : Int) - 1).toNat = s + hi - 1 := by omega
        rw [if_pos (by omega), next, previous, last, Int.toNat_natCast]
        have kept : (b.swap (s + beg) (s + hi - 1)).size = b.size := rfl
        rw [ih (beg + 1) (hi - 1) _ (by omega) (by omega) (by omega)]
        have mirrored : (b.swap (s + beg) (s + hi - 1)).mirror (s + beg + 1) (s + hi - 1) =
            b.mirror (s + beg) (s + hi) := Buffer.mirror_swap (by omega) inside
        rw [← mirrored]
        congr 2
        omega

/-- Measuring a text in a buffer. -/
theorem Buffer.strlen_write {b : Buffer} {s : Nat} {text : List UInt8}
    (nonzero : ∀ c ∈ text, c ≠ 0) (inside : s + text.length < b.size) (short : text.length < 2 ^ 32) :
    (b.write s (text ++ [0])).strlen s = (text.length, b.write s (text ++ [0])) := by
  have length : Linux391.strlen ((b.write s (text ++ [0])).after s) = text.length := by
    apply strlen_eq _ _ short
    · rw [Buffer.after_write (by simp)]
      simp
    · intro j lt
      rw [Buffer.after_write (by simp; omega)]
      have here : (text ++ [0]).getD j 0 = text[j] := by
        simp [List.getElem?_append_left lt, lt]
      rw [here]
      exact nonzero _ (List.getElem_mem lt)
  have within : s + text.length < (b.write s (text ++ [0])).size := inside
  rw [Buffer.strlen, length, Buffer.touch_inside within]

/-- `strrev` reverses the text in a buffer. -/
theorem strrev_write {b : Buffer} {s fuel : Nat} {text : List UInt8}
    (nonzero : ∀ c ∈ text, c ≠ 0) (inside : s + text.length < b.size) (short : text.length < 2 ^ 31)
    (enough : text.length < fuel) :
    strrev fuel (b.write s (text ++ [0])) s = some (b.write s (text.reverse ++ [0])) := by
  rw [strrev, Buffer.strlen_write nonzero inside (by omega)]
  simp only [int32_of_lt short]
  have reversed := strrevLoop_eq (s := s) fuel 0 text.length (b.write s (text ++ [0])) (by omega)
    (by omega) (Nat.le_of_lt inside)
  rw [Nat.cast_zero] at reversed
  rw [reversed, Nat.add_zero, ← Buffer.write_append_back, Buffer.mirror_write,
    ← Buffer.write_append_back, List.length_reverse]

/-- The loop of `itoa` stores the digits, least significant first. -/
theorem itoaLoop_eq (low : 2 ≤ radix) (high : radix ≤ 36) (fuel newval newbuf : Nat) (b : Buffer)
    (enough : (Nat.digits radix newval).length < fuel)
    (inside : newbuf + (Nat.digits radix newval).length ≤ b.size) :
    itoaLoop radix fuel newval newbuf b =
      some (newbuf + (Nat.digits radix newval).length,
        b.write newbuf ((Nat.digits radix newval).map digitChar)) := by
  induction fuel generalizing newval newbuf b with
  | zero => omega
  | succ fuel ih =>
      simp only [itoaLoop]
      rcases Nat.eq_zero_or_pos newval with zero | positive
      · rw [if_neg (by omega), zero]
        simp [Buffer.write_nil]
      · have digits := Nat.digits_def' low positive
        rw [digits, List.length_cons] at enough inside
        have small : newval % radix < radix := Nat.mod_lt _ (by omega)
        rw [if_pos positive, lookup_eq (by omega), Buffer.put_eq_write (by omega),
          ih _ _ _ (by omega) (by rw [Buffer.size_write]; omega), digits]
        simp only [List.length_cons, List.map_cons]
        congr 2
        · omega
        · exact Buffer.write_append b newbuf [digitChar (newval % radix)] _

/-- **`itoa`** returns for every 32-bit value and every base up to 36, with the numeral and a
NUL in the buffer and the rest of it as it was. -/
theorem itoa_eq {fuel buf : Nat} {b : Buffer} (low : 2 ≤ radix) (high : radix ≤ 36)
    (word : value < 2 ^ 32) (enough : (numeral radix value).length < fuel)
    (inside : buf + (numeral radix value).length < b.size) :
    itoa fuel value b buf radix = some (b.write buf (numeral radix value ++ [0])) := by
  by_cases zero : value = 0
  · have single : numeral radix value = [48] := if_pos zero
    rw [single, List.length_singleton] at inside
    have digit : b.put buf 48 = b.write buf [48] := Buffer.put_eq_write (by omega) 48
    rw [itoa, if_pos zero, single, digit, Buffer.put_eq_write (by rw [Buffer.size_write]; omega)]
    exact congrArg some (Buffer.write_append b buf [48] [0])
  · have digits : numeral radix value = ((Nat.digits radix value).map digitChar).reverse :=
      if_neg zero
    have nonzero : ∀ c ∈ numeral radix value, c ≠ 0 := numeral_ne_zero low high
    have few := length_numeral_le (k := 32) low (by omega)
      (Nat.lt_of_lt_of_le word (Nat.pow_le_pow_left low 32))
    rw [digits] at nonzero enough inside few ⊢
    simp only [List.length_reverse, List.length_map] at enough inside few
    generalize stored : (Nat.digits radix value).map digitChar = text at nonzero
    have length : text.length = (Nat.digits radix value).length := by
      rw [← stored, List.length_map]
    rw [itoa, if_neg zero, itoaLoop_eq low high fuel value buf b enough (by omega), stored]
    have ended : (b.write buf text).put (buf + (Nat.digits radix value).length) 0 =
        b.write buf (text ++ [0]) := by
      rw [Buffer.put_eq_write (by rw [Buffer.size_write]; omega), ← length, Buffer.write_append]
    have forward : ∀ c ∈ text, c ≠ 0 := fun c mem => nonzero c (List.mem_reverse.mpr mem)
    simp only [Option.bind_eq_bind, Option.bind_some, ended]
    exact strrev_write forward (by omega) (by omega) (by omega)

end Linux391
