import Linux391.Lib.Numerals

/-!
Number conversion in the library of the programs (`syscalls/ece391support.c`).

`ece391_itoa` is the `itoa` of the kernel but for the reversal at its end: `ece391_strrev` returns at
once when there is at most one character. The loop would do nothing then, so the two leave the same
bytes for any value and radix (`ece391Itoa_eq`), and what is known about one is known about the
other (`itoa_canonical`).
-/

namespace Linux391

/-- The loop of `ece391_strlen`: the pointer and the count go up together. -/
def ece391StrlenFrom (s : CStr) : Nat → Nat → Nat → Nat
  | 0, _, len => len
  | fuel + 1, i, len => if s i = 0 then len else ece391StrlenFrom s fuel (i + 1) (len + 1)

def ece391Strlen (s : CStr) : Nat := ece391StrlenFrom s (2 ^ 32) 0 0

/-- `ece391_strlen` of what stands in a buffer from `s` on; it reads up to the NUL. -/
def Buffer.ece391Strlen (b : Buffer) (s : Nat) : Nat × Buffer :=
  let len := Linux391.ece391Strlen (b.after s)
  (len, b.touch (s + len))

/-- `ece391_strrev` of what stands in a buffer from `s` on. -/
def ece391Strrev (fuel : Nat) (b : Buffer) (s : Nat) : Option Buffer :=
  let (len, b) := b.ece391Strlen s
  let last := int32 len - 1
  if last ≤ 0 then some b else strrevLoop s fuel 0 last b

/-- `ece391_itoa(value, &b[buf], radix)`. -/
def ece391Itoa (fuel value : Nat) (b : Buffer) (buf radix : Nat) : Option Buffer :=
  if value = 0 then some ((b.put buf 48).put (buf + 1) 0)
  else do
    let (newbuf, b) ← itoaLoop radix fuel value buf b
    ece391Strrev fuel (b.put newbuf 0) buf

/-! ### The two conversions -/

theorem ece391StrlenFrom_eq (s : CStr) (fuel i : Nat) :
    ece391StrlenFrom s fuel i i = strlenFrom s fuel i := by
  induction fuel generalizing i with
  | zero => rfl
  | succ fuel ih => rw [ece391StrlenFrom, strlenFrom, ih]

theorem Buffer.ece391Strlen_eq (b : Buffer) (s : Nat) : b.ece391Strlen s = b.strlen s := by
  have length : Linux391.ece391Strlen (b.after s) = Linux391.strlen (b.after s) :=
    ece391StrlenFrom_eq _ _ 0
  rw [Buffer.ece391Strlen, Buffer.strlen, length]

/-- The early return is what the loop does with at most one character. -/
theorem ece391Strrev_eq {fuel : Nat} (some : 0 < fuel) (b : Buffer) (s : Nat) :
    ece391Strrev fuel b s = strrev fuel b s := by
  obtain ⟨fuel, rfl⟩ := Nat.exists_eq_add_one.mpr some
  rw [ece391Strrev, strrev, Buffer.ece391Strlen_eq]
  obtain ⟨len, b⟩ := b.strlen s
  dsimp only
  split_ifs with short
  · rw [strrevLoop, if_neg (Int.not_lt.mpr short)]
  · rfl

theorem ece391Itoa_eq {fuel : Nat} (some : 0 < fuel) (value : Nat) (b : Buffer) (buf radix : Nat) :
    ece391Itoa fuel value b buf radix = itoa fuel value b buf radix := by
  simp only [ece391Itoa, itoa, ece391Strrev_eq some]

/-- **Both conversions leave the canonical numeral and a NUL**, at most 33 bytes, and no other byte
changes. There is one such numeral, and no access leaves a buffer that has room for it. -/
theorem itoa_canonical {radix value fuel buf : Nat} {b : Buffer} (low : 2 ≤ radix)
    (high : radix ≤ 36) (word : value < 2 ^ 32) (enough : 33 ≤ fuel)
    (inside : buf + (numeral radix value).length < b.size) :
    ∃ text b', (∀ other, IsNumeral radix value other ↔ other = text) ∧ text.length + 1 ≤ 33 ∧
      itoa fuel value b buf radix = some b' ∧ ece391Itoa fuel value b buf radix = some b' ∧
      b'.Holds buf (text ++ [0]) ∧ b'.inRange = b.inRange ∧
      ∀ i, i < buf ∨ buf + text.length < i → b'.bytes i = b.bytes i := by
  have few : (numeral radix value).length ≤ 32 := length_numeral_le low (by decide)
    (Nat.lt_of_lt_of_le word (Nat.pow_le_pow_left low 32))
  have written := itoa_eq low high word (Nat.lt_of_le_of_lt few enough) inside
  refine ⟨numeral radix value, b.write buf (numeral radix value ++ [0]),
    fun other => isNumeral_iff low high, Nat.succ_le_succ few, written, ?_,
    Buffer.holds_write _ _ _, rfl, ?_⟩
  · rw [ece391Itoa_eq (by omega), written]
  · rintro i (before | behind)
    · exact Memory.storeBytes_of_lt before
    · refine Memory.storeBytes_of_ge ?_
      rw [List.length_append, List.length_singleton]
      exact behind

/-- 255 in hexadecimal, into an array with room for three bytes. -/
theorem itoa_canonical_hex :
    ∃ text b', (∀ other, IsNumeral 16 255 other ↔ other = text) ∧ text.length + 1 ≤ 33 ∧
      itoa 33 255 ⟨3, fun _ => 7, true⟩ 0 16 = some b' ∧
      ece391Itoa 33 255 ⟨3, fun _ => 7, true⟩ 0 16 = some b' ∧
      b'.Holds 0 (text ++ [0]) ∧ b'.inRange = true ∧
      ∀ i, i < 0 ∨ 0 + text.length < i → b'.bytes i = 7 :=
  itoa_canonical (by decide) (by decide) (by decide) (Nat.le_refl 33) (by simp [numeral])

end Linux391
