import Linux391.Lib.Console
import Linux391.Lib.Numerals

/-!
Formatted printing: `printf` of `lib/lib.c`.

`printf` does nothing to the console but call `putc`, so it is written over any state with a
`putc` on it, as is `puts`. The format and the strings lie in a 32-bit memory. The arguments
are the words above the format pointer on the stack.

A format is spelled by a list of pieces: literal characters and conversions, each with any number
of `#`. `printf_prints` says what the pieces print.
-/

namespace Linux391

open Memory Loop

/-- The bytes at an address of a 32-bit memory. -/
def strAt (mem : BitVec 32 → UInt8) (p : BitVec 32) : CStr := fun i => mem (p + BitVec.ofNat 32 i)

/-! ### The routines -/

/-- The variables of `printf`. -/
structure Printf (σ : Type) where
  /-- The pointer into the format. -/
  buf : BitVec 32
  /-- How many arguments `esp` has been moved over. -/
  esp : Nat
  /-- What `putc` prints to. -/
  out : σ
  /-- No `conv_buf` has been indexed out of range. -/
  inRange : Bool

section Routines

variable {σ : Type} (putc : σ → UInt8 → σ)

/-- The loop of `puts` from `index` on: the index it returns and the output. -/
def putsLoop (str : CStr) : Nat → Nat → σ → Option (Nat × σ)
  | 0, _, _ => none
  | fuel + 1, index, out =>
      if str index = 0 then some (index, out) else putsLoop str fuel (index + 1) (putc out (str index))

/-- `puts` of what stands in a buffer from `s` on: the output, and whether the buffer was left. -/
def putsBuf (fuel : Nat) (b : Buffer) (s : Nat) (out : σ) : Option (σ × Bool) := do
  let (len, out) ← putsLoop putc (b.after s) fuel 0 out
  -- the indices read are those up to the NUL
  some (out, (b.touch (s + len)).inRange)

/-- The case of `%x`; `conv` is what the uninitialised `conv_buf` holds. -/
def printHex (fuel : Nat) (alternate : Bool) (value : BitVec 32) (conv : Mem) (out : σ) :
    Option (σ × Bool) :=
  let convBuf : Buffer := ⟨64, conv, true⟩
  if alternate = false then do
    let b ← itoa fuel value.toNat convBuf 0 16
    putsBuf putc fuel b 0 out
  else do
    let b ← itoa fuel value.toNat convBuf 8 16
    let (startingIndex, b) := b.strlen 8
    let b := forRange startingIndex 8 (fun i b => b.put i.toNat 48) b
    putsBuf putc fuel b startingIndex out

/-- The case of `%u`. -/
def printUnsigned (fuel : Nat) (value : BitVec 32) (conv : Mem) (out : σ) : Option (σ × Bool) := do
  let b ← itoa fuel value.toNat ⟨36, conv, true⟩ 0 10
  putsBuf putc fuel b 0 out

/-- The case of `%d`; negating the least value wraps around. -/
def printSigned (fuel : Nat) (value : BitVec 32) (conv : Mem) (out : σ) : Option (σ × Bool) :=
  let convBuf : Buffer := ⟨36, conv, true⟩
  if value.toInt < 0 then do
    let b ← itoa fuel (-value).toNat (convBuf.put 0 45) 1 10
    putsBuf putc fuel b 0 out
  else do
    let b ← itoa fuel value.toNat convBuf 0 10
    putsBuf putc fuel b 0 out

/-- An argument has been printed. -/
def Printf.printed (st : Printf σ) (result : σ × Bool) : Printf σ :=
  { st with esp := st.esp + 1, out := result.1, inRange := st.inRange && result.2 }

variable (mem : BitVec 32 → UInt8) (arg : Nat → BitVec 32) (conv : Nat → Mem) (fuel : Nat)

/-- `format_char_switch`, entered again for every `#`. -/
def formatChar : Nat → Bool → Printf σ → Option (Printf σ)
  | 0, _, _ => none
  | rounds + 1, alternate, st =>
      let c := mem st.buf
      let value := arg st.esp
      if c = 37 then some { st with out := putc st.out 37 }
      else if c = 35 then formatChar rounds true { st with buf := st.buf + 1 }
      else if c = 120 then
        (printHex putc fuel alternate value (conv st.esp) st.out).map st.printed
      else if c = 117 then (printUnsigned putc fuel value (conv st.esp) st.out).map st.printed
      else if c = 100 then (printSigned putc fuel value (conv st.esp) st.out).map st.printed
      else if c = 99 then some (st.printed (putc st.out (UInt8.ofNat value.toNat), true))
      else if c = 115 then
        (putsLoop putc (strAt mem value) fuel 0 st.out).map fun r => st.printed (r.2, true)
      else some st

/-- The loop of `printf`. -/
def printfLoop : Nat → Printf σ → Option (Printf σ)
  | 0, _ => none
  | rounds + 1, st =>
      if mem st.buf = 0 then some st
      else if mem st.buf = 37 then do
        let st ← formatChar putc mem arg conv fuel fuel false { st with buf := st.buf + 1 }
        printfLoop rounds { st with buf := st.buf + 1 }
      else printfLoop rounds { st with out := putc st.out (mem st.buf), buf := st.buf + 1 }

/-- `printf`: what it returns and its variables at the end. -/
def printf (format : BitVec 32) (out : σ) : Option (BitVec 32 × Printf σ) := do
  let st ← printfLoop putc mem arg conv fuel fuel ⟨format, 0, out, true⟩
  some (st.buf - format, st)

end Routines

/-! ### Formats -/

inductive Conversion where
  | percent
  | hex
  | unsigned
  | signed
  | character
  | string
  deriving DecidableEq

def Conversion.letter : Conversion → UInt8
  | .percent => 37
  | .hex => 120
  | .unsigned => 117
  | .signed => 100
  | .character => 99
  | .string => 115

/-- A literal character, or `%` with a number of `#` and a letter. -/
inductive Piece where
  | literal (c : UInt8) (plain : c ≠ 0 ∧ c ≠ 37)
  | conversion (hashes : Nat) (conv : Conversion)

/-- How a piece is spelled. -/
def Piece.bytes : Piece → List UInt8
  | .literal c _ => [c]
  | .conversion hashes conv => 37 :: (List.replicate hashes 35 ++ [conv.letter])

/-- The number of arguments a piece takes. -/
def Piece.takes : Piece → Nat
  | .literal _ _ => 0
  | .conversion _ conv => if conv = .percent then 0 else 1

/-- The numeral filled up with zeros on the left. -/
def paddedNumeral (width radix value : Nat) : List UInt8 :=
  List.replicate (width - (numeral radix value).length) 48 ++ numeral radix value

/-- The decimal numeral of an integer. -/
def signedNumeral (value : Int) : List UInt8 :=
  if value < 0 then 45 :: numeral 10 (-value).toNat else numeral 10 value.toNat

/-- What a conversion prints for an argument. -/
def Conversion.text (mem : BitVec 32 → UInt8) (alternate : Bool) (value : BitVec 32) :
    Conversion → List UInt8
  | .percent => [37]
  | .hex => if alternate then paddedNumeral 8 16 value.toNat else numeral 16 value.toNat
  | .unsigned => numeral 10 value.toNat
  | .signed => signedNumeral value.toInt
  | .character => [UInt8.ofNat value.toNat]
  | .string => (strAt mem value).chars

def Piece.text (mem : BitVec 32 → UInt8) (value : BitVec 32) : Piece → List UInt8
  | .literal c _ => [c]
  | .conversion hashes conv => conv.text mem (decide (0 < hashes)) value

section Spec

variable (mem : BitVec 32 → UInt8) (arg : Nat → BitVec 32)

/-- What the pieces print, the next argument being the `k`-th. -/
def piecesText : Nat → List Piece → List UInt8
  | _, [] => []
  | k, p :: ps => p.text mem (arg k) ++ piecesText (k + p.takes) ps

/-- The arguments printed as strings are strings. -/
def Matching : Nat → List Piece → Prop
  | _, [] => True
  | k, p :: ps =>
      (∀ hashes, p = .conversion hashes .string → Terminated (strAt mem (arg k))) ∧
        Matching (k + p.takes) ps

end Spec

/-! ### Strings and numbers -/

section Proofs

variable {σ : Type} {putc : σ → UInt8 → σ} {fuel : Nat}

/-- `puts` prints the characters up to the NUL. -/
theorem putsLoop_eq {str : CStr} (text : List UInt8) (index : Nat) (out : σ)
    (shown : ∀ i (inside : i < text.length), str (index + i) = text[i])
    (nonzero : ∀ c ∈ text, c ≠ 0) (ended : str (index + text.length) = 0)
    (enough : text.length < fuel) :
    putsLoop putc str fuel index out = some (index + text.length, text.foldl putc out) := by
  induction text generalizing index fuel out with
  | nil =>
      obtain ⟨rounds, rfl⟩ := Nat.exists_eq_add_one.mpr enough
      rw [List.length_nil, Nat.add_zero] at ended
      simp [putsLoop, ended]
  | cons c rest ih =>
      obtain ⟨rounds, rfl⟩ : ∃ rounds, fuel = rounds + 1 :=
        Nat.exists_eq_add_one.mpr (Nat.lt_of_le_of_lt (Nat.zero_le _) enough)
      have first : str index = c := shown 0 (Nat.succ_pos rest.length)
      have go : str index ≠ 0 := by
        rw [first]
        exact nonzero c List.mem_cons_self
      rw [List.length_cons] at ended enough
      rw [putsLoop, if_neg go, first, ih (index + 1) (putc out c)]
      · simp only [List.length_cons, List.foldl_cons]
        congr 2
        omega
      · intro i inside
        have later := shown (i + 1) (by simpa using inside)
        rw [Nat.add_assoc, Nat.add_comm 1]
        simpa using later
      · intro d mem
        exact nonzero d (List.mem_cons_of_mem c mem)
      · rw [Nat.add_assoc, Nat.add_comm 1]
        exact ended
      · omega

/-- `puts` of the console is this one with its `putc`. -/
theorem Console.putsLoop_eq_putsLoop (str : CStr) (fuel index : Nat) (s : Console) :
    Console.putsLoop str fuel index s = Linux391.putsLoop Console.putc str fuel index s := by
  induction fuel generalizing index s with
  | zero => rfl
  | succ fuel ih => rw [Console.putsLoop, Linux391.putsLoop, ih]

/-- `puts` of a text in a buffer. -/
theorem putsBuf_write {b : Buffer} {s : Nat} {text : List UInt8} (out : σ)
    (nonzero : ∀ c ∈ text, c ≠ 0) (inside : s + text.length < b.size)
    (enough : text.length < fuel) :
    putsBuf putc fuel (b.write s (text ++ [0])) s out = some (text.foldl putc out, b.inRange) := by
  have printed : putsLoop putc ((b.write s (text ++ [0])).after s) fuel 0 out =
      some (0 + text.length, text.foldl putc out) := by
    apply putsLoop_eq text 0 out
    · intro i lt
      rw [Nat.zero_add, Buffer.after_write (by simp; omega)]
      simp [List.getElem?_append_left lt, lt]
    · exact nonzero
    · rw [Nat.zero_add, Buffer.after_write (by simp)]
      simp
    · exact enough
  have within : s + text.length < (b.write s (text ++ [0])).size := inside
  rw [putsBuf, printed, Nat.zero_add]
  simp [Buffer.touch_inside within, Buffer.inRange_write]

theorem length_hex_le (value : BitVec 32) : (numeral 16 value.toNat).length ≤ 8 :=
  length_numeral_le (by decide) (by decide) value.isLt

theorem length_decimal_le {value : Nat} (word : value < 2 ^ 32) :
    (numeral 10 value).length ≤ 10 :=
  length_numeral_le (by decide) (by decide) (Nat.lt_trans word (by decide))

/-- A number converted and printed at the same place of a buffer. -/
theorem itoa_putsBuf {radix value : Nat} {b : Buffer} (out : σ) (low : 2 ≤ radix) (high : radix ≤ 36)
    (word : value < 2 ^ 32) (enough : (numeral radix value).length < fuel)
    (inside : (numeral radix value).length < b.size) :
    (do let b ← itoa fuel value b 0 radix
        putsBuf putc fuel b 0 out) = some ((numeral radix value).foldl putc out, b.inRange) := by
  have within : 0 + (numeral radix value).length < b.size := by omega
  rw [itoa_eq low high word enough within]
  exact putsBuf_write out (numeral_ne_zero low high) within enough

theorem printUnsigned_eq (value : BitVec 32) (conv : Mem) (out : σ) (enough : 64 ≤ fuel) :
    printUnsigned putc fuel value conv out =
      some ((numeral 10 value.toNat).foldl putc out, true) := by
  have few := length_decimal_le value.isLt
  exact itoa_putsBuf out (by decide) (by decide) value.isLt (by omega) (Nat.lt_of_le_of_lt few
    (by decide : 10 < 36))

/-- The wrapped negation of a negative word is its absolute value. -/
theorem toNat_neg_of_negative {value : BitVec 32} (negative : value.toInt < 0) :
    (-value).toNat = (-value.toInt).toNat := by
  have bound := value.isLt
  rw [BitVec.toInt_eq_toNat_cond] at negative ⊢
  rw [BitVec.toNat_neg]
  split_ifs at negative ⊢ <;> omega

/-- A word that is not negative is its own value. -/
theorem toNat_of_nonnegative {value : BitVec 32} (nonnegative : ¬ value.toInt < 0) :
    value.toNat = value.toInt.toNat := by
  rw [BitVec.toInt_eq_toNat_cond] at nonnegative ⊢
  split_ifs at nonnegative ⊢ <;> omega

/-- The sign, then the number converted behind it. -/
theorem itoa_putsBuf_minus {value : Nat} {b : Buffer} (out : σ) (word : value < 2 ^ 32)
    (enough : 64 ≤ fuel) (inside : 12 ≤ b.size) :
    (do let b ← itoa fuel value (b.put 0 45) 1 10
        putsBuf putc fuel b 0 out) =
      some ((45 :: numeral 10 value).foldl putc out, b.inRange) := by
  have few := length_decimal_le word
  have nonzero : ∀ c ∈ 45 :: numeral 10 value, c ≠ 0 := by
    intro c mem
    rcases List.mem_cons.mp mem with rfl | digit
    · decide
    · exact numeral_ne_zero (by decide) (by decide) c digit
  have sign : b.put 0 45 = b.write 0 [45] := Buffer.put_eq_write (by omega) 45
  have joined : (b.write 0 [45]).write 1 (numeral 10 value ++ [0]) =
      b.write 0 ((45 :: numeral 10 value) ++ [0]) :=
    Buffer.write_append b 0 [45] (numeral 10 value ++ [0])
  rw [sign, itoa_eq (by decide) (by decide) word (by omega) (by rw [Buffer.size_write]; omega),
    joined]
  exact putsBuf_write out nonzero (by rw [List.length_cons]; omega) (by rw [List.length_cons]; omega)

theorem printSigned_eq (value : BitVec 32) (conv : Mem) (out : σ) (enough : 64 ≤ fuel) :
    printSigned putc fuel value conv out =
      some ((signedNumeral value.toInt).foldl putc out, true) := by
  simp only [printSigned, signedNumeral]
  split_ifs with negative
  · rw [← toNat_neg_of_negative negative]
    exact itoa_putsBuf_minus out (-value).isLt enough (by decide : 12 ≤ 36)
  · rw [← toNat_of_nonnegative negative]
    exact printUnsigned_eq value conv out enough

/-- The zeros filled in before the number. -/
theorem forRange_zeros {b : Buffer} {start : Nat} (le : start ≤ 8) (inside : 8 ≤ b.size) :
    forRange start 8 (fun i b => b.put i.toNat 48) b =
      b.write start (List.replicate (8 - start) 48) := by
  refine forRange_induction
    (fun i b' => b' = b.write start (List.replicate (i.toNat - start) 48)) b (by omega) ?_ ?_
  · simp [Buffer.write_nil]
  · intro i b' lower upper same
    have next : (i + 1).toNat - start = i.toNat - start + 1 := by omega
    have place : i.toNat = start + (List.replicate (i.toNat - start) (48 : UInt8)).length := by
      rw [List.length_replicate]
      omega
    have within : i.toNat < (b.write start (List.replicate (i.toNat - start) 48)).size := by
      rw [Buffer.size_write]
      omega
    rw [same, Buffer.put_eq_write within, next, List.replicate_succ', ← Buffer.write_append,
      ← place]

section Padded

variable {width radix value : Nat}

theorem length_paddedNumeral (le : (numeral radix value).length ≤ width) :
    (paddedNumeral width radix value).length = width := by
  rw [paddedNumeral, List.length_append, List.length_replicate, Nat.sub_add_cancel le]

theorem paddedNumeral_ne_zero (low : 2 ≤ radix) (high : radix ≤ 36) :
    ∀ c ∈ paddedNumeral width radix value, c ≠ 0 := by
  intro c mem
  rcases List.mem_append.mp mem with zero | digit
  · rw [List.eq_of_mem_replicate zero]
    decide
  · exact numeral_ne_zero low high c digit

/-- The zeros are written in front of the number, up to where it starts. -/
theorem write_zeros_numeral (b : Buffer) (le : (numeral radix value).length ≤ width) :
    (b.write width (numeral radix value ++ [0])).write (numeral radix value).length
        (List.replicate (width - (numeral radix value).length) 48) =
      b.write (numeral radix value).length (paddedNumeral width radix value ++ [0]) := by
  have place : (numeral radix value).length +
      (List.replicate (width - (numeral radix value).length) (48 : UInt8)).length = width := by
    rw [List.length_replicate, Nat.add_sub_cancel' le]
  have joined := Buffer.write_append_back b (numeral radix value).length
    (List.replicate (width - (numeral radix value).length) 48) (numeral radix value ++ [0])
  rw [place] at joined
  rw [paddedNumeral, List.append_assoc]
  exact joined

end Padded

theorem printHex_eq (mem : BitVec 32 → UInt8) (alternate : Bool) (value : BitVec 32) (conv : Mem)
    (out : σ) (enough : 64 ≤ fuel) :
    printHex putc fuel alternate value conv out =
      some ((Conversion.hex.text mem alternate value).foldl putc out, true) := by
  have few := length_hex_le value
  cases alternate with
  | false =>
      exact itoa_putsBuf out (by decide) (by decide) value.isLt (by omega)
        (Nat.lt_of_le_of_lt few (by decide : 8 < 64))
  | true =>
      have width := length_paddedNumeral few
      have room : (⟨64, conv, true⟩ : Buffer).size = 64 := rfl
      have fresh : (⟨64, conv, true⟩ : Buffer).inRange = true := rfl
      simp only [printHex, Conversion.text, if_true, Bool.true_eq_false, if_false]
      generalize (⟨64, conv, true⟩ : Buffer) = b at room fresh
      rw [itoa_eq (by decide) (by decide) value.isLt (by omega) (by omega)]
      simp only [Option.bind_eq_bind, Option.bind_some]
      rw [Buffer.strlen_write (numeral_ne_zero (by decide) (by decide)) (by omega) (by omega)]
      simp only
      rw [forRange_zeros few (by rw [Buffer.size_write]; omega), write_zeros_numeral b few,
        putsBuf_write out (paddedNumeral_ne_zero (by decide) (by decide)) (by omega) (by omega),
        fresh]

/-! ### The format -/

/-- The bytes of a list lie in memory from `p` on. -/
def Spelled (mem : BitVec 32 → UInt8) : BitVec 32 → List UInt8 → Prop
  | _, [] => True
  | p, c :: cs => mem p = c ∧ Spelled mem (p + 1) cs

theorem add_one_add_ofNat (p : BitVec 32) (n : Nat) :
    p + 1 + BitVec.ofNat 32 n = p + BitVec.ofNat 32 (n + 1) := by
  rw [BitVec.add_assoc, Nat.add_comm n 1, BitVec.ofNat_add]
  rfl

theorem add_ofNat_add_ofNat (p : BitVec 32) (m n : Nat) :
    p + BitVec.ofNat 32 m + BitVec.ofNat 32 n = p + BitVec.ofNat 32 (m + n) := by
  rw [BitVec.add_assoc, BitVec.ofNat_add]

variable {mem : BitVec 32 → UInt8}

theorem spelled_append {p : BitVec 32} {front back : List UInt8} :
    Spelled mem p (front ++ back) ↔
      Spelled mem p front ∧ Spelled mem (p + BitVec.ofNat 32 front.length) back := by
  induction front generalizing p with
  | nil => simp [Spelled]
  | cons c cs ih =>
      simp only [List.cons_append, Spelled, ih, List.length_cons, add_one_add_ofNat, and_assoc]

theorem spelled_of_getElem {p : BitVec 32} {bytes : List UInt8}
    (same : ∀ i (inside : i < bytes.length), mem (p + BitVec.ofNat 32 i) = bytes[i]) :
    Spelled mem p bytes := by
  induction bytes generalizing p with
  | nil => trivial
  | cons c cs ih =>
      refine ⟨?_, ih fun i inside => ?_⟩
      · simpa using same 0 (Nat.succ_pos cs.length)
      · rw [add_one_add_ofNat]
        exact same (i + 1) (Nat.succ_lt_succ inside)

/-- A string spells its characters. -/
theorem spelled_chars (p : BitVec 32) : Spelled mem p (strAt mem p).chars := by
  apply spelled_of_getElem
  intro i inside
  rw [getElem_chars inside]
  rfl

variable {arg : Nat → BitVec 32} {conv : Nat → Mem}

/-- Printing a string. -/
theorem putsLoop_chars {str : CStr} (ended : Terminated str) (out : σ) (enough : 2 ^ 32 ≤ fuel) :
    putsLoop putc str fuel 0 out = some (strlen str, str.chars.foldl putc out) := by
  obtain ⟨n, bound, stop⟩ := ended
  have short : strlen str ≤ n := strlen_le stop
  have printed : putsLoop putc str fuel 0 out =
      some (0 + str.chars.length, str.chars.foldl putc out) := by
    apply putsLoop_eq str.chars 0 out
    · intro i inside
      rw [Nat.zero_add, getElem_chars inside]
    · intro c mem zero
      exact zero_not_mem_chars str (zero ▸ mem)
    · rw [Nat.zero_add, length_chars]
      exact strlen_stop stop bound
    · rw [length_chars]
      omega
  rw [Nat.zero_add, length_chars] at printed
  exact printed

/-- The `#`s only set the flag. -/
theorem formatChar_hashes (hashes rounds : Nat) (alternate : Bool) (st : Printf σ)
    (spelled : Spelled mem st.buf (List.replicate hashes 35)) (enough : hashes ≤ rounds) :
    formatChar putc mem arg conv fuel rounds alternate st =
      formatChar putc mem arg conv fuel (rounds - hashes) (alternate || decide (0 < hashes))
        { st with buf := st.buf + BitVec.ofNat 32 hashes } := by
  induction hashes generalizing rounds alternate st with
  | zero => simp
  | succ hashes ih =>
      obtain ⟨less, rfl⟩ : ∃ less, rounds = less + 1 := Nat.exists_eq_add_one.mpr (by omega)
      obtain ⟨here, later⟩ := spelled
      rw [formatChar]
      simp only [here]
      rw [if_neg (by decide), if_pos trivial, ih less true _ later (by omega), add_one_add_ofNat,
        Nat.add_sub_add_right]
      simp

/-- The letter of a conversion prints its text and takes its argument. -/
theorem formatChar_letter (c : Conversion) (rounds : Nat) (alternate : Bool) (st : Printf σ)
    (letter : mem st.buf = c.letter)
    (string : c = .string → Terminated (strAt mem (arg st.esp))) (enough : 2 ^ 32 ≤ fuel) :
    formatChar putc mem arg conv fuel (rounds + 1) alternate st =
      some { st with
        esp := st.esp + (if c = .percent then 0 else 1)
        out := (c.text mem alternate (arg st.esp)).foldl putc st.out } := by
  rw [formatChar]
  simp only [letter]
  cases c with
  | percent => rfl
  | hex =>
      simp only [Conversion.letter]
      rw [printHex_eq mem alternate _ _ _ (by omega)]
      simp [Printf.printed]
  | unsigned =>
      simp only [Conversion.letter]
      rw [printUnsigned_eq _ _ _ (by omega)]
      simp [Printf.printed, Conversion.text]
  | signed =>
      simp only [Conversion.letter]
      rw [printSigned_eq _ _ _ (by omega)]
      simp [Printf.printed, Conversion.text]
  | character => simp [Conversion.letter, Printf.printed, Conversion.text]
  | string =>
      simp only [Conversion.letter]
      rw [putsLoop_chars (string rfl) _ enough]
      simp [Printf.printed, Conversion.text]

/-- One piece of the format. -/
theorem printfLoop_piece (p : Piece) (rounds : Nat) (st : Printf σ)
    (spelled : Spelled mem st.buf p.bytes)
    (string : ∀ hashes, p = .conversion hashes .string → Terminated (strAt mem (arg st.esp)))
    (short : p.bytes.length < 2 ^ 32) (large : 2 ^ 32 ≤ fuel) :
    printfLoop putc mem arg conv fuel (rounds + 1) st =
      printfLoop putc mem arg conv fuel rounds { st with
        buf := st.buf + BitVec.ofNat 32 p.bytes.length
        esp := st.esp + p.takes
        out := (p.text mem (arg st.esp)).foldl putc st.out } := by
  rw [printfLoop]
  cases p with
  | literal c plain =>
      have here : mem st.buf = c := spelled.1
      rw [here, if_neg plain.1, if_neg plain.2]
      rfl
  | conversion hashes c =>
      obtain ⟨here, later⟩ := spelled
      obtain ⟨flags, letter⟩ := spelled_append.mp later
      have length : (Piece.conversion hashes c).bytes.length = hashes + 2 := by simp [Piece.bytes]
      rw [List.length_replicate] at letter
      rw [length] at short ⊢
      have rounds' : fuel - hashes = fuel - hashes - 1 + 1 := by omega
      rw [here, if_neg (by decide), if_pos rfl, formatChar_hashes hashes fuel false _ flags
        (by omega), rounds', formatChar_letter c (fuel - hashes - 1) (false || decide (0 < hashes))
        ⟨st.buf + 1 + BitVec.ofNat 32 hashes, st.esp, st.out, st.inRange⟩ letter.1
        (fun isString => string hashes (by rw [isString])) large]
      have after : st.buf + 1 + BitVec.ofNat 32 hashes + 1 =
          st.buf + BitVec.ofNat 32 (hashes + 2) := by
        rw [add_one_add_ofNat]
        exact add_ofNat_add_ofNat st.buf (hashes + 1) 1
      simp only [Option.bind_eq_bind, Option.bind_some, after, Bool.false_or]
      rfl

/-- The loop on a format prints its pieces in order. -/
theorem printfLoop_pieces (ps : List Piece) (rounds : Nat) (st : Printf σ)
    (spelled : Spelled mem st.buf (ps.flatMap Piece.bytes))
    (ended : mem (st.buf + BitVec.ofNat 32 (ps.flatMap Piece.bytes).length) = 0)
    (matching : Matching mem arg st.esp ps) (enough : (ps.flatMap Piece.bytes).length < rounds)
    (short : (ps.flatMap Piece.bytes).length < 2 ^ 32) (large : 2 ^ 32 ≤ fuel) :
    printfLoop putc mem arg conv fuel rounds st =
      some { st with
        buf := st.buf + BitVec.ofNat 32 (ps.flatMap Piece.bytes).length
        esp := st.esp + (ps.map Piece.takes).sum
        out := (piecesText mem arg st.esp ps).foldl putc st.out } := by
  induction ps generalizing rounds st with
  | nil =>
      obtain ⟨less, rfl⟩ := Nat.exists_eq_add_one.mpr enough
      simp only [List.flatMap_nil, List.length_nil, BitVec.add_zero] at ended
      simp [printfLoop, ended, piecesText]
  | cons p rest ih =>
      obtain ⟨less, rfl⟩ : ∃ less, rounds = less + 1 := Nat.exists_eq_add_one.mpr (by omega)
      have some : 0 < p.bytes.length := by
        cases p <;> simp [Piece.bytes]
      rw [List.flatMap_cons] at spelled ended enough short ⊢
      rw [List.length_append, ← add_ofNat_add_ofNat] at ended ⊢
      rw [List.length_append] at enough short
      obtain ⟨string, later⟩ := matching
      obtain ⟨here, beyond⟩ := spelled_append.mp spelled
      rw [printfLoop_piece p less st here string (by omega) large,
        ih less _ beyond ended later (by omega) (by omega)]
      simp only [List.map_cons, List.sum_cons, piecesText, List.foldl_append, Nat.add_assoc]

theorem printf_of_loop {format : BitVec 32} {out : σ} {st : Printf σ}
    (run : printfLoop putc mem arg conv fuel fuel ⟨format, 0, out, true⟩ = some st) :
    printf putc mem arg conv fuel format out = some (st.buf - format, st) := by
  rw [printf, run]
  rfl

/-- **Formatted printing.** For every format and every list of arguments that matches it,
`printf` returns. What it passed to `putc` is the text of the pieces in order. It has taken one
argument for each conversion but `%%`, no conversion buffer was left, and the value returned is
the length of the format. -/
theorem printf_prints (putc : σ → UInt8 → σ) (mem : BitVec 32 → UInt8) (arg : Nat → BitVec 32)
    (conv : Nat → Mem) (format : BitVec 32) (ps : List Piece) (out : σ)
    (ended : Terminated (strAt mem format))
    (spelled : (strAt mem format).chars = ps.flatMap Piece.bytes)
    (matching : Matching mem arg 0 ps) (fuel : Nat) (large : 2 ^ 32 ≤ fuel) :
    ∃ result st, printf putc mem arg conv fuel format out = some (result, st) ∧
      st.out = (piecesText mem arg 0 ps).foldl putc out ∧
      st.esp = (ps.map Piece.takes).sum ∧
      st.inRange = true ∧
      result.toNat = (ps.flatMap Piece.bytes).length := by
  obtain ⟨n, bound, stop⟩ := ended
  have length : strlen (strAt mem format) = (ps.flatMap Piece.bytes).length := by
    rw [← length_chars, spelled]
  have short : (ps.flatMap Piece.bytes).length < 2 ^ 32 := by
    rw [← length]
    exact Nat.lt_of_le_of_lt (strlen_le stop) bound
  have nul : mem (format + BitVec.ofNat 32 (ps.flatMap Piece.bytes).length) = 0 := by
    rw [← length]
    exact strlen_stop stop bound
  have bytes : Spelled mem format (ps.flatMap Piece.bytes) := spelled ▸ spelled_chars format
  have run : printfLoop putc mem arg conv fuel fuel ⟨format, 0, out, true⟩ = _ :=
    printfLoop_pieces ps fuel _ bytes nul matching (by omega) short large
  refine ⟨_, _, printf_of_loop run, rfl, Nat.zero_add _, rfl, ?_⟩
  rw [BitVec.add_comm, BitVec.add_sub_cancel, BitVec.toNat_ofNat, Nat.mod_eq_of_lt short]

/-- `"%d%s"` at address 0 and `"ok"` at address 8. -/
def sampleMem : BitVec 32 → UInt8 := fun p =>
  [37, 100, 37, 115, 0, 0, 0, 0, 111, 107].getD p.toNat 0

theorem chars_sampleFormat : (strAt sampleMem 0).chars = [37, 100, 37, 115] := by
  have length : strlen (strAt sampleMem 0) = 4 :=
    strlen_eq (by decide) (by decide) (by decide)
  rw [CStr.chars, length]
  decide

theorem chars_sampleString : (strAt sampleMem 8).chars = [111, 107] := by
  have length : strlen (strAt sampleMem 8) = 2 :=
    strlen_eq (by decide) (by decide) (by decide)
  rw [CStr.chars, length]
  decide

/-- The least integer and a string. -/
theorem printf_prints_least :
    ∃ result st, printf (fun out c => out ++ [c]) sampleMem (fun k => if k = 0 then 0x80000000 else 8)
        (fun _ _ => 0xCC) (2 ^ 32) 0 [] = some (result, st) ∧
      st.out = [45, 50, 49, 52, 55, 52, 56, 51, 54, 52, 56, 111, 107] ∧ st.esp = 2 ∧
      result.toNat = 4 := by
  obtain ⟨result, st, returned, out, esp, -, length⟩ := printf_prints (fun out c => out ++ [c])
    sampleMem (fun k => if k = 0 then 0x80000000 else 8) (fun _ _ => 0xCC) 0
    [.conversion 0 .signed, .conversion 0 .string] [] ⟨4, by decide, by decide⟩
    (chars_sampleFormat.trans rfl)
    ⟨fun _ => nofun, fun _ _ => ⟨2, by decide, by decide⟩, trivial⟩ (2 ^ 32) (Nat.le_refl _)
  refine ⟨result, st, returned, out.trans ?_, esp.trans rfl, length.trans rfl⟩
  have least : signedNumeral (0x80000000 : BitVec 32).toInt =
      [45, 50, 49, 52, 55, 52, 56, 51, 54, 52, 56] := by decide +kernel
  have text : piecesText sampleMem (fun k => if k = 0 then 0x80000000 else 8) 0
      [.conversion 0 .signed, .conversion 0 .string] =
        signedNumeral (0x80000000 : BitVec 32).toInt ++ ((strAt sampleMem 8).chars ++ []) := rfl
  rw [text, least, chars_sampleString]
  rfl

end Proofs

end Linux391
