import Mathlib.Algebra.Ring.Int.Defs
import Mathlib.Algebra.Ring.Nat
import Mathlib.Data.List.Range

/-!
The C types and string routines of `lib/types.h` and `lib/lib.c` that the kernel
modules call.

A `char *` argument is the function of the bytes at that pointer. The string
routines stop at the first zero byte. Where memory holds none, the C loop
would run over the whole 32-bit address space, so the search here is bounded by
its size.
-/

namespace Linux391

/-- The bytes found at a pointer: `s i` is `s[i]`. -/
abbrev CStr := Nat → UInt8

/-- A `uint32_t` value read as an `int32_t`. -/
def int32 (v : Nat) : Int :=
  if v % 2 ^ 32 < 2 ^ 31 then (v % 2 ^ 32 : Nat) else ((v % 2 ^ 32 : Nat) : Int) - 2 ^ 32

/-- An `int32_t` value read as a `uint32_t`. -/
def uint32 (v : Int) : Nat := (v % 2 ^ 32).toNat

/-- A `char` is signed on this machine. -/
def schar (c : UInt8) : Int := if c.toNat < 128 then c.toNat else (c.toNat : Int) - 256

/-- A string literal as the bytes at its pointer, with the terminating NUL. -/
def cLit (s : List UInt8) : CStr := fun i => s.getD i 0

def strlenFrom (s : CStr) : Nat → Nat → Nat
  | 0, len => len
  | fuel + 1, len => if s len = 0 then len else strlenFrom s fuel (len + 1)

def strlen (s : CStr) : Nat := strlenFrom s (2 ^ 32) 0

/-- `strncmp` from index `i` on, with `n` characters still to compare. -/
def strncmpFrom (s1 s2 : CStr) : Nat → Nat → Int
  | 0, _ => 0
  | n + 1, i =>
      if s1 i ≠ s2 i ∨ s1 i = 0 then schar (s1 i) - schar (s2 i)
      else strncmpFrom s1 s2 n (i + 1)

def strncmp (s1 s2 : CStr) (n : Nat) : Int := strncmpFrom s1 s2 n 0

/-- The characters of a string, without its NUL. -/
def CStr.chars (s : CStr) : List UInt8 := (List.range (strlen s)).map s

/-- A NUL comes somewhere after the pointer. -/
def Terminated (s : CStr) : Prop := ∃ n < 2 ^ 32, s n = 0

/-- The bytes `strcpy` stores at its destination, the NUL included. -/
def strcpyBytes (src : CStr) : List UInt8 := src.chars ++ [0]

theorem int32_of_lt {v : Nat} (small : v < 2 ^ 31) : int32 v = v := by
  have reduced : v % 2 ^ 32 = v := Nat.mod_eq_of_lt (by omega)
  unfold int32
  simp only [reduced, if_pos small]

theorem strlenFrom_eq {s : CStr} {n : Nat} (stop : s n = 0) :
    ∀ fuel i, i ≤ n → n < i + fuel → (∀ j, i ≤ j → j < n → s j ≠ 0) → strlenFrom s fuel i = n
  | 0, i, le, lt, _ => by omega
  | fuel + 1, i, le, lt, before => by
      by_cases last : i = n
      · subst last
        simp [strlenFrom, stop]
      · have go : s i ≠ 0 := before i (Nat.le_refl i) (by omega)
        simp only [strlenFrom, if_neg go]
        exact strlenFrom_eq stop fuel (i + 1) (by omega) (by omega)
          fun j hj hlt => before j (by omega) hlt

/-- `strlen` is the index of the first zero byte. -/
theorem strlen_eq {s : CStr} {n : Nat} (stop : s n = 0) (before : ∀ j < n, s j ≠ 0)
    (bound : n < 2 ^ 32) : strlen s = n :=
  strlenFrom_eq stop (2 ^ 32) 0 (Nat.zero_le n) (by omega) fun j _ hj => before j hj

theorem strlenFrom_ne_zero {s : CStr} {j : Nat} :
    ∀ fuel i, i ≤ j → j < strlenFrom s fuel i → s j ≠ 0
  | 0, i, le, lt => by
      simp only [strlenFrom] at lt
      omega
  | fuel + 1, i, le, lt => by
      simp only [strlenFrom] at lt
      split at lt
      · omega
      · rename_i here
        rcases Nat.eq_or_lt_of_le le with rfl | before
        · exact here
        · exact strlenFrom_ne_zero fuel (i + 1) before lt

/-- No character of a string is zero. -/
theorem ne_zero_of_lt_strlen {s : CStr} {j : Nat} (lt : j < strlen s) : s j ≠ 0 :=
  strlenFrom_ne_zero (2 ^ 32) 0 (Nat.zero_le j) lt

theorem strlenFrom_stop {s : CStr} {n : Nat} (stop : s n = 0) :
    ∀ fuel i, i ≤ n → n < i + fuel → s (strlenFrom s fuel i) = 0
  | 0, i, le, lt => by omega
  | fuel + 1, i, le, lt => by
      simp only [strlenFrom]
      split
      · assumption
      · rename_i here
        have other : i ≠ n := fun same => here (same ▸ stop)
        exact strlenFrom_stop stop fuel (i + 1) (by omega) (by omega)

/-- A string that ends has a zero byte at its length. -/
theorem strlen_stop {s : CStr} {n : Nat} (stop : s n = 0) (bound : n < 2 ^ 32) :
    s (strlen s) = 0 :=
  strlenFrom_stop stop (2 ^ 32) 0 (Nat.zero_le n) (by omega)

theorem strlenFrom_stop_of_lt {s : CStr} :
    ∀ fuel i, strlenFrom s fuel i < i + fuel → s (strlenFrom s fuel i) = 0
  | 0, i, lt => absurd lt (Nat.lt_irrefl i)
  | fuel + 1, i, lt => by
      simp only [strlenFrom] at lt ⊢
      split at lt
      · rename_i here
        rw [if_pos here]
        exact here
      · rename_i here
        rw [if_neg here]
        exact strlenFrom_stop_of_lt fuel (i + 1) (by omega)

/-- A length below the bound of the search is that of a string that ends. -/
theorem strlen_stop_of_lt {s : CStr} (short : strlen s < 2 ^ 32) : s (strlen s) = 0 :=
  strlenFrom_stop_of_lt (2 ^ 32) 0 (by rw [Nat.zero_add]; exact short)

/-- A zero byte bounds the length. -/
theorem strlen_le {s : CStr} {n : Nat} (stop : s n = 0) : strlen s ≤ n := by
  by_contra longer
  exact ne_zero_of_lt_strlen (Nat.lt_of_not_le longer) stop

theorem strlenFrom_le (s : CStr) : ∀ fuel len, strlenFrom s fuel len ≤ len + fuel
  | 0, len => Nat.le_refl len
  | fuel + 1, len => by
      have rest := strlenFrom_le s fuel (len + 1)
      simp only [strlenFrom]
      split <;> omega

theorem strlen_le_max (s : CStr) : strlen s ≤ 2 ^ 32 := by
  have := strlenFrom_le s (2 ^ 32) 0
  unfold strlen
  omega

/-! ### Comparing strings -/

theorem schar_inj {a b : UInt8} (same : schar a - schar b = 0) : a = b := by
  have lta := a.toNat_lt
  have ltb := b.toNat_lt
  apply UInt8.toNat_inj.mp
  unfold schar at same
  split_ifs at same <;> omega

/-- Inside the first string, `strncmp` gives 0 exactly on equal characters. -/
theorem strncmpFrom_eq_zero {s1 s2 : CStr} (n i : Nat)
    (inside : ∀ j, i ≤ j → j < i + n → s1 j ≠ 0) :
    strncmpFrom s1 s2 n i = 0 ↔ ∀ j, i ≤ j → j < i + n → s1 j = s2 j := by
  induction n generalizing i with
  | zero =>
      simp only [strncmpFrom, true_iff]
      intro j le lt
      omega
  | succ n ih =>
      have go : s1 i ≠ 0 := inside i (Nat.le_refl i) (by omega)
      simp only [strncmpFrom, go, or_false]
      by_cases same : s1 i = s2 i
      · rw [if_neg fun ne => ne same, ih (i + 1) fun j le lt => inside j (by omega) (by omega)]
        constructor
        · intro rest j le lt
          rcases Nat.eq_or_lt_of_le le with rfl | before
          · exact same
          · exact rest j before (by omega)
        · intro all j le lt
          exact all j (by omega) (by omega)
      · rw [if_pos same]
        constructor
        · intro zero
          exact absurd (schar_inj zero) same
        · intro all
          exact absurd (all i (Nat.le_refl i) (by omega)) same

theorem length_chars (s : CStr) : s.chars.length = strlen s := by
  simp [CStr.chars]

theorem getElem_chars {s : CStr} {j : Nat} (inside : j < s.chars.length) :
    s.chars[j] = s j := by
  simp [CStr.chars]

/-- The characters of a pointer to a text with a NUL behind it. -/
theorem chars_of_text {s : CStr} {text : List UInt8}
    (shown : ∀ j (inside : j < text.length), s j = text[j]) (nonzero : ∀ c ∈ text, c ≠ 0)
    (nul : s text.length = 0) (short : text.length < 2 ^ 32) : s.chars = text := by
  have length : strlen s = text.length := by
    refine strlen_eq nul (fun j lt => ?_) short
    rw [shown j lt]
    exact nonzero _ (List.getElem_mem lt)
  apply List.ext_getElem
  · rw [length_chars, length]
  · intro j inside inside'
    rw [getElem_chars inside, shown j inside']

theorem chars_cLit {l : List UInt8} (nulFree : 0 ∉ l) (short : l.length < 2 ^ 32) :
    (cLit l).chars = l := by
  refine chars_of_text (fun j inside => ?_) (fun c mem zero => nulFree (zero ▸ mem)) ?_ short
  · simp [cLit, inside]
  · simp [cLit]

theorem zero_not_mem_chars (s : CStr) : 0 ∉ s.chars := by
  intro mem
  obtain ⟨j, lt, zero⟩ := List.mem_map.mp mem
  exact ne_zero_of_lt_strlen (List.mem_range.mp lt) zero

/-- Two strings are equal when their lengths and characters are. -/
theorem chars_eq_iff {s1 s2 : CStr} :
    s1.chars = s2.chars ↔ strlen s1 = strlen s2 ∧ ∀ j < strlen s1, s1 j = s2 j := by
  constructor
  · intro same
    have lengths : strlen s1 = strlen s2 := by rw [← length_chars, ← length_chars, same]
    refine ⟨lengths, ?_⟩
    intro j lt
    have inside : j < s1.chars.length := by rwa [length_chars]
    have inside' : j < s2.chars.length := by rwa [← same]
    rw [← getElem_chars inside, ← getElem_chars inside']
    simp only [same]
  · rintro ⟨lengths, same⟩
    apply List.ext_getElem
    · rw [length_chars, length_chars, lengths]
    · intro j inside inside'
      rw [getElem_chars, getElem_chars]
      exact same j (by rwa [length_chars] at inside)

/-- The characters before the first zero byte. -/
theorem chars_eq {s : CStr} {n : Nat} (stop : s n = 0) (before : ∀ j < n, s j ≠ 0)
    (bound : n < 2 ^ 32) : s.chars = (List.range n).map s := by
  rw [CStr.chars, strlen_eq stop before bound]

theorem length_strcpyBytes (src : CStr) : (strcpyBytes src).length = strlen src + 1 := by
  simp [strcpyBytes, length_chars]

theorem getD_strcpyBytes_of_lt {s : CStr} {i : Nat} (lt : i < strlen s) :
    (strcpyBytes s).getD i 0 = s i := by
  have inside : i < s.chars.length := by rwa [length_chars]
  rw [strcpyBytes, List.getD_eq_getElem?_getD, List.getElem?_append_left inside]
  simp [CStr.chars, lt]

theorem getD_strcpyBytes_strlen (s : CStr) : (strcpyBytes s).getD (strlen s) 0 = 0 := by
  simp [strcpyBytes, ← length_chars]

/-- The bytes `strcpy` stored make the same string, whatever follows them. -/
theorem chars_of_strcpyBytes {s buf : CStr} (bound : strlen s < 2 ^ 32)
    (copied : ∀ j < (strcpyBytes s).length, buf j = (strcpyBytes s).getD j 0) :
    buf.chars = s.chars := by
  rw [length_strcpyBytes] at copied
  have stop : buf (strlen s) = 0 := by
    rw [copied _ (by omega), getD_strcpyBytes_strlen]
  have same : ∀ j < strlen s, buf j = s j := by
    intro j lt
    rw [copied j (by omega), getD_strcpyBytes_of_lt lt]
  have before : ∀ j < strlen s, buf j ≠ 0 := by
    intro j lt
    rw [same j lt]
    exact ne_zero_of_lt_strlen lt
  rw [chars_eq_iff, strlen_eq stop before bound]
  exact ⟨rfl, same⟩

end Linux391
