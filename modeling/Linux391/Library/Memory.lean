import Mathlib.Logic.Function.Basic
import Mathlib.Tactic.Ring

/-!
Byte-addressed memory with little-endian words of any width.

A memory is a total function from addresses to bytes. `load` reads a word of
`n` bytes and `store` writes one; the two laws every client needs are that a
word reads back as it was stored (`load_store_same`) and that a store changes
nothing outside its own bytes (`load_store_of_disjoint`). `storeBytes` writes a
list of bytes at consecutive addresses.
-/

namespace Linux391.Memory

abbrev Mem := Nat → UInt8

/-- The little-endian word of `n` bytes at address `a`. -/
def load (m : Mem) (a : Nat) : Nat → Nat
  | 0 => 0
  | n + 1 => (m a).toNat + 256 * load m (a + 1) n

/-- Store the low `n` bytes of `v` at `a`, least significant byte first. -/
def store (m : Mem) (a n v : Nat) : Mem := fun x =>
  if a ≤ x ∧ x < a + n then UInt8.ofNat (v / 256 ^ (x - a)) else m x

/-- Store a list of bytes at consecutive addresses from `a`. -/
def storeBytes (m : Mem) (a : Nat) (bytes : List UInt8) : Mem := fun x =>
  if a ≤ x then (bytes[x - a]?).getD (m x) else m x

/-! ### Words -/

theorem load_lt (m : Mem) (a n : Nat) : load m a n < 256 ^ n := by
  induction n generalizing a with
  | zero => simp [load]
  | succ n ih =>
      have low := (m a).toNat_lt
      have high := ih (a + 1)
      simp only [load, pow_succ]
      omega

/-- A word depends on its own bytes only. -/
theorem load_congr {m m' : Mem} {a n : Nat} (same : ∀ i < n, m (a + i) = m' (a + i)) :
    load m a n = load m' a n := by
  induction n generalizing a with
  | zero => rfl
  | succ n ih =>
      have first : m a = m' a := by simpa using same 0 (Nat.succ_pos n)
      have rest : load m (a + 1) n = load m' (a + 1) n := by
        apply ih
        intro i hi
        have := same (i + 1) (Nat.succ_lt_succ hi)
        rwa [show a + 1 + i = a + (i + 1) by omega]
      simp only [load, first, rest]

/-- Equal words have equal bytes. -/
theorem load_inj {m m' : Mem} {a n : Nat} (same : load m a n = load m' a n) :
    ∀ i < n, m (a + i) = m' (a + i) := by
  induction n generalizing a with
  | zero => exact fun i lt => absurd lt (Nat.not_lt_zero i)
  | succ n ih =>
      simp only [load] at same
      have low := (m a).toNat_lt
      have low' := (m' a).toNat_lt
      have first : m a = m' a := UInt8.toNat_inj.mp (by omega)
      have rest := ih (a := a + 1) (by omega)
      intro i lt
      cases i with
      | zero => exact first
      | succ i =>
          have := rest i (Nat.lt_of_succ_lt_succ lt)
          rwa [show a + 1 + i = a + (i + 1) by omega] at this

theorem store_of_lt {m : Mem} {a n v x : Nat} (before : x < a) : store m a n v x = m x := by
  simp [store, Nat.not_le.mpr before]

theorem store_of_ge {m : Mem} {a n v x : Nat} (after : a + n ≤ x) : store m a n v x = m x := by
  simp [store, Nat.not_lt.mpr after]

theorem store_apply {m : Mem} {a n v i : Nat} (inside : i < n) :
    store m a n v (a + i) = UInt8.ofNat (v / 256 ^ i) := by
  simp [store, inside]

/-- A stored word reads back, truncated to its width. -/
theorem load_store_same (m : Mem) (a n v : Nat) : load (store m a n v) a n = v % 256 ^ n := by
  suffices ∀ k w (m' : Mem) b, (∀ i < k, m' (b + i) = UInt8.ofNat (w / 256 ^ i)) →
      load m' b k = w % 256 ^ k from
    this n v _ a fun i hi => store_apply hi
  intro k
  induction k with
  | zero => intro w m' b _; simp [load, Nat.mod_one]
  | succ k ih =>
      intro w m' b bytes
      have low : (m' b).toNat = w % 256 := by
        have := bytes 0 (Nat.succ_pos k)
        simp only [Nat.add_zero, pow_zero, Nat.div_one] at this
        simp [this]
      have high : load m' (b + 1) k = w / 256 % 256 ^ k := by
        apply ih
        intro i hi
        have := bytes (i + 1) (Nat.succ_lt_succ hi)
        rw [show b + 1 + i = b + (i + 1) by omega, this, Nat.div_div_eq_div_mul]
        congr 2
        ring
      rw [load, low, high, pow_succ, Nat.mul_comm (256 ^ k) 256, Nat.mod_mul]

/-- A store leaves every word that shares no byte with it unchanged. -/
theorem load_store_of_disjoint {m : Mem} {a n v b k : Nat} (apart : a + n ≤ b ∨ b + k ≤ a) :
    load (store m a n v) b k = load m b k := by
  apply load_congr
  intro i hi
  rcases apart with before | after
  · exact store_of_ge (by omega)
  · exact store_of_lt (by omega)

/-! ### Runs of bytes -/

theorem storeBytes_of_lt {m : Mem} {a x : Nat} {bytes : List UInt8} (before : x < a) :
    storeBytes m a bytes x = m x := by
  simp [storeBytes, Nat.not_le.mpr before]

theorem storeBytes_of_ge {m : Mem} {a x : Nat} {bytes : List UInt8}
    (after : a + bytes.length ≤ x) : storeBytes m a bytes x = m x := by
  have outside : bytes[x - a]? = none := List.getElem?_eq_none (by omega)
  simp [storeBytes, outside]

theorem storeBytes_apply {m : Mem} {a i : Nat} {bytes : List UInt8} (inside : i < bytes.length) :
    storeBytes m a bytes (a + i) = bytes.getD i 0 := by
  simp [storeBytes, List.getElem?_eq_getElem inside]

theorem storeBytes_nil (m : Mem) (a : Nat) : storeBytes m a [] = m := by
  funext x
  simp [storeBytes]

theorem storeBytes_cons (m : Mem) (a : Nat) (b : UInt8) (bytes : List UInt8) :
    storeBytes m a (b :: bytes) = storeBytes (Function.update m a b) (a + 1) bytes := by
  funext x
  unfold storeBytes
  rcases Nat.lt_trichotomy x a with before | rfl | after
  · rw [if_neg (by omega), if_neg (by omega), Function.update_of_ne (by omega)]
  · simp
  · rw [if_pos (by omega), if_pos (by omega), Function.update_of_ne (by omega),
      show x - a = x - (a + 1) + 1 by omega, List.getElem?_cons_succ]

theorem storeBytes_append (m : Mem) (a : Nat) (front back : List UInt8) :
    storeBytes m a (front ++ back) =
      storeBytes (storeBytes m a front) (a + front.length) back := by
  induction front generalizing m a with
  | nil => simp [storeBytes_nil]
  | cons b front ih =>
      rw [List.cons_append, storeBytes_cons, storeBytes_cons, ih, List.length_cons,
        Nat.add_assoc, Nat.add_comm 1]

theorem load_storeBytes_of_disjoint {m : Mem} {a b k : Nat} {bytes : List UInt8}
    (apart : a + bytes.length ≤ b ∨ b + k ≤ a) :
    load (storeBytes m a bytes) b k = load m b k := by
  apply load_congr
  intro i hi
  rcases apart with before | after
  · exact storeBytes_of_ge (by omega)
  · exact storeBytes_of_lt (by omega)

end Linux391.Memory
