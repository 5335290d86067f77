import Linux391.Library.Memory

/-!
Arrays of a fixed size.

A buffer is the content of an array together with its size and with whether every access so
far was inside it. An access inside the array has no other effect than its own
(`touch_inside`, `put_inside`), so that a proof has to look at the bounds once and can then
argue about `write`, the array with some bytes replaced.
-/

namespace Linux391

open Memory

@[ext]
structure Buffer where
  size : Nat
  bytes : Mem
  /-- No access so far has left the array. -/
  inRange : Bool

namespace Buffer

/-- Record an access. -/
def touch (b : Buffer) (i : Nat) : Buffer :=
  { b with inRange := b.inRange && decide (i < b.size) }

def put (b : Buffer) (i : Nat) (c : UInt8) : Buffer :=
  { b.touch i with bytes := Function.update b.bytes i c }

/-- Exchange two bytes, through a variable that takes the one at `j`. -/
def swap (b : Buffer) (i j : Nat) : Buffer :=
  (((b.touch j).touch i).put j (b.bytes i)).put i (b.bytes j)

/-- The bytes from an index on. -/
def after (b : Buffer) (i : Nat) : Nat → UInt8 := fun j => b.bytes (i + j)

/-- The buffer with the bytes from `i` on replaced by those of a list. -/
def write (b : Buffer) (i : Nat) (text : List UInt8) : Buffer :=
  { b with bytes := storeBytes b.bytes i text }

/-- Bytes stored from `i` on by somebody else. -/
def fill (b : Buffer) (i : Nat) (text : List UInt8) : Buffer :=
  { b.write i text with inRange := b.inRange && decide (i + text.length ≤ b.size) }

/-- The buffer with the bytes from `lo` up to `hi` in the opposite order. -/
def mirror (b : Buffer) (lo hi : Nat) : Buffer where
  size := b.size
  bytes x := if lo ≤ x ∧ x < hi then b.bytes (lo + (hi - 1 - x)) else b.bytes x
  inRange := b.inRange

variable {b : Buffer} {i j : Nat}

theorem touch_inside (inside : i < b.size) : b.touch i = b := by
  simp [touch, inside]

theorem put_inside (inside : i < b.size) (c : UInt8) :
    b.put i c = { b with bytes := Function.update b.bytes i c } := by
  rw [put, touch_inside inside]

theorem put_eq_write (inside : i < b.size) (c : UInt8) : b.put i c = b.write i [c] := by
  rw [put_inside inside, write, storeBytes_cons, storeBytes_nil]

theorem swap_inside (first : i < b.size) (second : j < b.size) :
    b.swap i j =
      { b with bytes := Function.update (Function.update b.bytes j (b.bytes i)) i (b.bytes j) } := by
  have touched : (b.touch j).touch i = b := by
    rw [touch_inside second, touch_inside first]
  have still : i < ({ b with bytes := Function.update b.bytes j (b.bytes i) } : Buffer).size := first
  rw [swap, touched, put_inside second, put_inside still]

theorem write_nil (b : Buffer) (i : Nat) : b.write i [] = b := by
  rw [write, storeBytes_nil]

theorem write_append (b : Buffer) (i : Nat) (front back : List UInt8) :
    (b.write i front).write (i + front.length) back = b.write i (front ++ back) := by
  simp only [write, storeBytes_append]

/-- The two parts of a text may be written in either order. -/
theorem write_append_back (b : Buffer) (i : Nat) (front back : List UInt8) :
    (b.write (i + front.length) back).write i front = b.write i (front ++ back) := by
  refine Buffer.ext rfl ?_ rfl
  funext x
  simp only [write, storeBytes]
  rcases Nat.lt_or_ge x i with before | beyond
  · rw [if_neg (by omega), if_neg (by omega), if_neg (by omega)]
  · rw [if_pos beyond, if_pos beyond]
    rcases Nat.lt_or_ge (x - i) front.length with first | second
    · rw [List.getElem?_append_left first, List.getElem?_eq_getElem first]
      rfl
    · rw [List.getElem?_append_right second, List.getElem?_eq_none second, if_pos (by omega),
        Nat.sub_sub]
      rfl

theorem size_write (text : List UInt8) : (b.write i text).size = b.size := rfl

theorem inRange_write (text : List UInt8) : (b.write i text).inRange = b.inRange := rfl

/-- What was written is found there. -/
theorem after_write {text : List UInt8} (inside : j < text.length) :
    (b.write i text).after i j = text.getD j 0 :=
  storeBytes_apply inside

theorem fill_inside {text : List UInt8} (inside : i + text.length ≤ b.size) :
    b.fill i text = b.write i text := by
  refine Buffer.ext rfl rfl ?_
  simp [fill, write, inside]

/-! ### What a buffer holds -/

/-- A text stands in the buffer from `i` on. -/
def Holds (b : Buffer) (i : Nat) (text : List UInt8) : Prop :=
  ∀ j (inside : j < text.length), b.bytes (i + j) = text[j]

theorem holds_nil (b : Buffer) (i : Nat) : b.Holds i [] := by
  intro j inside
  cases inside

theorem holds_cons {c : UInt8} {text : List UInt8} :
    b.Holds i (c :: text) ↔ b.bytes i = c ∧ b.Holds (i + 1) text := by
  constructor
  · intro holds
    refine ⟨holds 0 (Nat.succ_pos _), fun j inside => ?_⟩
    rw [Nat.add_assoc, Nat.add_comm 1 j]
    exact holds (j + 1) (Nat.succ_lt_succ inside)
  · rintro ⟨first, rest⟩ j inside
    cases j with
    | zero => exact first
    | succ j =>
        have later := rest j (Nat.lt_of_succ_lt_succ inside)
        rwa [Nat.add_assoc, Nat.add_comm 1 j] at later

theorem holds_append {front back : List UInt8} :
    b.Holds i (front ++ back) ↔ b.Holds i front ∧ b.Holds (i + front.length) back := by
  induction front generalizing i with
  | nil => simp [holds_nil]
  | cons c front ih =>
      rw [List.cons_append, holds_cons, holds_cons, ih, List.length_cons, Nat.add_assoc,
        Nat.add_comm 1, and_assoc]

/-- Only the bytes of the text matter. -/
theorem Holds.congr {b' : Buffer} {text : List UInt8} (holds : b.Holds i text)
    (same : ∀ j, i ≤ j → j < i + text.length → b'.bytes j = b.bytes j) : b'.Holds i text := by
  intro j inside
  rw [same (i + j) (Nat.le_add_right i j) (by omega)]
  exact holds j inside

theorem holds_write (b : Buffer) (i : Nat) (text : List UInt8) : (b.write i text).Holds i text := by
  intro j inside
  have stored := after_write (b := b) (i := i) inside
  rw [after, List.getD_eq_getElem?_getD, List.getElem?_eq_getElem inside] at stored
  exact stored

/-! ### Reversing in place -/

theorem mirror_short {lo hi : Nat} (short : hi ≤ lo + 1) : b.mirror lo hi = b := by
  refine Buffer.ext rfl ?_ rfl
  funext x
  simp only [mirror]
  split_ifs with inside
  · have same : lo + (hi - 1 - x) = x := by omega
    rw [same]
  · rfl

/-- Exchanging the ends and mirroring what is between them. -/
theorem mirror_swap {lo hi : Nat} (long : lo + 1 < hi) (inside : hi ≤ b.size) :
    (b.swap lo (hi - 1)).mirror (lo + 1) (hi - 1) = b.mirror lo hi := by
  rw [swap_inside (by omega) (by omega)]
  refine Buffer.ext rfl ?_ rfl
  funext x
  simp only [mirror]
  by_cases between : lo + 1 ≤ x ∧ x < hi - 1
  · have opposite : lo + 1 + (hi - 1 - 1 - x) = lo + (hi - 1 - x) := by omega
    rw [if_pos between, if_pos (by omega), opposite, Function.update_of_ne (by omega),
      Function.update_of_ne (by omega)]
  · rw [if_neg between]
    by_cases first : x = lo
    · have opposite : lo + (hi - 1 - x) = hi - 1 := by omega
      rw [if_pos (by omega), opposite, first, Function.update_self]
    · rw [Function.update_of_ne first]
      by_cases second : x = hi - 1
      · have opposite : lo + (hi - 1 - x) = lo := by omega
        rw [if_pos (by omega), opposite, second, Function.update_self]
      · rw [Function.update_of_ne second, if_neg (by omega)]

/-- Mirroring a text gives its reverse. -/
theorem mirror_write (text : List UInt8) :
    (b.write i text).mirror i (i + text.length) = b.write i text.reverse := by
  refine Buffer.ext rfl ?_ rfl
  funext x
  simp only [mirror, write]
  split_ifs with inside
  · have place : x = i + (x - i) := by omega
    rw [storeBytes_apply (by omega), place, storeBytes_apply (by rw [List.length_reverse]; omega),
      List.getD_eq_getElem?_getD, List.getD_eq_getElem?_getD, List.getElem?_reverse (by omega)]
    congr 2
    omega
  · rcases Nat.lt_or_ge x i with before | beyond
    · rw [storeBytes_of_lt before, storeBytes_of_lt before]
    · rw [storeBytes_of_ge (by omega), storeBytes_of_ge (by rw [List.length_reverse]; omega)]

end Buffer

end Linux391
