import Mathlib.Logic.Function.Basic
import Mathlib.Order.Basic

/-!
Text on an unbounded page, and screens that show its last rows.

A page has rows of a fixed width without end, and a position where the next
character goes. A screen of `h` rows shows the last `h` rows of the page up to
the current one (`window`). `Shown` relates a screen and its cursor to a page,
and has one rule for each thing a terminal does: go to the next line, scrolling
if there is none; store a character at the cursor; move on within the row. A
program that keeps to these rules shows a window on the page, however it orders
its scrolling and advancing.
-/

namespace Linux391

variable {α β : Type*}

structure Page (α : Type*) where
  /-- The character in a row and column. -/
  cells : Nat → Nat → α
  row : Nat
  col : Nat

namespace Page

/-- An empty page. -/
def blank (b : α) : Page α := ⟨fun _ _ => b, 0, 0⟩

/-- To column 0 of the next row. -/
def newline (p : Page α) : Page α := { p with row := p.row + 1, col := 0 }

/-- A character at the current position. -/
def store (p : Page α) (c : α) : Page α :=
  { p with cells := Function.update p.cells p.row (Function.update (p.cells p.row) p.col c) }

/-- To the next position of a page of width `w`. -/
def advance (w : Nat) (p : Page α) : Page α :=
  if p.col + 1 = w then p.newline else { p with col := p.col + 1 }

def put (w : Nat) (p : Page α) (c : α) : Page α := (p.store c).advance w

theorem put_last {w : Nat} {p : Page α} (last : p.col + 1 = w) (c : α) :
    p.put w c = (p.store c).newline := if_pos last

theorem put_within {w : Nat} {p : Page α} (within : p.col + 1 ≠ w) (c : α) :
    p.put w c = { p.store c with col := p.col + 1 } := if_neg within

/-- To the next multiple of `stop`, or to the next row if that is in the last column or
beyond. -/
def tab (w stop : Nat) (p : Page α) : Page α :=
  if w - 1 ≤ (p.col / stop + 1) * stop then p.newline
  else { p with col := (p.col / stop + 1) * stop }

/-- What a screen of `h` rows shows in its row `y` and column `x`: the rows up to the
current one, the last `h` of them if there are more. -/
def window (h : Nat) (p : Page α) (y x : Nat) : α := p.cells (p.row - (h - 1) + y) x

/-- The position is in the page, and nothing has been written below its row. -/
structure Fresh (w : Nat) (b : α) (p : Page α) : Prop where
  col_lt : p.col < w
  below : ∀ r x, p.row < r → p.cells r x = b

theorem fresh_blank {w : Nat} (wide : 0 < w) (b : α) : (blank b).Fresh w b :=
  ⟨wide, fun _ _ _ => rfl⟩

theorem Fresh.newline {w : Nat} {b : α} {p : Page α} (fresh : p.Fresh w b) : p.newline.Fresh w b :=
  ⟨Nat.zero_lt_of_lt fresh.col_lt, fun r x lower => fresh.below r x (Nat.lt_of_succ_lt lower)⟩

theorem Fresh.store {w : Nat} {b : α} {p : Page α} (fresh : p.Fresh w b) (c : α) :
    (p.store c).Fresh w b := by
  refine ⟨fresh.col_lt, fun r x lower => ?_⟩
  have other : r ≠ p.row := Nat.ne_of_gt lower
  exact (congrFun (Function.update_of_ne other _ _) x).trans (fresh.below r x lower)

/-- A property of every character of a page survives a character that has it. -/
theorem put_forall {P : α → Prop} {p : Page α} (all : ∀ r x, P (p.cells r x)) {c : α} (new : P c)
    (w r x : Nat) : P ((p.put w c).cells r x) := by
  have stored : P ((p.store c).cells r x) := by
    unfold store
    by_cases row : r = p.row
    · subst row
      by_cases col : x = p.col
      · subst col
        simpa using new
      · simpa [col] using all p.row x
    · simpa [row] using all r x
  unfold put advance
  split_ifs
  · exact stored
  · exact stored

/-! ### The window -/

/-- While there is room below, a new line moves nothing. -/
theorem window_newline_down {h : Nat} {p : Page α} (room : p.row + 1 < h) (y x : Nat) :
    p.newline.window h y x = p.window h y x := by
  unfold window newline
  simp only [show p.row + 1 - (h - 1) = p.row - (h - 1) by omega]

/-- At the bottom a new line moves everything up by one row. -/
theorem window_newline_scroll {w h : Nat} {b : α} {p : Page α} (fresh : p.Fresh w b)
    (bottom : h ≤ p.row + 1) {y : Nat} (inside : y < h) (x : Nat) :
    p.newline.window h y x = if y + 1 < h then p.window h (y + 1) x else b := by
  unfold window newline
  split_ifs with upper
  · simp only [show p.row + 1 - (h - 1) + y = p.row - (h - 1) + (y + 1) by omega]
  · exact fresh.below _ _ (by simp only; omega)

theorem window_store {h : Nat} (p : Page α) (c : α) {y : Nat} (inside : y < h) (x : Nat) :
    (p.store c).window h y x =
      if y = min p.row (h - 1) ∧ x = p.col then c else p.window h y x := by
  unfold window store
  by_cases current : y = min p.row (h - 1)
  · have row : p.row - (h - 1) + y = p.row := by omega
    simp only [row, Function.update_self]
    by_cases here : x = p.col
    · rw [if_pos ⟨current, here⟩, here, Function.update_self]
    · rw [if_neg fun both => here both.2, Function.update_of_ne here]
  · have row : p.row - (h - 1) + y ≠ p.row := by omega
    simp only [Function.update_of_ne row]
    rw [if_neg fun both => current both.1]

end Page

/-! ### Screens -/

/-- A screen of `h` rows of width `w`, with its cursor in column `x` of row `y`, shows the
last rows of the page. Its cells hold characters encoded by `e`. -/
structure Shown (w h : Nat) (b : α) (e : α → β) (grid : Nat → Nat → β) (x y : Int)
    (p : Page α) : Prop where
  fresh : p.Fresh w b
  cells : ∀ r c, r < h → c < w → grid r c = e (p.window h r c)
  col_eq : x = p.col
  row_eq : y = min p.row (h - 1)

namespace Shown

variable {w h : Nat} {b : α} {e : α → β} {grid grid' : Nat → Nat → β} {x y : Int} {p : Page α}

theorem blank (wide : 0 < w) (cells : ∀ r c, r < h → c < w → grid r c = e b) :
    Shown w h b e grid 0 0 (.blank b) where
  fresh := Page.fresh_blank wide b
  cells := cells
  col_eq := rfl
  row_eq := by simp [Page.blank]

/-- Going to the next line: scroll if the cursor is on the last one. -/
theorem newline (shown : Shown w h b e grid x y p) (tall : 0 < h)
    (down : y + 1 < h → ∀ r c, r < h → c < w → grid' r c = grid r c)
    (scroll : y + 1 = h → ∀ r c, r < h → c < w →
      grid' r c = if r + 1 < h then grid (r + 1) c else e b) :
    Shown w h b e grid' 0 (min (y + 1) (h - 1)) p.newline := by
  have row := shown.row_eq
  refine ⟨shown.fresh.newline, fun r c inside wide => ?_, rfl, ?_⟩
  · by_cases room : p.row + 1 < h
    · rw [down (by omega) r c inside wide, Page.window_newline_down room,
        shown.cells r c inside wide]
    · rw [scroll (by omega) r c inside wide,
        Page.window_newline_scroll shown.fresh (Nat.le_of_not_lt room) inside]
      split_ifs with upper
      · exact shown.cells (r + 1) c upper wide
      · rfl
  · simp only [Page.newline]
    omega

/-- Storing a character at the cursor. -/
theorem store (shown : Shown w h b e grid x y p) (c : α)
    (stored : ∀ r k, r < h → k < w →
      grid' r k = if (r : Int) = y ∧ (k : Int) = x then e c else grid r k) :
    Shown w h b e grid' x y (p.store c) := by
  refine ⟨shown.fresh.store c, fun r k inside wide => ?_, shown.col_eq, shown.row_eq⟩
  have row := shown.row_eq
  have col := shown.col_eq
  rw [stored r k inside wide, Page.window_store p c inside]
  by_cases here : r = min p.row (h - 1) ∧ k = p.col
  · rw [if_pos here, if_pos (by omega)]
  · rw [if_neg here, if_neg (by omega)]
    exact shown.cells r k inside wide

/-- Moving within the row. -/
theorem column (shown : Shown w h b e grid x y p) {col : Nat} (inside : col < w) :
    Shown w h b e grid col y { p with col := col } :=
  ⟨⟨inside, shown.fresh.below⟩, shown.cells, rfl, shown.row_eq⟩

end Shown

end Linux391
