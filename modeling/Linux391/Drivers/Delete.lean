import Linux391.Drivers.Echo

/-!
The delete key on the screen.

The case is written like that of backspace, but its loop runs to `TERM_HEIGHT-1` instead of
`TERM_WIDTH-1`, and the blank is put one column further. So of a row only columns up to 23
are shifted, and the cell blanked is that in column 25, or the one right of the cursor.
`delete_removes_cell_iff` says on which screens this looks like a cell removed.
-/

namespace Linux391

open Loop

namespace Terms

/-- A cell is taken out of row `y` at column `x`: the characters right of it move left, the
last one becomes blank, and everything else stays. -/
structure RemovesCell (t : Fin 4) (x y : Int) (s s' : Terms) : Prop where
  shifted : ∀ i, x ≤ i → i < 79 → s'.terminalGetc t i y = s.terminalGetc t (i + 1) y
  blanked : s'.terminalGetc t 79 y = 32
  before : ∀ i, 0 ≤ i → i < x → s'.cell t (y * 80 + i) = s.cell t (y * 80 + i)
  rows : ∀ i j, 0 ≤ i → i < 80 → 0 ≤ j → j < 25 → j ≠ y →
    s'.cell t (j * 80 + i) = s.cell t (j * 80 + i)
  curX : (s'.term t).curX = x
  curY : (s'.term t).curY = y

/-- The screens on which delete happens to do that: from column 24 or the cursor on, if that
is further right, a character twice and then blanks. In the last column the character is
blank itself, and so is the first cell of the next row. -/
def DeleteExact (s : Terms) (t : Fin 4) : Prop :=
  let x := (s.term t).curX
  let y := (s.term t).curY
  if x = 79 then
    s.terminalGetc t 79 y = 32 ∧ (y < 24 → s.cell t ((y + 1) * 80) = cellOf 32)
  else
    s.terminalGetc t (max x 24) y = s.terminalGetc t (max x 24 + 1) y ∧
      ∀ i, max x 24 + 2 ≤ i → i < 80 → s.terminalGetc t i y = 32

variable (s : Terms) (t : Fin 4)

/-- What delete does, cell by cell. -/
theorem cell_handleDelete (i : Int) :
    (s.handleDelete t).cell t i =
      if i = (s.term t).curY * 80 + (max (s.term t).curX 24 + 1) then cellOf 32
      else if (s.term t).curY * 80 + (s.term t).curX ≤ i ∧ i < (s.term t).curY * 80 + 24 then
        cellOf (s.cell t (i + 1)).toUInt8
      else s.cell t i := by
  rcases Int.le_total (s.term t).curX 24 with inside | beyond
  · exact cell_shiftCells s t _ _ inside i
  · -- the loop does not run
    simp only [handleDelete]
    rw [forRange_empty beyond, cell_terminalPutc_own]
    split_ifs with blank none
    · rfl
    · omega
    · rfl

/-- The characters of the row. -/
theorem terminalGetc_handleDelete (i : Int) :
    (s.handleDelete t).terminalGetc t i (s.term t).curY =
      if i = max (s.term t).curX 24 + 1 then 32
      else if (s.term t).curX ≤ i ∧ i < 24 then s.terminalGetc t (i + 1) (s.term t).curY
      else s.terminalGetc t i (s.term t).curY := by
  unfold terminalGetc
  rw [cell_handleDelete]
  by_cases blank : i = max (s.term t).curX 24 + 1
  · rw [if_pos (by omega), if_pos blank, cellOf_toUInt8]
  · rw [if_neg (by omega), if_neg blank]
    by_cases shifted : (s.term t).curX ≤ i ∧ i < 24
    · rw [if_pos (by omega), if_pos shifted, cellOf_toUInt8, Int.add_assoc]
    · rw [if_neg (by omega), if_neg shifted]

theorem term_handleDelete : (s.handleDelete t).term = s.term :=
  (paints_shiftCells s t _ _ 24 _).term_eq

variable {s t}

/-- In the last column nothing is shifted, and the first cell of the next row is blanked. -/
theorem removesCell_last (on : (s.term t).OnScreen) (last : (s.term t).curX = 79) :
    RemovesCell t (s.term t).curX (s.term t).curY s (s.handleDelete t) ↔
      s.terminalGetc t 79 (s.term t).curY = 32 ∧
        ((s.term t).curY < 24 → s.cell t (((s.term t).curY + 1) * 80) = cellOf 32) := by
  have chars := terminalGetc_handleDelete s t
  have cells := cell_handleDelete s t
  have term := term_handleDelete s t
  obtain ⟨-, -, top, bottom⟩ := on
  rw [last] at chars cells ⊢
  have own : (s.handleDelete t).terminalGetc t 79 (s.term t).curY =
      s.terminalGetc t 79 (s.term t).curY := by
    rw [chars, if_neg (by omega), if_neg (by omega)]
  have others : ∀ i, i ≠ (s.term t).curY * 80 + 80 → (s.handleDelete t).cell t i = s.cell t i := by
    intro i ne
    rw [cells, if_neg (by omega), if_neg (by omega)]
  constructor
  · intro removes
    refine ⟨own.symm.trans removes.blanked, fun above => ?_⟩
    have kept := removes.rows 0 ((s.term t).curY + 1) (by omega) (by omega) (by omega) (by omega)
      (by omega)
    rw [Int.add_zero, cells, if_pos (by omega)] at kept
    exact kept.symm
  · rintro ⟨blank, next⟩
    constructor
    case shifted =>
      intro i lower upper
      omega
    case blanked => exact own.trans blank
    case before =>
      intro i lower upper
      exact others _ (by omega)
    case rows =>
      intro i j left right above below other
      by_cases hit : j * 80 + i = (s.term t).curY * 80 + 80
      · have first : j * 80 + i = ((s.term t).curY + 1) * 80 := by omega
        rw [cells, if_pos (by omega), first]
        exact (next (by omega)).symm
      · exact others _ hit
    case curX => rw [term, last]
    case curY => rw [term]

/-- Further left the row ends as it should exactly if it already did from column 24 or the
cursor on. -/
theorem removesCell_inside (on : (s.term t).OnScreen) (inside : (s.term t).curX ≠ 79) :
    RemovesCell t (s.term t).curX (s.term t).curY s (s.handleDelete t) ↔
      s.terminalGetc t (max (s.term t).curX 24) (s.term t).curY =
          s.terminalGetc t (max (s.term t).curX 24 + 1) (s.term t).curY ∧
        ∀ i, max (s.term t).curX 24 + 2 ≤ i → i < 80 →
          s.terminalGetc t i (s.term t).curY = 32 := by
  have chars := terminalGetc_handleDelete s t
  have cells := cell_handleDelete s t
  have term := term_handleDelete s t
  obtain ⟨left, right, top, bottom⟩ := on
  generalize edge : max (s.term t).curX 24 = a at *
  constructor
  · intro removes
    have first := removes.shifted a (by omega) (by omega)
    rw [chars, if_neg (by omega), if_neg (by omega)] at first
    refine ⟨first, fun i lower => ?_⟩
    -- from the blank on, each character is the one to its left
    induction i, lower using Int.leInduction with
    | base =>
        intro upper
        have moved := removes.shifted (a + 1) (by omega) (by omega)
        rw [chars, if_pos rfl] at moved
        rw [moved, Int.add_assoc]
        rfl
    | succ i lower ih =>
        intro upper
        have moved := removes.shifted i (by omega) (by omega)
        rw [chars, if_neg (by omega), if_neg (by omega)] at moved
        rw [← moved]
        exact ih (by omega)
  · rintro ⟨twice, blanks⟩
    constructor
    case shifted =>
      intro i lower upper
      rw [chars]
      split_ifs with blank moved
      · exact (blanks (i + 1) (by omega) (by omega)).symm
      · rfl
      · rcases eq_or_ne i a with rfl | ne
        · exact twice
        · rw [blanks i (by omega) (by omega), blanks (i + 1) (by omega) (by omega)]
    case blanked =>
      rw [chars]
      split_ifs with blank moved
      · rfl
      · omega
      · exact blanks 79 (by omega) (by omega)
    case before =>
      intro i lower upper
      rw [cells, if_neg (by omega), if_neg (by omega)]
    case rows =>
      intro i j left' right' above below other
      rw [cells, if_neg (by omega), if_neg (by omega)]
    case curX => rw [term]
    case curY => rw [term]

/-- Setting the hardware cursor changes nothing of this. -/
theorem removesCell_refresh_iff {x y : Int} {s' : Terms} :
    RemovesCell t x y s (s'.terminalRefresh t) ↔ RemovesCell t x y s s' := by
  have edits := edits_terminalRefresh s' t
  have chars : ∀ i j, (s'.terminalRefresh t).terminalGetc t i j = s'.terminalGetc t i j := by
    intro i j
    unfold terminalGetc
    rw [edits.cells]
  constructor
  · rintro ⟨shifted, blanked, before, rows, curX, curY⟩
    simp only [chars, edits.cells] at shifted blanked before rows
    rw [edits.curX_eq] at curX
    rw [edits.curY_eq] at curY
    exact ⟨shifted, blanked, before, rows, curX, curY⟩
  · rintro ⟨shifted, blanked, before, rows, curX, curY⟩
    constructor
    all_goals
      simp only [chars, edits.cells, edits.curX_eq, edits.curY_eq]
      assumption

/-- **The delete key.** For every content of the screen of a terminal, active or not, and every
position of its cursor on it, delete removes the cell under the cursor exactly on the screens
of `DeleteExact`. -/
theorem delete_removes_cell_iff (on : (s.term t).OnScreen) (scancode control alt : UInt8) :
    RemovesCell t (s.term t).curX (s.term t).curY s
        (s.terminalHandleKey t keyDeleteCode scancode control alt) ↔
      s.DeleteExact t := by
  have key : s.terminalHandleKey t keyDeleteCode scancode control alt =
      (s.handleDelete t).terminalRefresh t := rfl
  rw [key, removesCell_refresh_iff, DeleteExact]
  split_ifs with last
  · exact removesCell_last on last
  · exact removesCell_inside on last

/-- The letters `abc` at the start of the fourth row, with the cursor on the second of them. -/
def sampleWord : Terms :=
  { blank with
    term := fun _ => ⟨1, 3, fun _ => 0, 0, 0, 0, 1, 0⟩
    videoMem := fun i =>
      if i = 240 then cellOf 97 else if i = 241 then cellOf 98 else if i = 242 then cellOf 99
      else cellOf 32 }

/-- The `b` is removed, and the `c` takes its place. -/
theorem delete_removes_cell_word :
    let s' := sampleWord.terminalHandleKey 0 keyDeleteCode 0x53 0 0
    RemovesCell 0 1 3 sampleWord s' ∧ s'.terminalGetc 0 1 3 = 99 := by
  intro s'
  have on : (sampleWord.term 0).OnScreen := ⟨by decide, by decide, by decide, by decide⟩
  have blank (i : Int) (behind : 24 ≤ i) : sampleWord.terminalGetc 0 i 3 = 32 := by
    have cell : sampleWord.terminalGetc 0 i 3 = (if 3 * 80 + i = 240 then cellOf 97
        else if 3 * 80 + i = 241 then cellOf 98 else if 3 * 80 + i = 242 then cellOf 99
        else cellOf 32).toUInt8 := rfl
    rw [cell, if_neg (by omega), if_neg (by omega), if_neg (by omega)]
    decide
  have exactly : sampleWord.DeleteExact 0 := by
    have inside : (sampleWord.term 0).curX ≠ 79 := by decide
    rw [DeleteExact, if_neg inside]
    refine ⟨(blank _ (by decide)).trans (blank _ (by decide)).symm, fun i lower _ => ?_⟩
    have start : max (sampleWord.term 0).curX 24 + 2 = 26 := rfl
    rw [start] at lower
    exact blank i (by omega)
  have removes := (delete_removes_cell_iff on 0x53 0 0).mpr exactly
  exact ⟨removes, (removes.shifted 1 (by decide) (by decide)).trans (by decide +kernel)⟩

/-- A row with one letter, in column 30, and the cursor at its start. -/
def sampleLetter : Terms :=
  { blank with
    term := fun _ => ⟨0, 0, fun _ => 0, 0, 0, 0, 1, 0⟩
    videoMem := fun i => if i = 30 then cellOf 97 else cellOf 32 }

/-- The letter should move to column 29 and stays where it is. -/
theorem delete_leaves_letter :
    (sampleLetter.term 0).OnScreen ∧
      ¬ RemovesCell 0 0 0 sampleLetter
        (sampleLetter.terminalHandleKey 0 keyDeleteCode 0x53 0 0) := by
  refine ⟨⟨by decide, by decide, by decide, by decide⟩, fun removes => ?_⟩
  have moved := removes.shifted 29 (by decide) (by decide)
  revert moved
  decide +kernel

end Terms

end Linux391
