import Linux391.Drivers.TermOutput
import Linux391.Drivers.TermSwitch

/-!
What each output routine does to the screen it draws on.

Painting is described cell by cell (`cell_scrollCells`, `cell_blankCells`). A
routine that moves the cursor gets the position it moves it to, together with the
fact that no access leaves the 80 by 25 grid (`Moves`). Two cases have no such
rule, because there the source does leave the grid: backspace in the upper left
corner and delete in the lower right one.
-/

namespace Linux391

open Loop

/-- The cursor is on the screen. -/
structure TermData.OnScreen (d : TermData) : Prop where
  left : 0 ≤ d.curX
  right : d.curX < 80
  top : 0 ≤ d.curY
  bottom : d.curY < 25

theorem TermData.onScreen_iff (d : TermData) :
    d.OnScreen ↔ 0 ≤ d.curX ∧ d.curX < 80 ∧ 0 ≤ d.curY ∧ d.curY < 25 :=
  ⟨fun h => ⟨h.left, h.right, h.top, h.bottom⟩, fun ⟨a, b, c, d⟩ => ⟨a, b, c, d⟩⟩

instance (d : TermData) : Decidable d.OnScreen := decidable_of_iff _ d.onScreen_iff.symm

namespace Terms

/-! ### Painting inside the grid -/

theorem touch_inside {s : Terms} {x y : Int} (inside : 0 ≤ y * 80 + x ∧ y * 80 + x < 2000) :
    (s.touch x y).offGrid = s.offGrid := by
  simp [touch, inside]

theorem touch_outside {s : Terms} {x y : Int} (outside : ¬ (0 ≤ y * 80 + x ∧ y * 80 + x < 2000)) :
    (s.touch x y).offGrid = true := by
  simp [touch, outside]

theorem terminalPutc_grid {s : Terms} {t : Fin 4} {c : UInt8} {x y : Int}
    (inside : 0 ≤ y * 80 + x ∧ y * 80 + x < 2000) :
    (s.terminalPutc t c x y).offGrid = s.offGrid :=
  (terminalPutc_offGrid s t c x y).trans (touch_inside inside)

theorem copyCell_grid {s : Terms} {t : Fin 4} {fromX fromY x y : Int}
    (source : 0 ≤ fromY * 80 + fromX ∧ fromY * 80 + fromX < 2000)
    (inside : 0 ≤ y * 80 + x ∧ y * 80 + x < 2000) :
    (s.copyCell t fromX fromY x y).offGrid = s.offGrid :=
  (terminalPutc_grid inside).trans (touch_inside source)

theorem cell_copyCell {s : Terms} {t : Fin 4} {fromX fromY x y i : Int}
    (inside : 0 ≤ y * 80 + x ∧ y * 80 + x < 2000) (lo : 0 ≤ i) (hi : i < 2000) :
    (s.copyCell t fromX fromY x y).cell t i =
      if i = y * 80 + x then cellOf (s.terminalGetc t fromX fromY) else s.cell t i := by
  refine (cell_terminalPutc inside lo hi).trans ?_
  simp only [true_and]
  rfl

/-- The cells below `k` have been replaced by those one row further down. -/
structure Scrolled (t : Fin 4) (k : Int) (s s' : Terms) : Prop where
  offGrid_eq : s'.offGrid = s.offGrid
  cells : ∀ i, 0 ≤ i → i < 2000 →
    s'.cell t i = if i < k then cellOf (s.cell t (i + 80)).toUInt8 else s.cell t i

theorem Scrolled.copyCell {t : Fin 4} {s s' : Terms} {x y : Int}
    (h : Scrolled t (80 * y + x) s s') (top : 0 ≤ y) (bottom : y < 24) (left : 0 ≤ x)
    (right : x < 80) : Scrolled t (80 * y + (x + 1)) s (s'.copyCell t x (y + 1) x y) where
  offGrid_eq := (copyCell_grid (by omega) (by omega)).trans h.offGrid_eq
  cells i lo hi := by
    -- the row below has not been overwritten yet
    have source : s'.terminalGetc t x (y + 1) = (s.cell t (80 * y + x + 80)).toUInt8 := by
      unfold terminalGetc
      rw [h.cells _ (by omega) (by omega), if_neg (by omega),
        show (y + 1) * 80 + x = 80 * y + x + 80 by omega]
    rw [cell_copyCell (by omega) lo hi, source, h.cells i lo hi]
    by_cases here : i = y * 80 + x
    · rw [if_pos here, if_pos (by omega), show i + 80 = 80 * y + x + 80 by omega]
    · rw [if_neg here]
      by_cases before : i < 80 * y + x
      · rw [if_pos before, if_pos (by omega)]
      · rw [if_neg before, if_neg (by omega)]

/-- Blanks put in the last row. -/
theorem cell_blankRow (s : Terms) (t : Fin 4) : ∀ i, 0 ≤ i ∧ i < 2000 →
    (forRange 0 80 (fun x s => s.terminalPutc t 32 x 24) s).cell t i =
      if 1920 + 0 ≤ i ∧ i < 1920 + 80 then cellOf 32 else s.cell t i := by
  apply forRange_fill (fun s i => s.cell t i) (fun _ => cellOf 32) 1920 _ s
  · decide
  · intro x s' left right _ i inside
    refine (cell_terminalPutc (by omega) inside.1 inside.2).trans (if_congr ?_ rfl rfl)
    omega

/-- The loops of `terminal_scroll_up` move every row up by one and blank the last. -/
theorem scrollCells_spec (s : Terms) (t : Fin 4) :
    (s.scrollCells t).offGrid = s.offGrid ∧ ∀ i, 0 ≤ i → i < 2000 →
      (s.scrollCells t).cell t i =
        if i < 1920 then cellOf (s.cell t (i + 80)).toUInt8 else cellOf 32 := by
  have copied : Scrolled t (80 * 24) s (forRange 0 24
      (fun y s => forRange 0 80 (fun x s => s.copyCell t x (y + 1) x y) s) s) := by
    refine forRange_induction (fun y s' => Scrolled t (80 * y) s s') s (by omega) ?_ ?_
    · refine ⟨rfl, fun i lo _ => ?_⟩
      rw [if_neg (by omega)]
    · intro y s' top bottom rows
      rw [show 80 * (y + 1) = 80 * y + 80 by omega]
      refine forRange_induction (fun x s'' => Scrolled t (80 * y + x) s s'') s' (by omega) ?_ ?_
      · rwa [Int.add_zero]
      · intro x s'' left right h
        exact h.copyCell top bottom left right
  unfold scrollCells
  generalize forRange 0 24 (fun y s => forRange 0 80 (fun x s => s.copyCell t x (y + 1) x y) s) s
    = s₁ at copied ⊢
  constructor
  · refine forRange_invariant (P := fun s' => s'.offGrid = s.offGrid) s₁ copied.offGrid_eq ?_
    intro x s' left right grid
    exact (terminalPutc_grid (by omega)).trans grid
  · intro i lo hi
    rw [cell_blankRow s₁ t i ⟨lo, hi⟩, copied.cells i lo hi]
    by_cases upper : i < 1920
    · rw [if_neg (by omega), if_pos (by omega), if_pos upper]
    · rw [if_pos (by omega), if_neg upper]

/-- The first loop of `terminal_clear` blanks every cell. -/
theorem blankCells_spec (s : Terms) (t : Fin 4) :
    (s.blankCells t).offGrid = s.offGrid ∧
      ∀ i, 0 ≤ i → i < 2000 → (s.blankCells t).cell t i = cellOf 32 := by
  constructor
  · refine forRange_invariant (P := fun s' => s'.offGrid = s.offGrid) s rfl ?_
    intro k s' lo hi grid
    exact (terminalPutc_grid (by omega)).trans grid
  · have filled : ∀ i, 0 ≤ i ∧ i < 2000 → (s.blankCells t).cell t i =
        if 0 + 0 ≤ i ∧ i < 0 + 2000 then cellOf 32 else s.cell t i := by
      apply forRange_fill (fun s i => s.cell t i) (fun _ => cellOf 32) 0 _ s
      · decide
      · intro k s' lo hi _ i inside
        refine (cell_terminalPutc (by omega) inside.1 inside.2).trans (if_congr ?_ rfl rfl)
        omega
    intro i lo hi
    rw [filled i ⟨lo, hi⟩, if_pos (by omega)]

/-- Shifting the rest of a row stays in the grid if its ends do. -/
theorem shiftCells_grid (s : Terms) (t : Fin 4) {x y bound last : Int} (top : 0 ≤ y)
    (bottom : y < 25) (left : 0 ≤ x) (right : bound < 80) (lastLeft : 0 ≤ last)
    (lastRight : y * 80 + last < 2000) :
    (s.shiftCells t x y bound last).offGrid = s.offGrid := by
  have shifted : (forRange x bound (fun i s => s.copyCell t (i + 1) y i y) s).offGrid =
      s.offGrid := by
    refine forRange_invariant (P := fun s' => s'.offGrid = s.offGrid) s rfl ?_
    intro i s' lo hi h
    exact (copyCell_grid (by omega) (by omega)).trans h
  exact (terminalPutc_grid (by omega)).trans shifted

/-! ### Moving the cursor -/

/-- Drawing on `t` inside the grid, with the cursor left at column `x` of row `y`. -/
structure Moves (t : Fin 4) (s s' : Terms) (x y : Int) : Prop extends Draws t s s' where
  curX_eq : (s'.term t).curX = x
  curY_eq : (s'.term t).curY = y
  offGrid_eq : s'.offGrid = s.offGrid

namespace Moves

variable {t : Fin 4} {s s' s'' : Terms} {x y x' y' : Int}

theorem trans (h : Moves t s s' x y) (k : Moves t s' s'' x' y') : Moves t s s'' x' y' where
  toDraws := h.toDraws.trans k.toDraws
  curX_eq := k.curX_eq
  curY_eq := k.curY_eq
  offGrid_eq := k.offGrid_eq.trans h.offGrid_eq

/-- Painting in the grid leaves the cursor where it was. -/
theorem paints (h : Moves t s s' x y) (k : Paints s' s'') (grid : s''.offGrid = s'.offGrid) :
    Moves t s s'' x y where
  toDraws := h.toDraws.trans (k.draws t)
  curX_eq := by
    rw [k.term_eq]
    exact h.curX_eq
  curY_eq := by
    rw [k.term_eq]
    exact h.curY_eq
  offGrid_eq := grid.trans h.offGrid_eq

end Moves

theorem Moves.refl (t : Fin 4) (s : Terms) : Moves t s s (s.term t).curX (s.term t).curY :=
  ⟨.refl t s, rfl, rfl, rfl⟩

/-- Setting the cursor. -/
theorem moves_modify (s : Terms) (t : Fin 4) (f : TermData → TermData)
    (cursor : ∀ d,
      { f d with curX := 0, curY := 0 } = ({ d with curX := 0, curY := 0 } : TermData)) :
    Moves t s (s.modify t f) (f (s.term t)).curX (f (s.term t)).curY :=
  ⟨draws_modify s t f cursor, by simp [modify], by simp [modify], rfl⟩

theorem terminalRefresh_offGrid (s : Terms) (t : Fin 4) :
    (s.terminalRefresh t).offGrid = s.offGrid := by
  simp only [terminalRefresh]
  split <;> rfl

theorem moves_terminalScrollUp (s : Terms) (t : Fin 4) :
    Moves t s (s.terminalScrollUp t) (s.term t).curX ((s.term t).curY - 1) := by
  have scrolled := (Moves.refl t s).paints (paints_scrollCells s t) (scrollCells_spec s t).1
  have up := scrolled.trans (moves_modify _ t (fun d => { d with curY := d.curY - 1 }) fun _ => rfl)
  rw [(paints_scrollCells s t).term_eq] at up
  exact up

theorem moves_nextLine (s : Terms) (t : Fin 4) (bottom : (s.term t).curY < 25) :
    Moves t s (s.nextLine t) 0 (min ((s.term t).curY + 1) 24) := by
  simp only [nextLine]
  split_ifs with last
  · have scrolled := moves_terminalScrollUp s t
    have down := scrolled.trans (moves_modify _ t
      (fun d => { d with curY := d.curY + 1, curX := 0 }) fun _ => rfl)
    simp only [scrolled.curY_eq] at down
    rwa [show min ((s.term t).curY + 1) 24 = (s.term t).curY - 1 + 1 by omega]
  · have down := moves_modify s t (fun d => { d with curY := d.curY + 1, curX := 0 }) fun _ => rfl
    rwa [show min ((s.term t).curY + 1) 24 = (s.term t).curY + 1 by omega]

/-- A character put at the cursor; `s₁` is the state before the cursor moves on. -/
theorem moves_putAtCursor (s : Terms) (t : Fin 4) (c : UInt8) (on : (s.term t).OnScreen) :
    Moves t s (s.terminalPutc t c (s.term t).curX (s.term t).curY) (s.term t).curX
      (s.term t).curY := by
  obtain ⟨left, right, top, bottom⟩ := on
  exact (Moves.refl t s).paints (paints_terminalPutc s t c _ _) (terminalPutc_grid (by omega))

theorem moves_printAtCursor (s : Terms) (t : Fin 4) (c : UInt8) (on : (s.term t).OnScreen) :
    Moves t s (s.printAtCursor t c)
      (if (s.term t).curX = 79 then 0 else (s.term t).curX + 1)
      (if (s.term t).curX = 79 then min ((s.term t).curY + 1) 24 else (s.term t).curY) := by
  have put := moves_putAtCursor s t c on
  have term := (paints_terminalPutc s t c (s.term t).curX (s.term t).curY).term_eq
  simp only [printAtCursor, put.curX_eq]
  split_ifs with last
  · have wrapped := put.trans (moves_nextLine _ t (put.curY_eq.trans_lt on.bottom))
    rwa [term] at wrapped
  · have advanced := put.trans
      (moves_modify _ t (fun d => { d with curX := d.curX + 1 }) fun _ => rfl)
    rwa [term] at advanced

/-- The column a tab moves to. -/
def tabStop (x : Int) : Int := (x.tdiv 8 + 1) * 8

theorem tabStop_eq {x : Int} (nonneg : 0 ≤ x) : tabStop x = (x / 8 + 1) * 8 := by
  rw [tabStop, Int.tdiv_eq_ediv_of_nonneg nonneg]

theorem moves_handleTab (s : Terms) (t : Fin 4) (on : (s.term t).OnScreen) :
    Moves t s (s.handleTab t)
      (if 79 ≤ tabStop (s.term t).curX then 0 else tabStop (s.term t).curX)
      (if 79 ≤ tabStop (s.term t).curX then min ((s.term t).curY + 1) 24
        else (s.term t).curY) := by
  have moved := moves_modify s t (fun d => { d with curX := (d.curX.tdiv 8 + 1) * 8 }) fun _ => rfl
  have column := moved.curX_eq
  have stop : ((s.term t).curX.tdiv 8 + 1) * 8 = tabStop (s.term t).curX := rfl
  simp only [handleTab, column, stop]
  split_ifs with last
  · have wrapped := moved.trans (moves_nextLine _ t (moved.curY_eq.trans_lt on.bottom))
    rwa [moved.curY_eq] at wrapped
  · exact moved

theorem moves_handleBackspace (s : Terms) (t : Fin 4) (on : (s.term t).OnScreen)
    (away : ¬ ((s.term t).curX = 0 ∧ (s.term t).curY = 0)) :
    Moves t s (s.handleBackspace t)
      (if (s.term t).curX = 0 then 79 else (s.term t).curX - 1)
      (if (s.term t).curX = 0 then (s.term t).curY - 1 else (s.term t).curY) := by
  obtain ⟨left, right, top, bottom⟩ := on
  simp only [handleBackspace]
  by_cases first : (s.term t).curX = 0
  · have lower : (s.term t).curY ≠ 0 := fun upper => away ⟨first, upper⟩
    rw [if_pos ⟨first, lower⟩, if_pos first, if_pos first]
    have moved := moves_modify s t (fun d => { d with curY := d.curY - 1, curX := 79 }) fun _ => rfl
    refine moved.paints (paints_terminalPutc _ t 32 _ _) (terminalPutc_grid ?_)
    rw [moved.curX_eq, moved.curY_eq]
    show 0 ≤ ((s.term t).curY - 1) * 80 + 79 ∧ ((s.term t).curY - 1) * 80 + 79 < 2000
    omega
  · rw [if_neg fun h => first h.1, if_neg first, if_neg first]
    have moved := moves_modify s t (fun d => { d with curX := d.curX - 1 }) fun _ => rfl
    simp only [moved.curX_eq, moved.curY_eq]
    exact moved.paints (paints_shiftCells _ t _ _ 79 _)
      (shiftCells_grid _ t top bottom (by omega) (by omega) (by omega) (by omega))

/-- In the upper left corner backspace moves the cursor off the screen. -/
theorem handleBackspace_corner (s : Terms) (t : Fin 4) (left : (s.term t).curX = 0)
    (top : (s.term t).curY = 0) : ((s.handleBackspace t).term t).curX = -1 := by
  simp only [handleBackspace]
  rw [if_neg fun h => h.2 top]
  have moved := moves_modify s t (fun d => { d with curX := d.curX - 1 }) fun _ => rfl
  simp only [moved.curX_eq, moved.curY_eq]
  have painted := paints_shiftCells (s.modify t fun d => { d with curX := d.curX - 1 }) t
    ((s.term t).curX - 1) (s.term t).curY 79 (max ((s.term t).curX - 1) 79)
  refine (congrArg (fun terms => (terms t).curX) painted.term_eq).trans (moved.curX_eq.trans ?_)
  exact congrArg (· - 1) left

theorem moves_handleDelete (s : Terms) (t : Fin 4) (on : (s.term t).OnScreen)
    (away : ¬ ((s.term t).curX = 79 ∧ (s.term t).curY = 24)) :
    Moves t s (s.handleDelete t) (s.term t).curX (s.term t).curY := by
  obtain ⟨left, right, top, bottom⟩ := on
  exact (Moves.refl t s).paints (paints_shiftCells s t _ _ 24 _)
    (shiftCells_grid s t top bottom left (by omega) (by omega) (by omega))

/-- In the lower right corner delete blanks a cell beyond the screen. -/
theorem handleDelete_corner (s : Terms) (t : Fin 4) (right : (s.term t).curX = 79)
    (bottom : (s.term t).curY = 24) : (s.handleDelete t).offGrid = true := by
  simp only [handleDelete, right, bottom]
  rw [terminalPutc_offGrid]
  exact touch_outside (by decide)

/-! ### Editing input -/

/-- Editing the input of terminals: no cursor moves and no cell changes. -/
structure Edits (s s' : Terms) : Prop where
  curX_eq : ∀ u, (s'.term u).curX = (s.term u).curX
  curY_eq : ∀ u, (s'.term u).curY = (s.term u).curY
  cells : ∀ u i, s'.cell u i = s.cell u i
  offGrid_eq : s'.offGrid = s.offGrid

theorem Edits.refl (s : Terms) : Edits s s := ⟨fun _ => rfl, fun _ => rfl, fun _ _ => rfl, rfl⟩

theorem Edits.trans {s s' s'' : Terms} (h : Edits s s') (k : Edits s' s'') : Edits s s'' where
  curX_eq u := (k.curX_eq u).trans (h.curX_eq u)
  curY_eq u := (k.curY_eq u).trans (h.curY_eq u)
  cells u i := (k.cells u i).trans (h.cells u i)
  offGrid_eq := k.offGrid_eq.trans h.offGrid_eq

theorem Edits.onScreen {s s' : Terms} (h : Edits s s') {u : Fin 4} :
    (s'.term u).OnScreen ↔ (s.term u).OnScreen := by
  rw [TermData.onScreen_iff, TermData.onScreen_iff, h.curX_eq, h.curY_eq]

/-- A change of input data afterwards. -/
theorem Edits.modify {s s' : Terms} (h : Edits s s') (t : Fin 4) (f : TermData → TermData)
    (cursor : ∀ d, ((f d).curX, (f d).curY) = (d.curX, d.curY)) : Edits s (s'.modify t f) where
  curX_eq u :=
    (update_field (·.curX) (congrArg Prod.fst (cursor (s'.term t))) u).trans (h.curX_eq u)
  curY_eq u :=
    (update_field (·.curY) (congrArg Prod.snd (cursor (s'.term t))) u).trans (h.curY_eq u)
  cells := h.cells
  offGrid_eq := h.offGrid_eq

theorem Edits.bufPut {s s' : Terms} (h : Edits s s') (t : Fin 4) (i : Int) (c : UInt8) :
    Edits s (s'.bufPut t i c) := by
  have touched : Edits s (s'.touchBuf i) := ⟨h.curX_eq, h.curY_eq, h.cells, h.offGrid_eq⟩
  exact touched.modify t _ fun _ => rfl

theorem Edits.bufCopy {s s' : Terms} (h : Edits s s') (dst src : Fin 4) (i j : Int) :
    Edits s (s'.bufCopy dst i src j) := by
  have touched : Edits s (s'.touchBuf j) := ⟨h.curX_eq, h.curY_eq, h.cells, h.offGrid_eq⟩
  exact touched.bufPut dst i _

/-- A loop that moves characters within a buffer. -/
theorem Edits.shift {s s' : Terms} (h : Edits s s') (t : Fin 4) (lo hi step : Int) :
    Edits s (Loop.forRange lo hi (fun i s => s.bufCopy t i t (i + step)) s') :=
  forRange_invariant s' h fun i _ _ _ k => k.bufCopy t t i (i + step)

theorem edits_flushInput (s : Terms) (t : Fin 4) : Edits s (s.flushInput t) := by
  have zeroed : Edits s (Loop.forRange 0 128 (fun i s => s.bufPut t i 0) s) :=
    forRange_invariant s (.refl s) fun i _ _ _ k => k.bufPut t i 0
  exact zeroed.modify t
    (fun d => { d with inDatIndex := 0, inDatEnd := 0, inDatNrRet := 0 }) fun _ => rfl

theorem edits_eraseInput (s : Terms) (t : Fin 4) : Edits s (s.eraseInput t) := by
  have back := (Edits.refl s).modify t (fun d => { d with inDatIndex := d.inDatIndex - 1 })
    fun _ => rfl
  exact (back.shift t _ _ 1).modify t (fun d => { d with inDatEnd := d.inDatEnd - 1 }) fun _ => rfl

theorem edits_deleteInput (s : Terms) (t : Fin 4) : Edits s (s.deleteInput t) :=
  ((Edits.refl s).shift t _ _ 1).modify t (fun d => { d with inDatEnd := d.inDatEnd - 1 })
    fun _ => rfl

theorem edits_insertInput (s : Terms) (t : Fin 4) (key : UInt8) :
    Edits s (s.insertInput t key) := by
  have grown := (Edits.refl s).modify t
    (fun d => { d with inDatEnd := d.inDatEnd + 1, inDatIndex := d.inDatIndex + 1 }) fun _ => rfl
  simp only [insertInput]
  split_ifs
  · exact ((grown.shift t _ _ (-1)).bufPut t _ key).modify t _ fun _ => rfl
  · exact (grown.shift t _ _ (-1)).bufPut t _ key

theorem edits_editInput (s : Terms) (t : Fin 4) (key : UInt8) : Edits s (s.editInput t key) := by
  simp only [editInput]
  split_ifs
  · exact .refl s
  · exact edits_eraseInput s t
  · exact edits_deleteInput s t
  · exact .refl s
  · exact edits_insertInput s t key
  · exact .refl s

theorem edits_terminalRead {s s' : Terms} {t : Fin 4} {len : Int} {chars : List UInt8}
    (read : s.terminalRead t len = some (chars, s')) : Edits s s' := by
  simp only [terminalRead] at read
  split at read
  · cases read
  · obtain ⟨rfl, rfl⟩ := read
    have recorded (flag : Bool) : Edits s { s with offBuf := flag } :=
      ⟨fun _ => rfl, fun _ => rfl, fun _ _ => rfl, rfl⟩
    refine Edits.modify ?_ t _ fun _ => rfl
    exact forRange_invariant _ (recorded _) fun j s' _ _ k => k.bufCopy s'.activeTerm t j _

/-! ### Clearing -/

/-- The effect of `terminal_clear` on the screen of `t`: it is blank, and the cursor is in
the upper left corner. -/
structure Clears (t : Fin 4) (s s' : Terms) : Prop where
  curX_eq : (s'.term t).curX = 0
  curY_eq : (s'.term t).curY = 0
  others : ∀ u, u ≠ t → (s'.term u).curX = (s.term u).curX ∧ (s'.term u).curY = (s.term u).curY
  cells : ∀ i, 0 ≤ i → i < 2000 → s'.cell t i = cellOf 32
  offGrid_eq : s'.offGrid = s.offGrid

/-- Editing input afterwards makes no difference. -/
theorem Clears.edits {t : Fin 4} {s s' s'' : Terms} (h : Clears t s s') (k : Edits s' s'') :
    Clears t s s'' where
  curX_eq := (k.curX_eq t).trans h.curX_eq
  curY_eq := (k.curY_eq t).trans h.curY_eq
  others u ne := ⟨(k.curX_eq u).trans (h.others u ne).1, (k.curY_eq u).trans (h.others u ne).2⟩
  cells i lo hi := (k.cells t i).trans (h.cells i lo hi)
  offGrid_eq := k.offGrid_eq.trans h.offGrid_eq

theorem edits_terminalRefresh (s : Terms) (t : Fin 4) : Edits s (s.terminalRefresh t) where
  curX_eq u := by rw [(paints_terminalRefresh s t).term_eq]
  curY_eq u := by rw [(paints_terminalRefresh s t).term_eq]
  cells u i := terminalRefresh_cell s u t i
  offGrid_eq := terminalRefresh_offGrid s t

/-- Moving the cursor of a blank screen to the corner. -/
theorem clears_home {t : Fin 4} {s s' : Terms}
    (cells : ∀ i, 0 ≤ i → i < 2000 → s'.cell t i = cellOf 32) (grid : s'.offGrid = s.offGrid)
    (others : ∀ u, u ≠ t → (s'.term u).curX = (s.term u).curX ∧
      (s'.term u).curY = (s.term u).curY) :
    Clears t s (s'.modify t fun d => { d with curX := 0, curY := 0 }) where
  curX_eq := by simp [modify]
  curY_eq := by simp [modify]
  others u ne := by
    have same : (s'.modify t fun d => { d with curX := 0, curY := 0 }).term u = s'.term u :=
      Function.update_of_ne ne _ _
    rw [same]
    exact others u ne
  cells := cells
  offGrid_eq := grid

theorem clears_terminalClear (s : Terms) (t : Fin 4) : Clears t s (s.terminalClear t) := by
  obtain ⟨grid, cells⟩ := blankCells_spec s t
  have term := (paints_blankCells s t).term_eq
  have flushed := edits_flushInput (s.blankCells t) t
  have homed : Clears t s
      (((s.blankCells t).flushInput t).modify t fun d => { d with curX := 0, curY := 0 }) := by
    refine clears_home (fun i lo hi => ?_) (flushed.offGrid_eq.trans grid) fun u _ => ?_
    · exact (flushed.cells t i).trans (cells i lo hi)
    · rw [flushed.curX_eq, flushed.curY_eq, term]
      exact ⟨rfl, rfl⟩
  exact homed.edits (edits_terminalRefresh _ t)

/-- Opening a terminal clears it, or does nothing. -/
theorem clears_terminalOpen (s : Terms) (t : Fin 4) (unused : (s.term t).usrCount = 0) :
    Clears t s (s.terminalOpen t) := by
  have eq : s.terminalOpen t = ((s.terminalClear t).flushInput t).modify t
      fun d => { d with isActive := 1 } := if_neg fun used => used unused
  rw [eq]
  exact (clears_terminalClear s t).edits ((edits_flushInput (s.terminalClear t) t).modify t _
    fun _ => rfl)

end Terms

end Linux391
