import Linux391.Drivers.TermInput
import Linux391.Drivers.TermPage

/-!
The echo of typed characters.

A key goes two ways: `input_process_key` edits `in_buf`, and `terminal_handle_key`
draws. On a screen that is blank from the cursor on, the two stay in step. `ShowsLine`
says that the screen shows a line from some cell on and blanks behind it, and each of
the three things an unmodified key can do keeps it: print a character, which may scroll
the screen, erase the last one, or nothing (`Echoes.inputProcessKey`).
-/

namespace Linux391

open Loop

namespace Terms

/-! ### Cell by cell -/

/-- On its own screen a character changes its cell only, in the grid or not. -/
theorem cell_terminalPutc_own (s : Terms) (t : Fin 4) (c : UInt8) (x y i : Int) :
    (s.terminalPutc t c x y).cell t i = if i = y * 80 + x then cellOf c else s.cell t i := by
  by_cases active : t = s.activeTerm
  · simp [terminalPutc, cell, touch, active, Function.update_apply]
  · simp [terminalPutc, cell, touch, active, Function.update_apply]

/-- Shifting part of a row left by one column and blanking the cell `last`. -/
theorem cell_shiftCells (s : Terms) (t : Fin 4) {x bound : Int} (y last : Int)
    (ordered : x ≤ bound) (i : Int) :
    (s.shiftCells t x y bound last).cell t i =
      if i = y * 80 + last then cellOf 32
      else if y * 80 + x ≤ i ∧ i < y * 80 + bound then cellOf (s.cell t (i + 1)).toUInt8
      else s.cell t i := by
  have shifted : ∀ i, True →
      (forRange x bound (fun i s => s.copyCell t (i + 1) y i y) s).cell t i =
        if y * 80 + x ≤ i ∧ i < y * 80 + bound then cellOf (s.cell t (i + 1)).toUInt8
        else s.cell t i := by
    apply forRange_fill (fun s i => s.cell t i) (fun i => cellOf (s.cell t (i + 1)).toUInt8)
      (y * 80) _ s ordered
    intro j s' lower upper before i _
    -- the cell to the right has not been overwritten yet
    have source := before (y * 80 + (j + 1)) trivial
    rw [if_neg (by omega)] at source
    have copied : (s'.copyCell t (j + 1) y j y).cell t i =
        if i = y * 80 + j then cellOf (s'.terminalGetc t (j + 1) y) else s'.cell t i :=
      cell_terminalPutc_own _ t _ j y i
    rw [copied, terminalGetc, source]
    by_cases here : i = y * 80 + j
    · rw [if_pos here, if_pos here, here, show y * 80 + (j + 1) = y * 80 + j + 1 by omega]
    · rw [if_neg here, if_neg here]
  rw [shiftCells, cell_terminalPutc_own, shifted i trivial]

/-- A printed character, and the scroll when it was printed in the last cell. -/
theorem cell_printAtCursor (s : Terms) (t : Fin 4) (c : UInt8) (on : (s.term t).OnScreen)
    {i : Int} (lo : 0 ≤ i) (hi : i < 2000) :
    (s.printAtCursor t c).cell t i =
      if (s.term t).curX = 79 ∧ (s.term t).curY = 24 then
        if i < 1920 then
          cellOf (if i + 80 = 1999 then cellOf c else s.cell t (i + 80)).toUInt8
        else cellOf 32
      else if i = (s.term t).curY * 80 + (s.term t).curX then cellOf c else s.cell t i := by
  have put := moves_putAtCursor s t c on
  obtain ⟨left, right, top, bottom⟩ := on
  have stored : ∀ j, 0 ≤ j → j < 2000 →
      (s.terminalPutc t c (s.term t).curX (s.term t).curY).cell t j =
        if j = (s.term t).curY * 80 + (s.term t).curX then cellOf c else s.cell t j := by
    intro j lo hi
    rw [cell_terminalPutc (by omega) lo hi]
    exact if_congr (by simp) rfl rfl
  simp only [printAtCursor, put.curX_eq]
  by_cases wraps : (s.term t).curX = 79
  · rw [if_pos wraps, cell_nextLine _ t lo hi, put.curY_eq]
    by_cases last : (s.term t).curY = 24
    · rw [if_pos last, if_pos (And.intro wraps last)]
      by_cases upper : i < 1920
      · rw [if_pos upper, if_pos upper, stored _ (by omega) (by omega), wraps, last]
        rfl
      · rw [if_neg upper, if_neg upper]
    · rw [if_neg last, if_neg fun both => last both.2]
      exact stored i lo hi
  · rw [if_neg wraps, if_neg fun both => wraps both.1]
    exact stored i lo hi

/-- Backspace in the first column: it blanks the last cell of the row above. -/
theorem cell_handleBackspace_first (s : Terms) (t : Fin 4) (on : (s.term t).OnScreen)
    (first : (s.term t).curX = 0) (lower : (s.term t).curY ≠ 0) {i : Int} (lo : 0 ≤ i)
    (hi : i < 2000) :
    (s.handleBackspace t).cell t i =
      if i = (s.term t).curY * 80 - 1 then cellOf 32 else s.cell t i := by
  obtain ⟨left, right, top, bottom⟩ := on
  have moved : Moves t s (s.modify t fun d => { d with curY := d.curY - 1, curX := 79 }) 79
      ((s.term t).curY - 1) :=
    moves_modify s t (fun d => { d with curY := d.curY - 1, curX := 79 }) fun _ => rfl
  simp only [handleBackspace]
  rw [if_pos ⟨first, lower⟩, moved.curX_eq, moved.curY_eq, cell_terminalPutc (by omega) lo hi]
  refine if_congr ?_ rfl rfl
  constructor
  · intro same
    omega
  · intro same
    exact ⟨rfl, by omega⟩

/-- Backspace further right: the row moves left onto the cell before the cursor. -/
theorem cell_handleBackspace_inside (s : Terms) (t : Fin 4) (on : (s.term t).OnScreen)
    (inside : (s.term t).curX ≠ 0) (i : Int) :
    (s.handleBackspace t).cell t i =
      if i = (s.term t).curY * 80 + 79 then cellOf 32
      else if (s.term t).curY * 80 + ((s.term t).curX - 1) ≤ i ∧ i < (s.term t).curY * 80 + 79 then
        cellOf (s.cell t (i + 1)).toUInt8
      else s.cell t i := by
  obtain ⟨left, right, top, bottom⟩ := on
  have moved := moves_modify s t (fun d => { d with curX := d.curX - 1 }) fun _ => rfl
  have shifted := cell_shiftCells (s.modify t fun d => { d with curX := d.curX - 1 }) t
    (s.term t).curY 79 (show (s.term t).curX - 1 ≤ 79 by omega) i
  simp only [handleBackspace]
  rw [if_neg fun h => inside h.1, moved.curX_eq, moved.curY_eq,
    show max ((s.term t).curX - 1) 79 = 79 by omega]
  exact shifted

/-! ### A line on the screen -/

/-- A cell after `n` scrolls. The first one copies its character and resets the
attribute; the later ones change nothing. -/
def scrolledCell (n : Nat) (cell : UInt16) : UInt16 :=
  if n = 0 then cell else cellOf cell.toUInt8

theorem scrolledCell_succ (n : Nat) (cell : UInt16) :
    cellOf (scrolledCell n cell).toUInt8 = scrolledCell (n + 1) cell := by
  unfold scrolledCell
  rw [if_neg (Nat.succ_ne_zero n)]
  by_cases none : n = 0
  · rw [if_pos none]
  · rw [if_neg none, cellOf_toUInt8]

/-- After `n` scrolls since `start`, the screen of `t` shows `text` from the cell that
was `p` on, blanks behind it, and before it what was there. The cursor is at its end. -/
structure ShowsLine (start : Terms) (t : Fin 4) (p : Int) (n : Nat) (text : List UInt8)
    (s : Terms) : Prop where
  room : 0 ≤ p - 80 * n
  onScreen : (s.term t).OnScreen
  cursor : (s.term t).curY * 80 + (s.term t).curX = p - 80 * n + text.length
  before : ∀ j, 0 ≤ j → j < p - 80 * n → s.cell t j = scrolledCell n (start.cell t (j + 80 * n))
  shown : ∀ i (lt : i < text.length), s.cell t (p - 80 * n + i) = cellOf text[i]
  blank : ∀ j, p - 80 * n + text.length ≤ j → j < 2000 → (s.cell t j).toUInt8 = 32

namespace ShowsLine

variable {start s s' : Terms} {t : Fin 4} {p : Int} {n : Nat} {text : List UInt8}

theorem edits (shows : ShowsLine start t p n text s) (edits : Edits s s') :
    ShowsLine start t p n text s' where
  room := shows.room
  onScreen := by
    obtain ⟨left, right, top, bottom⟩ := shows.onScreen
    rw [← edits.curX_eq] at left right
    rw [← edits.curY_eq] at top bottom
    exact ⟨left, right, top, bottom⟩
  cursor := by rw [edits.curX_eq, edits.curY_eq, shows.cursor]
  before j lo hi := by rw [edits.cells, shows.before j lo hi]
  shown i lt := by rw [edits.cells, shows.shown i lt]
  blank j lo hi := by rw [edits.cells, shows.blank j lo hi]

/-- Away from the last cell of the screen a printed character only adds to the line. -/
theorem print (shows : ShowsLine start t p n text s) (c : UInt8)
    (stays : ¬ ((s.term t).curX = 79 ∧ (s.term t).curY = 24)) :
    ShowsLine start t p n (text ++ [c]) (s.printAtCursor t c) := by
  have cells {i : Int} (lo : 0 ≤ i) (hi : i < 2000) :=
    (cell_printAtCursor s t c shows.onScreen lo hi).trans (if_neg stays)
  have moved := moves_printAtCursor s t c shows.onScreen
  have room := shows.room
  have cursor := shows.cursor
  obtain ⟨left, right, top, bottom⟩ := shows.onScreen
  rw [cursor] at cells
  constructor
  case room => exact room
  case onScreen =>
    constructor
    all_goals
      simp only [moved.curX_eq, moved.curY_eq]
      split_ifs <;> omega
  case cursor =>
    rw [moved.curX_eq, moved.curY_eq, List.length_append, List.length_singleton]
    split_ifs <;> omega
  case before =>
    intro j lo hi
    rw [cells lo (by omega), if_neg (by omega), shows.before j lo hi]
  case shown =>
    intro i lt
    have short : i < text.length + 1 := by simpa using lt
    rw [cells (by omega) (by omega)]
    by_cases last : i = text.length
    · subst last
      simp
    · rw [if_neg (by omega), shows.shown i (by omega), List.getElem_append_left]
  case blank =>
    intro j lo hi
    have behind : p - 80 * n + text.length + 1 ≤ j := by
      simp only [List.length_append, List.length_singleton, Nat.cast_add, Nat.cast_one] at lo
      omega
    rw [cells (by omega) hi, if_neg (by omega)]
    exact shows.blank j (by omega) hi

/-- In the last cell it scrolls the screen under the line as well. -/
theorem printLast (shows : ShowsLine start t p n text s) (c : UInt8)
    (short : text.length < 128)
    (last : (s.term t).curX = 79 ∧ (s.term t).curY = 24) :
    ShowsLine start t p (n + 1) (text ++ [c]) (s.printAtCursor t c) := by
  have cells {i : Int} (lo : 0 ≤ i) (hi : i < 2000) :=
    (cell_printAtCursor s t c shows.onScreen lo hi).trans (if_pos last)
  have moved := moves_printAtCursor s t c shows.onScreen
  have room := shows.room
  have cursor := shows.cursor
  rw [last.1, last.2] at cursor
  have up : p - 80 * (n + 1 : Nat) = p - 80 * n - 80 := by omega
  constructor
  case room => omega
  case onScreen =>
    constructor
    all_goals
      simp only [moved.curX_eq, moved.curY_eq, last.1, last.2]
      decide
  case cursor =>
    rw [moved.curX_eq, moved.curY_eq, if_pos last.1, if_pos last.1, last.2, List.length_append,
      List.length_singleton]
    omega
  case before =>
    intro j lo hi
    rw [cells lo (by omega), if_pos (by omega), if_neg (by omega),
      shows.before (j + 80) (by omega) (by omega), scrolledCell_succ,
      show j + 80 + 80 * (n : Int) = j + 80 * (n + 1 : Nat) by omega]
  case shown =>
    intro i lt
    have within : i < text.length + 1 := by simpa using lt
    rw [cells (by omega) (by omega), if_pos (by omega)]
    by_cases put : i = text.length
    · subst put
      rw [if_pos (by omega), cellOf_toUInt8]
      simp
    · rw [if_neg (by omega), show p - 80 * (n + 1 : Nat) + i + 80 = p - 80 * n + i by omega,
        shows.shown i (by omega), cellOf_toUInt8, List.getElem_append_left]
  case blank =>
    intro j lo hi
    have behind : p - 80 * n + text.length + 1 ≤ j + 80 := by
      simp only [List.length_append, List.length_singleton] at lo
      omega
    rw [cells (by omega) hi, if_neg (by omega)]
    exact cellOf_toUInt8 32

/-- What backspace does to the cells around the end of a line: those before the erased one
stay, and from it on there are only blanks. -/
theorem backspace_cells (shows : ShowsLine start t p n text s) (nonempty : text ≠ []) {i : Int}
    (lo : 0 ≤ i) (hi : i < 2000) :
    (i < p - 80 * n + text.length - 1 → (s.handleBackspace t).cell t i = s.cell t i) ∧
    (p - 80 * n + text.length - 1 ≤ i → ((s.handleBackspace t).cell t i).toUInt8 = 32) := by
  have cursor := shows.cursor
  have room := shows.room
  have some := List.length_pos_iff.mpr nonempty
  obtain ⟨left, right, top, bottom⟩ := shows.onScreen
  by_cases first : (s.term t).curX = 0
  · rw [cell_handleBackspace_first s t shows.onScreen first (by omega) lo hi]
    constructor
    · intro before
      exact if_neg (by omega)
    · intro behind
      by_cases erased : i = (s.term t).curY * 80 - 1
      · rw [if_pos erased, cellOf_toUInt8]
      · rw [if_neg erased]
        exact shows.blank i (by omega) hi
  · rw [cell_handleBackspace_inside s t shows.onScreen first i]
    constructor
    · intro before
      rw [if_neg (by omega), if_neg (by omega)]
    · intro behind
      split_ifs with edge moved
      · exact cellOf_toUInt8 32
      · -- the cell that moves here lies behind the cursor
        rw [cellOf_toUInt8]
        exact shows.blank (i + 1) (by omega) (by omega)
      · exact shows.blank i (by omega) hi

/-- Backspace takes the last character of the line off the screen, across the row
boundary if need be. -/
theorem backspace (shows : ShowsLine start t p n text s) (nonempty : text ≠ []) :
    ShowsLine start t p n text.dropLast (s.handleBackspace t) := by
  have cursor := shows.cursor
  have room := shows.room
  have some := List.length_pos_iff.mpr nonempty
  have shorter : (text.dropLast.length : Int) = text.length - 1 := by
    rw [List.length_dropLast]
    omega
  obtain ⟨left, right, top, bottom⟩ := shows.onScreen
  have moved := moves_handleBackspace s t shows.onScreen fun corner => by omega
  constructor
  case room => exact room
  case onScreen =>
    constructor
    all_goals
      simp only [moved.curX_eq, moved.curY_eq]
      split_ifs <;> omega
  case cursor =>
    rw [moved.curX_eq, moved.curY_eq, shorter]
    split_ifs <;> omega
  case before =>
    intro j lo hi
    rw [(shows.backspace_cells nonempty lo (by omega)).1 (by omega), shows.before j lo hi]
  case shown =>
    intro i lt
    have kept : i < text.length - 1 := by simpa using lt
    rw [(shows.backspace_cells nonempty (by omega) (by omega)).1 (by omega),
      shows.shown i (by omega), List.getElem_dropLast]
  case blank =>
    intro j lo hi
    exact (shows.backspace_cells nonempty (by omega) hi).2 (by omega)

end ShowsLine

/-! ### Typing -/

/-- The screen of the active terminal shows its input line, since `start`. -/
structure Echoes (start : Terms) (t : Fin 4) (p : Int) (n : Nat) (s : Terms) : Prop where
  active : s.activeTerm = t
  settled : (s.input t).Settled
  line : ShowsLine start t p n (s.term t).pending s

/-- A key event of typing: a printable character or backspace. The keyboard looks up
characters only for scancodes below 0x81, so none comes with the 0xFF that marks output. -/
def TypesChar (event : UInt8 × UInt8) : Prop :=
  (event.1 = keyBackspaceCode ∨ 32 ≤ event.1 ∧ event.1 ≤ 126) ∧ event.2 ≠ 0xFF

/-- The `(key, scancode)` events one after the other, with neither control nor alt held. -/
def typeKeys (s : Terms) (events : List (UInt8 × UInt8)) : Terms :=
  events.foldl (fun s event => s.inputProcessKey event.1 event.2 0 0) s

/-- Whether a typed key makes `terminal_handle_key` call `terminal_scroll_up`: a character
that is stored, and so echoed, in the last cell of the screen. -/
def scrollsAt (s : Terms) (key : UInt8) : Nat :=
  let d := s.term s.activeTerm
  if d.isActive ≠ 0 ∧ key ≠ keyBackspaceCode ∧ d.inDatEnd < 128 ∧ d.curX = 79 ∧ d.curY = 24
  then 1 else 0

/-- The number of scrolls while the events are processed. -/
def scrolls (s : Terms) : List (UInt8 × UInt8) → Nat
  | [] => 0
  | event :: rest => s.scrollsAt event.1 + (s.inputProcessKey event.1 event.2 0 0).scrolls rest

/-- A key that is neither erased nor stored is echoed as key 0, which draws nothing. -/
theorem edits_refused (s : Terms) (t : Fin 4) {scancode : UInt8} (typed : scancode ≠ 0xFF) :
    Edits s (s.terminalHandleKey t 0 scancode 0 0) := by
  have draws : s.terminalHandleKey t 0 scancode 0 0 = s.terminalRefresh t := by
    simp [terminalHandleKey, handleDefault, keyBackspaceCode, keyDeleteCode, keyEnterCode,
      keyTabCode, typed]
  rw [draws]
  exact edits_terminalRefresh s t

theorem terminalHandleKey_backspace (s : Terms) (t : Fin 4) (scancode : UInt8) :
    s.terminalHandleKey t keyBackspaceCode scancode 0 0 =
      (s.handleBackspace t).terminalRefresh t := by
  rw [terminalHandleKey, if_pos rfl]

/-- A printable character is none of the special keys. -/
theorem printable_ne {key code : UInt8} (low : 32 ≤ key) (high : key ≤ 126)
    (special : code.toNat < 32 ∨ 126 < code.toNat) : key ≠ code := by
  have lower : 32 ≤ key.toNat := low
  have upper : key.toNat ≤ 126 := high
  rintro rfl
  omega

section Printable

variable {key : UInt8} (low : 32 ≤ key) (high : key ≤ 126)
include low high

theorem terminalHandleKey_printable (s : Terms) (t : Fin 4) (scancode : UInt8) :
    s.terminalHandleKey t key scancode 0 0 = (s.printAtCursor t key).terminalRefresh t := by
  have other {code : UInt8} (special : code.toNat < 32 ∨ 126 < code.toNat) : key ≠ code :=
    printable_ne low high special
  have visible : key ≠ 0 := other (.inl (by decide))
  rw [terminalHandleKey, if_neg (other (.inl (by decide))), if_neg (other (.inr (by decide))),
    if_neg (other (.inl (by decide))), if_neg (other (.inl (by decide))), handleDefault,
    if_neg (by decide), if_neg (by decide), if_pos visible]

theorem isModified_printable (s : Terms) (t : Fin 4) :
    s.isModified t key = decide ((s.term t).inDatEnd < 128) := by
  have visible : key ≠ 0 := printable_ne low high (.inl (by decide))
  rw [isModified, if_neg (printable_ne low high (.inl (by decide))),
    if_neg (printable_ne low high (.inr (by decide)))]
  simp [visible]

theorem typed_printable (queue : List UInt8) :
    typed queue key 0 = if queue.length < 128 then queue ++ [key] else queue := by
  have visible : key ≠ 0 := printable_ne low high (.inl (by decide))
  rw [typed, if_neg (printable_ne low high (.inl (by decide))),
    if_neg (printable_ne low high (.inr (by decide)))]
  simp [visible]

end Printable

namespace Echoes

variable {start s : Terms} {t : Fin 4} {p : Int} {n : Nat}

theorem length_pending_eq (echoes : Echoes start t p n s) :
    ((s.term t).pending.length : Int) = (s.term t).inDatEnd := by
  have nonneg : 0 ≤ (s.term t).inDatEnd := echoes.settled.nonneg
  rw [TermData.length_pending]
  omega

/-- Backspace on the active terminal. With an empty buffer it is refused. -/
theorem line_backspace (echoes : Echoes start t p n s) {scancode : UInt8}
    (typing : scancode ≠ 0xFF) :
    ShowsLine start t p n (s.term t).pending.dropLast
      (s.acceptKey t keyBackspaceCode scancode 0 0) := by
  have length := echoes.length_pending_eq
  have index : (s.term t).inDatIndex = (s.term t).inDatEnd := echoes.settled.index_eq
  have edited := echoes.line.edits (edits_editInput s t keyBackspaceCode)
  have modified : s.isModified t keyBackspaceCode = decide ((s.term t).inDatIndex ≠ 0) := by
    rw [isModified, if_pos rfl]
  rw [acceptKey, modified]
  by_cases empty : (s.term t).pending = []
  · have none : (s.term t).inDatIndex = 0 := by
      rw [index, ← length, empty]
      rfl
    rw [empty] at edited ⊢
    rw [if_neg (by simp [none])]
    exact edited.edits (edits_refused _ t typing)
  · have some := List.length_pos_iff.mpr empty
    rw [if_pos (by simp only [decide_eq_true_eq]; omega), terminalHandleKey_backspace]
    exact (edited.backspace empty).edits (edits_terminalRefresh _ t)

/-- A printable character on the active terminal. With a full buffer it is refused. -/
theorem line_printable (echoes : Echoes start t p n s) {key scancode : UInt8}
    (low : 32 ≤ key) (high : key ≤ 126) (typing : scancode ≠ 0xFF) :
    ShowsLine start t p
      (n + if (s.term t).inDatEnd < 128 ∧ (s.term t).curX = 79 ∧ (s.term t).curY = 24 then 1 else 0)
      (typed (s.term t).pending key 0) (s.acceptKey t key scancode 0 0) := by
  have length := echoes.length_pending_eq
  have edits := edits_editInput s t key
  have edited := echoes.line.edits edits
  rw [acceptKey, isModified_printable low high, typed_printable low high]
  by_cases room : (s.term t).inDatEnd < 128
  · rw [if_pos (show (s.term t).pending.length < 128 by omega), if_pos (decide_eq_true room),
      terminalHandleKey_printable low high]
    refine ShowsLine.edits ?_ (edits_terminalRefresh _ t)
    by_cases corner : (s.term t).curX = 79 ∧ (s.term t).curY = 24
    · rw [if_pos ⟨room, corner⟩]
      rw [← edits.curX_eq, ← edits.curY_eq] at corner
      exact edited.printLast key (by omega) corner
    · rw [if_neg fun both => corner both.2, Nat.add_zero]
      rw [← edits.curX_eq, ← edits.curY_eq] at corner
      exact edited.print key corner
  · rw [if_neg fun both => room both.1, if_neg (by omega), if_neg (by simpa using room),
      Nat.add_zero]
    exact edited.edits (edits_refused _ t typing)

/-- One typed key keeps screen and buffer in step. -/
theorem inputProcessKey (echoes : Echoes start t p n s) {event : UInt8 × UInt8}
    (typing : TypesChar event) :
    Echoes start t p (n + s.scrollsAt event.1) (s.inputProcessKey event.1 event.2 0 0) := by
  obtain ⟨key, scancode⟩ := event
  obtain ⟨typing, scanned⟩ := typing
  simp only at typing scanned ⊢
  simp only [Terms.inputProcessKey, scrollsAt, echoes.active]
  by_cases off : (s.term t).isActive = 0
  · rw [if_pos off, if_neg fun h => h.1 off]
    exact echoes
  · rw [if_neg off]
    obtain ⟨d, sets, keyed⟩ := setsInput_acceptKey s t key scancode 0 0 echoes.settled
    have own := sets.own
    constructor
    case active => exact sets.active_eq.trans echoes.active
    case settled => exact own ▸ keyed.settled
    case line =>
      rw [← input_pending, own, keyed.pending_eq, input_pending]
      rcases typing with rfl | ⟨low, high⟩
      · rw [if_neg fun h => h.2.1 rfl, typed, if_pos rfl]
        exact echoes.line_backspace scanned
      · have back : key ≠ keyBackspaceCode := by
          rintro rfl
          exact absurd low (by decide)
        simp only [ne_eq, off, back, not_false_eq_true, true_and]
        exact echoes.line_printable low high scanned

/-- A whole run of typed keys. -/
theorem typeKeys {events : List (UInt8 × UInt8)} (echoes : Echoes start t p n s)
    (typing : ∀ event ∈ events, TypesChar event) :
    Echoes start t p (n + s.scrolls events) (s.typeKeys events) := by
  induction events generalizing s n with
  | nil => exact echoes
  | cons event rest ih =>
      have stepped := echoes.inputProcessKey (typing event List.mem_cons_self)
      have run := ih stepped fun e mem => typing e (List.mem_cons_of_mem _ mem)
      rw [Nat.add_assoc] at run
      exact run

end Echoes

/-- An empty buffer and a screen that is blank from the cursor on are in step. -/
theorem echoes_start {s : Terms} {t : Fin 4} (active : s.activeTerm = t)
    (empty : (s.term t).inDatIndex = 0 ∧ (s.term t).inDatEnd = 0) (on : (s.term t).OnScreen)
    (blank : ∀ j, (s.term t).curY * 80 + (s.term t).curX ≤ j → j < 2000 →
      (s.cell t j).toUInt8 = 32) :
    Echoes s t ((s.term t).curY * 80 + (s.term t).curX) 0 s := by
  have nothing : (s.term t).pending = [] := by
    rw [TermData.pending, empty.2]
    rfl
  constructor
  case active => exact active
  case settled =>
    have indexed : (s.input t).inDatIndex = 0 := empty.1
    have ended : (s.input t).inDatEnd = 0 := empty.2
    exact ⟨indexed.trans ended.symm, by omega, by omega⟩
  case line =>
    rw [nothing]
    constructor
    case room =>
      have corner := on.left
      have top := on.top
      omega
    case onScreen => exact on
    case cursor => simp
    case before =>
      intro j lo hi
      simp [scrolledCell]
    case shown =>
      intro i lt
      cases lt
    case blank =>
      intro j lo hi
      exact blank j (by simpa using lo) hi

/-- **Echo matches the input buffer.** From an empty buffer and a screen that is blank from the
cursor on, whatever is typed, the screen shows `in_buf[0..in_dat_end)` from that cell on,
moved up by the scrolls, blanks behind it and what was there before it, with the cursor at
the end of the line. -/
theorem echo_matches_input (s : Terms) (empty : (s.term s.activeTerm).inDatIndex = 0 ∧
      (s.term s.activeTerm).inDatEnd = 0)
    (on : (s.term s.activeTerm).OnScreen)
    (blank : ∀ j, (s.term s.activeTerm).curY * 80 + (s.term s.activeTerm).curX ≤ j → j < 2000 →
      (s.cell s.activeTerm j).toUInt8 = 32)
    (events : List (UInt8 × UInt8)) (typing : ∀ event ∈ events, TypesChar event) :
    let t := s.activeTerm
    let s' := s.typeKeys events
    let d := s'.term t
    let p := (s.term t).curY * 80 + (s.term t).curX - 80 * s.scrolls events
    s'.activeTerm = t ∧ 0 ≤ p ∧ d.OnScreen ∧ d.curY * 80 + d.curX = p + d.inDatEnd ∧
    (∀ i, 0 ≤ i → i < d.inDatEnd → s'.cell t (p + i) = cellOf (d.inBuf i)) ∧
    (∀ j, p + d.inDatEnd ≤ j → j < 2000 → (s'.cell t j).toUInt8 = 32) ∧
    (∀ j, 0 ≤ j → j < p →
      s'.cell t j = scrolledCell (s.scrolls events) (s.cell t (j + 80 * s.scrolls events))) := by
  intro t s' d p
  have echoes := (echoes_start rfl empty on blank).typeKeys typing
  rw [Nat.zero_add] at echoes
  have length : (d.pending.length : Int) = d.inDatEnd := echoes.length_pending_eq
  have line := echoes.line
  refine ⟨echoes.active, line.room, line.onScreen, ?_, ?_, ?_, line.before⟩
  · rw [← length]
    exact line.cursor
  · intro i lo hi
    have within : i.toNat < d.pending.length := by omega
    have shown := line.shown i.toNat within
    rw [Int.toNat_of_nonneg lo] at shown
    refine shown.trans (congrArg cellOf ?_)
    simp [TermData.pending, Int.toNat_of_nonneg lo]
    rfl
  · rw [← length]
    exact line.blank

/-- A blank screen with the cursor at the end of row 3. -/
def sampleRowEnd : Terms :=
  { blank with
    term := fun _ => ⟨79, 3, fun _ => 0, 0, 0, 0, 1, 0⟩
    videoMem := fun _ => cellOf 32 }

/-- A letter, backspace across the row boundary, and two letters. -/
def sampleEvents : List (UInt8 × UInt8) :=
  [(97, 0x1E), (keyBackspaceCode, 0x0E), (98, 0x30), (99, 0x2E)]

theorem echo_matches_input_wrapped :
    let s' := sampleRowEnd.typeKeys sampleEvents
    s'.cell 0 319 = cellOf 98 ∧ s'.cell 0 320 = cellOf 99 ∧ (s'.cell 0 321).toUInt8 = 32 := by
  have still : sampleRowEnd.scrolls sampleEvents = 0 := by decide +kernel
  have ended : ((sampleRowEnd.typeKeys sampleEvents).term sampleRowEnd.activeTerm).inDatEnd = 2 := by
    decide +kernel
  have stored : ((sampleRowEnd.typeKeys sampleEvents).term sampleRowEnd.activeTerm).inBuf 0 = 98 ∧
      ((sampleRowEnd.typeKeys sampleEvents).term sampleRowEnd.activeTerm).inBuf 1 = 99 := by
    decide +kernel
  obtain ⟨-, -, -, -, shown, behind, -⟩ := echo_matches_input sampleRowEnd ⟨rfl, rfl⟩
    ⟨by decide, by decide, by decide, by decide⟩ (fun j _ _ => cellOf_toUInt8 32) sampleEvents
    (by simp [sampleEvents, TypesChar, keyBackspaceCode])
  rw [still, ended] at shown behind
  have first := shown 0 (by decide) (by decide)
  have second := shown 1 (by decide) (by decide)
  rw [stored.1] at first
  rw [stored.2] at second
  exact ⟨first, second, behind 321 (by decide) (by decide)⟩

end Terms

end Linux391
