import Linux391.Library.Page
import Linux391.Drivers.TermScreen

/-!
The screen of a terminal is a window on the text written to it.

`tallLayout` lays a text out on an unbounded page. Every byte other than backspace
and delete is handled by one of three routines (print, tab, next line), and each
keeps `ShowsPage`: the cells are those of the last 25 rows of the page, and the
cursor is where the page's position is.
-/

namespace Linux391

/-- A cell holds its character in its low byte. -/
theorem cellOf_toUInt8 (c : UInt8) : (cellOf c).toUInt8 = c := by
  have low : uint32 (schar c) % 2 ^ 8 = c.toNat := by
    have := c.toNat_lt
    unfold uint32 schar
    split_ifs <;> omega
  apply UInt8.toNat_inj.mp
  have cut : (cellOf c).toUInt8.toNat = (0x700 ||| uint32 (schar c)) % 2 ^ 8 := by
    simp only [cellOf, UInt16.toNat_toUInt8, UInt16.toNat_ofNat']
    omega
  rw [cut, Nat.or_mod_two_pow, low]
  exact Nat.zero_or _

/-- One byte on the page. -/
def tallStep (p : Page UInt8) (c : UInt8) : Page UInt8 :=
  if c = keyEnterCode then p.newline
  else if c = keyTabCode then p.tab 80 8
  else if c = 0 then p.put 80 32
  else p.put 80 c

/-- The tall layout of a text. -/
def tallLayout (text : List UInt8) : Page UInt8 := text.foldl tallStep (.blank 32)

namespace Terms

/-- The cell in a row and column of the screen of `t`. -/
def screen (s : Terms) (t : Fin 4) (row col : Nat) : UInt16 := s.cell t (row * 80 + col)

/-- Terminal `t` shows the last 25 rows of the page. -/
abbrev ShowsPage (s : Terms) (t : Fin 4) (p : Page UInt8) : Prop :=
  Shown 80 25 32 cellOf (s.screen t) (s.term t).curX (s.term t).curY p

theorem showsPage_terminalClear (s : Terms) (t : Fin 4) :
    ShowsPage (s.terminalClear t) t (.blank 32) := by
  have clears := clears_terminalClear s t
  unfold ShowsPage
  rw [clears.curX_eq, clears.curY_eq]
  exact .blank (by decide) fun r c inside wide => clears.cells _ (by omega) (by omega)

/-! ### The three routines -/

/-- `nextLine` scrolls on the bottom line and changes no cell elsewhere. -/
theorem cell_nextLine (s : Terms) (t : Fin 4) {i : Int} (lo : 0 ≤ i) (hi : i < 2000) :
    (s.nextLine t).cell t i =
      if (s.term t).curY = 24 then
        if i < 1920 then cellOf (s.cell t (i + 80)).toUInt8 else cellOf 32
      else s.cell t i := by
  simp only [nextLine]
  split_ifs with last upper
  · exact ((scrollCells_spec s t).2 i lo hi).trans (if_pos upper)
  · exact ((scrollCells_spec s t).2 i lo hi).trans (if_neg upper)
  · rfl

namespace ShowsPage

variable {s s' : Terms} {t : Fin 4} {p : Page UInt8}

theorem onScreen (shows : ShowsPage s t p) : (s.term t).OnScreen := by
  have col := shows.col_eq
  have row := shows.row_eq
  have inside := shows.fresh.col_lt
  exact ⟨by omega, by omega, by omega, by omega⟩

theorem edits (shows : ShowsPage s t p) (edits : Edits s s') : ShowsPage s' t p := by
  unfold ShowsPage
  rw [edits.curX_eq, edits.curY_eq]
  refine ⟨shows.fresh, fun r c inside wide => ?_, shows.col_eq, shows.row_eq⟩
  exact (edits.cells t _).trans (shows.cells r c inside wide)

/-- Going to the next line; a tab has moved the column before. -/
theorem nextLine (shows : ShowsPage s t p) (cells : ∀ i, s'.cell t i = s.cell t i)
    (row : (s'.term t).curY = (s.term t).curY) : ShowsPage (s'.nextLine t) t p.newline := by
  have bottom := shows.onScreen.bottom
  have moved := moves_nextLine s' t (by omega)
  unfold ShowsPage
  rw [moved.curX_eq, moved.curY_eq, row]
  refine Shown.newline shows (by decide) (fun room r c inside wide => ?_)
    fun last r c inside wide => ?_
  · unfold screen
    rw [cell_nextLine s' t (by omega) (by omega), if_neg (by omega), cells]
  · unfold screen
    rw [cell_nextLine s' t (by omega) (by omega), if_pos (by omega)]
    split_ifs with upper lower lower
    · -- the row below holds encoded characters, so copying them changes nothing
      have below := shows.cells (r + 1) c lower wide
      unfold screen at below
      rw [cells, show (r : Int) * 80 + c + 80 = (r + 1 : Nat) * 80 + c by omega, below,
        cellOf_toUInt8]
    · omega
    · omega
    · rfl

/-- Moving the cursor within its row. -/
theorem column (shows : ShowsPage s t p) {col : Nat} (inside : col < 80)
    {f : TermData → TermData} (x : (f (s.term t)).curX = col)
    (y : (f (s.term t)).curY = (s.term t).curY) :
    ShowsPage (s.modify t f) t { p with col := col } := by
  have own : (s.modify t f).term t = f (s.term t) := Function.update_self _ _ _
  unfold ShowsPage
  rw [own, x, y]
  exact Shown.column shows inside

theorem printAtCursor (shows : ShowsPage s t p) (c : UInt8) :
    ShowsPage (s.printAtCursor t c) t (p.put 80 c) := by
  have put := moves_putAtCursor s t c shows.onScreen
  obtain ⟨left, right, top, bottom⟩ := shows.onScreen
  have col := shows.col_eq
  have stored : ShowsPage (s.terminalPutc t c (s.term t).curX (s.term t).curY) t (p.store c) := by
    unfold ShowsPage
    rw [put.curX_eq, put.curY_eq]
    refine Shown.store shows c fun r k inside wide => ?_
    unfold screen
    rw [cell_terminalPutc (by omega) (by omega) (by omega)]
    by_cases here : (r : Int) = (s.term t).curY ∧ (k : Int) = (s.term t).curX
    · rw [if_pos here, if_pos ⟨rfl, by omega⟩]
    · rw [if_neg here, if_neg fun h => here (by omega)]
  simp only [Terms.printAtCursor, put.curX_eq]
  by_cases last : (s.term t).curX = 79
  · rw [if_pos last, Page.put_last (by omega)]
    exact stored.nextLine (fun _ => rfl) rfl
  · rw [if_neg last, Page.put_within (by omega)]
    refine stored.column (by omega) ?_ rfl
    rw [put.curX_eq, col]
    rfl

theorem handleTab (shows : ShowsPage s t p) : ShowsPage (s.handleTab t) t (p.tab 80 8) := by
  obtain ⟨left, right, top, bottom⟩ := shows.onScreen
  have col := shows.col_eq
  have moved := moves_modify s t (fun d => { d with curX := (d.curX.tdiv 8 + 1) * 8 }) fun _ => rfl
  have stop : ((s.term t).curX.tdiv 8 + 1) * 8 = ((p.col / 8 + 1) * 8 : Nat) := by
    rw [Int.tdiv_eq_ediv_of_nonneg left, col]
    omega
  simp only [Terms.handleTab, moved.curX_eq, stop, Page.tab]
  by_cases last : 80 - 1 ≤ (p.col / 8 + 1) * 8
  · rw [if_pos (by omega), if_pos last]
    exact shows.nextLine (fun _ => rfl) moved.curY_eq
  · rw [if_neg (by omega), if_neg last]
    exact shows.column (by omega) stop rfl

/-- A byte written changes the screen as it changes the page. -/
theorem handleKey (shows : ShowsPage s t p) {c : UInt8} (back : c ≠ keyBackspaceCode)
    (del : c ≠ keyDeleteCode) :
    ShowsPage (s.terminalHandleKey t c 0xFF 0 0) t (tallStep p c) := by
  simp only [terminalHandleKey, if_neg back, if_neg del, tallStep]
  refine ShowsPage.edits ?_ (edits_terminalRefresh _ t)
  by_cases enter : c = keyEnterCode
  · rw [if_pos enter, if_pos enter]
    exact shows.nextLine (fun _ => rfl) rfl
  · rw [if_neg enter, if_neg enter]
    by_cases tab : c = keyTabCode
    · rw [if_pos tab, if_pos tab]
      exact shows.handleTab
    · rw [if_neg tab, if_neg tab]
      by_cases null : c = 0
      · rw [if_pos null, null]
        exact shows.printAtCursor 32
      · rw [if_neg null]
        simpa [handleDefault, null] using shows.printAtCursor c

theorem write (shows : ShowsPage s t p) {buf : List UInt8}
    (plain : ∀ c ∈ buf, c ≠ keyBackspaceCode ∧ c ≠ keyDeleteCode) :
    ShowsPage (s.terminalWrite t buf) t (buf.foldl tallStep p) := by
  induction buf generalizing s p with
  | nil => exact shows
  | cons c buf ih =>
      obtain ⟨⟨back, del⟩, rest⟩ := List.forall_mem_cons.mp plain
      exact ih (shows.handleKey back del) rest

end ShowsPage

/-! ### Calls of `terminal_write` -/

/-- The loop of `terminal_write` from index `i` on. It stops early if
`terminal_handle_key` fails, which returns 0 always. -/
def terminalWriteLoop (t : Fin 4) : List UInt8 → Int → Terms → Int × Terms
  | [], i, s => (i, s)
  | c :: rest, i, s =>
      let result : Int × Terms := (0, s.terminalHandleKey t c 0xFF 0 0)
      if result.1 ≠ 0 then (i, result.2) else terminalWriteLoop t rest (i + 1) result.2

/-- Calls one after the other: what they return, and the state after the last. -/
def writeCalls (t : Fin 4) : List (List UInt8) → Terms → List Int × Terms
  | [], s => ([], s)
  | buf :: rest, s =>
      let call := terminalWriteLoop t buf 0 s
      let calls := writeCalls t rest call.2
      (call.1 :: calls.1, calls.2)

theorem terminalWriteLoop_eq (t : Fin 4) (buf : List UInt8) (i : Int) (s : Terms) :
    terminalWriteLoop t buf i s = (i + buf.length, s.terminalWrite t buf) := by
  induction buf generalizing i s with
  | nil => simp [terminalWriteLoop, terminalWrite]
  | cons c buf ih =>
      simp only [terminalWriteLoop, ne_eq, not_true_eq_false, if_false, ih, List.length_cons,
        Nat.cast_add, Nat.cast_one, Prod.mk.injEq]
      exact ⟨by omega, rfl⟩

theorem writeCalls_eq (t : Fin 4) (bufs : List (List UInt8)) (s : Terms) :
    writeCalls t bufs s =
      (bufs.map fun buf => (buf.length : Int), s.terminalWrite t bufs.flatten) := by
  induction bufs generalizing s with
  | nil => rfl
  | cons buf bufs ih =>
      simp only [writeCalls, terminalWriteLoop_eq, ih, List.map_cons, List.flatten_cons, zero_add]
      rw [terminalWrite, terminalWrite, terminalWrite, List.foldl_append]

/-- **The screen is a window on the written text.** Clear any terminal, visible or not, and
write a text without backspace and delete to it, split over calls in any way: the
calls return the lengths of their parts, the characters on the screen are those
of the last 25 rows of the text's tall layout, and the cursor is at its end. -/
theorem screen_is_window (s : Terms) (t : Fin 4) (bufs : List (List UInt8))
    (plain : ∀ buf ∈ bufs, ∀ c ∈ buf, c ≠ keyBackspaceCode ∧ c ≠ keyDeleteCode) :
    let calls := writeCalls t bufs (s.terminalClear t)
    let page := tallLayout bufs.flatten
    calls.1 = bufs.map (fun buf => (buf.length : Int)) ∧
      (∀ y x : Nat, y < 25 → x < 80 → calls.2.terminalGetc t x y = page.window 25 y x) ∧
      (calls.2.term t).curX = page.col ∧ (calls.2.term t).curY = min page.row 24 := by
  intro calls page
  have eq : calls = _ := writeCalls_eq t bufs (s.terminalClear t)
  have text : ∀ c ∈ bufs.flatten, c ≠ keyBackspaceCode ∧ c ≠ keyDeleteCode := by
    intro c mem
    obtain ⟨buf, mem_buf, mem_c⟩ := List.mem_flatten.mp mem
    exact plain buf mem_buf c mem_c
  have shows : ShowsPage calls.2 t page := by
    rw [eq]
    exact (showsPage_terminalClear s t).write text
  refine ⟨by rw [eq], fun y x inside wide => ?_, shows.col_eq, ?_⟩
  · have cell := shows.cells y x inside wide
    unfold terminalGetc
    rw [show calls.2.cell t (y * 80 + x) = _ from cell, cellOf_toUInt8]
  · have row := shows.row_eq
    omega

theorem screen_is_window_greeting :
    let calls := writeCalls 1 [[104], [105, 10]] (blank.terminalClear 1)
    calls.1 = [1, 2] ∧ calls.2.terminalGetc 1 (1 : Nat) (0 : Nat) = 105 ∧
      (calls.2.term 1).curX = 0 ∧ (calls.2.term 1).curY = 1 := by
  intro calls
  obtain ⟨returned, shown, column, row⟩ :=
    screen_is_window blank 1 [[104], [105, 10]] (by simp [keyBackspaceCode, keyDeleteCode])
  have letter : (tallLayout [[104], [105, 10]].flatten).window 25 0 1 = 105 := by decide
  have atEnd : (tallLayout [[104], [105, 10]].flatten).col = 0 ∧
      (tallLayout [[104], [105, 10]].flatten).row = 1 := by decide
  refine ⟨returned, (shown 0 1 (by decide) (by decide)).trans letter, ?_, ?_⟩
  · rw [column, atEnd.1]
    rfl
  · rw [row, atEnd.2]
    rfl

end Terms

end Linux391
