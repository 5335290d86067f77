import Linux391.Lib.Strings
import Linux391.Library.Loop
import Linux391.Library.Page

/-!
The kernel's own console: `clear`, `vertical_scroll`, `putc` and `puts` of `lib/lib.c`.

Video memory is an array of bytes, a character and its attribute for each cell.
Unlike the terminals, the console copies both when it scrolls, and it lets the row
reach 25 before it does. It still shows a window on the page of what was printed.
-/

namespace Linux391

open Loop

/-- The static variables of the console; `videoMem` is the bytes from `VIDEO` on. -/
structure Console where
  videoMem : Int → UInt8
  screenX : Int
  screenY : Int
  /-- The VGA cursor position last programmed. -/
  cursor : Nat

namespace Console

/-- The two bytes stored for one cell. -/
def storeCell (s : Console) (i : Int) (c attrib : UInt8) : Console :=
  { s with videoMem := Function.update (Function.update s.videoMem (2 * i) c) (2 * i + 1) attrib }

def clear (s : Console) : Console :=
  forRange 0 2000 (fun i s => { s.storeCell i 32 7 with screenX := 0, screenY := 0 }) s

def verticalScroll (s : Console) : Console :=
  let s := forRange 0 1920 (fun i s =>
    let mem := Function.update s.videoMem (2 * i) (s.videoMem (2 * i + 160))
    { s with
      videoMem := Function.update mem (2 * i + 1) (mem (2 * i + 1 + 160))
      screenX := 0, screenY := 24 }) s
  forRange 1920 2000 (fun i s => s.storeCell i 32 7) s

def updateCursor (s : Console) (row col : Int) : Console :=
  { s with cursor := ((row * 80 + col) % 65536).toNat }

/-- `putc` for a character that is not a newline. -/
def printChar (s : Console) (c : UInt8) : Console :=
  let s := s.storeCell (80 * s.screenY + s.screenX) c 7
  let s := { s with screenX := s.screenX + 1 }
  let s := if s.screenX = 80 then { s with screenY := s.screenY + 1 } else s
  let s := { s with screenX := s.screenX.tmod 80 }
  if s.screenY ≠ 25 then { s with screenY := s.screenY + s.screenX.tdiv 80 }
  else s.verticalScroll

def putc (s : Console) (c : UInt8) : Console :=
  let s := if c = 10 ∨ c = 13 then { s with screenY := s.screenY + 1, screenX := 0 }
    else s.printChar c
  let s := if s.screenY = 25 then s.verticalScroll else s
  s.updateCursor s.screenY s.screenX

/-- The loop of `puts` from `index` on, with at most `fuel` rounds: the index it returns
and the console after it. -/
def putsLoop (str : CStr) : Nat → Nat → Console → Option (Nat × Console)
  | 0, _, _ => none
  | fuel + 1, index, s =>
      if str index = 0 then some (index, s) else putsLoop str fuel (index + 1) (s.putc (str index))

/-! ### What the routines do to the cells -/

/-- The character and the attribute of a cell. -/
def cell (s : Console) (i : Int) : UInt8 × UInt8 := (s.videoMem (2 * i), s.videoMem (2 * i + 1))

theorem cell_storeCell (s : Console) (i : Int) (c attrib : UInt8) (j : Int) :
    (s.storeCell i c attrib).cell j = if j = i then (c, attrib) else s.cell j := by
  unfold cell storeCell
  by_cases here : j = i
  · subst here
    have apart : (2 * j : Int) ≠ 2 * j + 1 := by omega
    simp [apart]
  · have first : 2 * j ≠ 2 * i ∧ 2 * j ≠ 2 * i + 1 := by omega
    have second : 2 * j + 1 ≠ 2 * i ∧ 2 * j + 1 ≠ 2 * i + 1 := by omega
    simp [here, first, second]

/-- Where a loop that sets them in every round leaves the coordinates. -/
theorem forRange_home {lo hi x y : Int} {body : Int → Console → Console} (s : Console)
    (some : lo < hi)
    (home : ∀ i s, (body i s).screenX = x ∧ (body i s).screenY = y) :
    (forRange lo hi body s).screenX = x ∧ (forRange lo hi body s).screenY = y := by
  have last := forRange_induction
    (fun i s' => lo < i → s'.screenX = x ∧ s'.screenY = y) s (Int.le_of_lt some)
    (fun none => absurd none (Int.lt_irrefl lo)) fun i s' _ _ _ _ => home i s'
  exact last some

theorem clear_spec (s : Console) :
    s.clear.screenX = 0 ∧ s.clear.screenY = 0 ∧
      ∀ i, 0 ≤ i → i < 2000 → s.clear.cell i = (32, 7) := by
  obtain ⟨x, y⟩ : s.clear.screenX = 0 ∧ s.clear.screenY = 0 :=
    forRange_home s (by decide) fun _ _ => ⟨rfl, rfl⟩
  have filled : ∀ i, True → s.clear.cell i =
      if 0 + 0 ≤ i ∧ i < 0 + 2000 then (32, 7) else s.cell i := by
    apply forRange_fill cell (fun _ => (32, 7)) 0 _ s
    · decide
    · intro k s' _ _ _ i _
      rw [Int.zero_add]
      exact cell_storeCell s' k 32 7 i
  refine ⟨x, y, fun i lo hi => ?_⟩
  rw [filled i trivial, if_pos (by omega)]

/-- One round of the first loop of `vertical_scroll`. -/
theorem cell_scrollRound (s : Console) (i j : Int) :
    let mem := Function.update s.videoMem (2 * i) (s.videoMem (2 * i + 160))
    cell { s with videoMem := Function.update mem (2 * i + 1) (mem (2 * i + 1 + 160))
                  screenX := 0, screenY := 24 } j = if j = i then s.cell (i + 80) else s.cell j := by
  intro mem
  have odd : mem (2 * i + 1 + 160) = s.videoMem (2 * (i + 80) + 1) := by
    have apart : (2 * i + 1 + 160 : Int) ≠ 2 * i := by omega
    simp only [mem, Function.update_of_ne apart]
    congr 1
    omega
  have even : s.videoMem (2 * i + 160) = s.videoMem (2 * (i + 80)) := by
    congr 1
    omega
  rw [odd]
  simp only [mem, even]
  exact cell_storeCell s i _ _ j

/-- Scrolling moves every row up by one and blanks the last. -/
theorem verticalScroll_spec (s : Console) :
    s.verticalScroll.screenX = 0 ∧ s.verticalScroll.screenY = 24 ∧
      ∀ i, 0 ≤ i → i < 2000 →
        s.verticalScroll.cell i = if i < 1920 then s.cell (i + 80) else (32, 7) := by
  have home : ∀ (s : Console), (forRange 1920 2000 (fun i s => s.storeCell i 32 7) s).screenX =
      s.screenX ∧ (forRange 1920 2000 (fun i s => s.storeCell i 32 7) s).screenY = s.screenY := by
    intro s
    apply forRange_invariant (P := fun s' => s'.screenX = s.screenX ∧ s'.screenY = s.screenY) s
    · exact ⟨rfl, rfl⟩
    · intro _ _ _ _ same
      exact same
  have blanked : ∀ (s : Console) (i : Int), True →
      (forRange 1920 2000 (fun i s => s.storeCell i 32 7) s).cell i =
        if 0 + 1920 ≤ i ∧ i < 0 + 2000 then (32, 7) else s.cell i := by
    intro s
    apply forRange_fill cell (fun _ => (32, 7)) 0 _ s
    · decide
    · intro k s' _ _ _ i _
      rw [Int.zero_add]
      exact cell_storeCell s' k 32 7 i
  let round : Int → Console → Console := fun i s =>
    let mem := Function.update s.videoMem (2 * i) (s.videoMem (2 * i + 160))
    { s with
      videoMem := Function.update mem (2 * i + 1) (mem (2 * i + 1 + 160))
      screenX := 0, screenY := 24 }
  have copied : ∀ i, True → (forRange 0 1920 round s).cell i =
      if 0 + 0 ≤ i ∧ i < 0 + 1920 then s.cell (i + 80) else s.cell i := by
    apply forRange_fill cell (fun i => s.cell (i + 80)) 0 _ s
    · decide
    · intro k s' lo hi before i _
      rw [Int.zero_add]
      refine (cell_scrollRound s' k i).trans ?_
      by_cases here : i = k
      · -- the row below has not been overwritten yet
        rw [if_pos here, if_pos here, before (k + 80) trivial, if_neg (by omega), here]
      · rw [if_neg here, if_neg here]
  obtain ⟨x, y⟩ : (forRange 0 1920 round s).screenX = 0 ∧ (forRange 0 1920 round s).screenY = 24 :=
    forRange_home s (by decide) fun _ _ => ⟨rfl, rfl⟩
  refine ⟨(home _).1.trans x, (home _).2.trans y, fun i lo hi => ?_⟩
  refine (blanked (forRange 0 1920 round s) i trivial).trans ?_
  rw [copied i trivial]
  by_cases upper : i < 1920
  · rw [if_neg (by omega), if_pos (by omega), if_pos upper]
  · rw [if_pos (by omega), if_neg upper]

/-! ### The console shows a page -/

/-- The cell in a row and column. -/
def screen (s : Console) (row col : Nat) : UInt8 × UInt8 := s.cell (row * 80 + col)

/-- The console shows the last 25 rows of the page, every character with attribute 7. -/
abbrev ShowsPage (s : Console) (p : Page UInt8) : Prop :=
  Shown 80 25 32 (fun c => (c, 7)) s.screen s.screenX s.screenY p

theorem showsPage_clear (s : Console) : ShowsPage s.clear (.blank 32) := by
  obtain ⟨x, y, cells⟩ := clear_spec s
  unfold ShowsPage
  rw [x, y]
  exact .blank (by decide) fun r c inside wide => cells _ (by omega) (by omega)

/-- In the last column `putc` wraps, and scrolls if it was on the last line. -/
theorem printChar_last {s : Console} (c : UInt8) (last : s.screenX = 79) :
    s.printChar c =
      let s' : Console := { s.storeCell (80 * s.screenY + s.screenX) c 7 with
        screenX := 0, screenY := s.screenY + 1 }
      if s'.screenY = 25 then s'.verticalScroll else s' := by
  simp only [printChar, storeCell, last]
  by_cases below : s.screenY + 1 = 25
  · simp [below]
  · simp [below]

/-- In the other columns it only moves on. -/
theorem printChar_within {s : Console} (c : UInt8) (left : 0 ≤ s.screenX) (right : s.screenX < 79)
    (bottom : s.screenY < 25) :
    s.printChar c =
      { s.storeCell (80 * s.screenY + s.screenX) c 7 with screenX := s.screenX + 1 } := by
  have column : (s.screenX + 1).tmod 80 = s.screenX + 1 :=
    Int.tmod_eq_of_lt (by omega) (by omega)
  have carry : (s.screenX + 1).tdiv 80 = 0 := Int.tdiv_eq_zero_of_lt (by omega) (by omega)
  have within : s.screenX + 1 ≠ 80 := by omega
  have above : s.screenY ≠ 25 := by omega
  simp [printChar, storeCell, within, column, above, carry]

/-- One character on the page. -/
def pageStep (p : Page UInt8) (c : UInt8) : Page UInt8 :=
  if c = 10 ∨ c = 13 then p.newline else p.put 80 c

namespace ShowsPage

variable {s s' : Console} {p : Page UInt8}

theorem congr (shows : ShowsPage s p) (cells : ∀ i, s'.cell i = s.cell i)
    (x : s'.screenX = s.screenX) (y : s'.screenY = s.screenY) : ShowsPage s' p := by
  unfold ShowsPage
  rw [x, y]
  refine ⟨shows.fresh, fun r c inside wide => ?_, shows.col_eq, shows.row_eq⟩
  exact (cells _).trans (shows.cells r c inside wide)

/-- The start of the next line, scrolled to if it is below the screen. -/
theorem newline (shows : ShowsPage s p) (cells : ∀ i, s'.cell i = s.cell i) (x : s'.screenX = 0)
    (y : s'.screenY = s.screenY + 1) :
    ShowsPage (if s'.screenY = 25 then s'.verticalScroll else s') p.newline := by
  have row := shows.row_eq
  obtain ⟨homeX, homeY, scrolled⟩ := verticalScroll_spec s'
  unfold ShowsPage
  split_ifs with below
  · rw [homeX, homeY, show (24 : Int) = min (s.screenY + 1) ((25 : Nat) - 1) by omega]
    refine Shown.newline shows (by decide) (fun room => by omega) fun _ r c inside wide => ?_
    unfold screen
    rw [scrolled _ (by omega) (by omega)]
    split_ifs with upper lower lower
    · rw [cells, show (r : Int) * 80 + c + 80 = (r + 1 : Nat) * 80 + c by omega]
    · omega
    · omega
    · rfl
  · rw [x, y, show s.screenY + 1 = min (s.screenY + 1) ((25 : Nat) - 1) by omega]
    exact Shown.newline shows (by decide) (fun _ r c inside wide => cells _) fun last => by omega

theorem storeCell (shows : ShowsPage s p) (c : UInt8) :
    ShowsPage (s.storeCell (80 * s.screenY + s.screenX) c 7) (p.store c) := by
  have col := shows.col_eq
  have inside := shows.fresh.col_lt
  refine Shown.store shows c fun r k lower wide => ?_
  unfold screen
  rw [cell_storeCell]
  by_cases here : (r : Int) = s.screenY ∧ (k : Int) = s.screenX
  · rw [if_pos here, if_pos (by omega)]
  · rw [if_neg here, if_neg fun same => here (by omega)]

theorem printChar (shows : ShowsPage s p) (c : UInt8) :
    ShowsPage (s.printChar c) (p.put 80 c) := by
  have col := shows.col_eq
  have row := shows.row_eq
  have inside := shows.fresh.col_lt
  by_cases last : s.screenX = 79
  · rw [printChar_last c last, Page.put_last (by omega)]
    exact (shows.storeCell c).newline (fun _ => rfl) rfl rfl
  · rw [printChar_within c (by omega) (by omega) (by omega), Page.put_within (by omega)]
    unfold ShowsPage
    rw [show s.screenX + 1 = (p.col + 1 : Nat) by omega]
    exact Shown.column (shows.storeCell c) (by omega)

/-- Either way the row is on the screen again before the second check. -/
theorem putc (shows : ShowsPage s p) (c : UInt8) : ShowsPage (s.putc c) (pageStep p c) := by
  simp only [Console.putc, pageStep]
  by_cases enter : c = 10 ∨ c = 13
  · rw [if_pos enter, if_pos enter]
    refine ShowsPage.congr ?_ (fun _ => rfl) rfl rfl
    exact shows.newline (fun _ => rfl) rfl rfl
  · rw [if_neg enter, if_neg enter]
    have printed := shows.printChar c
    have row := printed.row_eq
    rw [if_neg (by omega)]
    exact printed.congr (fun _ => rfl) rfl rfl

theorem print (shows : ShowsPage s p) (text : List UInt8) :
    ShowsPage (text.foldl Console.putc s) (text.foldl pageStep p) := by
  induction text generalizing s p with
  | nil => exact shows
  | cons c text ih => exact ih (shows.putc c)

end ShowsPage

end Console

end Linux391
