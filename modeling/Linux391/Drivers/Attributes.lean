import Linux391.Drivers.ConsoleAgreement
import Linux391.Drivers.TermScreen

/-!
Attributes and characters of the screens.

`Placed` is what the four screens are for: a byte in every cell and a cursor, with no attribute
and no video memory. A write places bytes, a scroll and a clear redraw a screen, and a switch
only says which terminal is active. `Shows` relates the terminals to it: the cell is `cellOf` of
the byte. It is kept by every output routine, wherever the cursor is, since the characters are
read back as they were written. The attribute is another matter, because `terminal_putc` or-s
in a signed `char`.
-/

namespace Linux391

open Loop

/-- Four screens of bytes, the ones last placed, with their cursors. -/
structure Placed where
  curX : Fin 4 → Int
  curY : Fin 4 → Int
  activeTerm : Fin 4
  screen : Fin 4 → Int → UInt8

namespace Placed

/-- A byte put at an index of the screen of `t`. The back buffers lie one behind the other, so
an index off the screen of an inactive terminal is a cell of another inactive one. -/
def place (p : Placed) (t : Fin 4) (c : UInt8) (index : Int) : Placed :=
  { p with screen := fun u j =>
      if (u = p.activeTerm ↔ t = p.activeTerm) ∧
          2000 * (u.val : Int) + j = 2000 * t.val + index then c
      else p.screen u j }

/-- All of the screen of `t` drawn anew. -/
def redraw (p : Placed) (t : Fin 4) (bytes : Int → UInt8) : Placed :=
  { p with screen := Function.update p.screen t bytes }

def moveTo (p : Placed) (t : Fin 4) (x y : Int) : Placed :=
  { p with curX := Function.update p.curX t x, curY := Function.update p.curY t y }

/-- Every row takes the place of the one above it, and the last becomes blank. -/
def scroll (p : Placed) (t : Fin 4) : Placed :=
  (p.redraw t fun i => if i < 1920 then p.screen t (i + 80) else 32).moveTo t
    (p.curX t) (p.curY t - 1)

def newline (p : Placed) (t : Fin 4) : Placed :=
  let p := if p.curY t = 24 then p.scroll t else p
  p.moveTo t 0 (p.curY t + 1)

def print (p : Placed) (t : Fin 4) (c : UInt8) : Placed :=
  let p := p.place t c (p.curY t * 80 + p.curX t)
  if p.curX t = 79 then p.newline t else p.moveTo t (p.curX t + 1) (p.curY t)

def tab (p : Placed) (t : Fin 4) : Placed :=
  let p := p.moveTo t (Terms.tabStop (p.curX t)) (p.curY t)
  if 79 ≤ p.curX t then p.newline t else p

/-- One byte of a write; a zero is printed as a blank. -/
def write (p : Placed) (t : Fin 4) (c : UInt8) : Placed :=
  if c = keyEnterCode then p.newline t
  else if c = keyTabCode then p.tab t
  else p.print t (if c = 0 then 32 else c)

def clear (p : Placed) (t : Fin 4) : Placed := (p.redraw t fun _ => 32).moveTo t 0 0

/-- Four blank screens. -/
def blank (activeTerm : Fin 4) : Placed := ⟨fun _ => 0, fun _ => 0, activeTerm, fun _ _ => 32⟩

end Placed

/-- Output on the screens. -/
inductive DrawEvent where
  | write (t : Fin 4) (buf : List UInt8)
  | clear (t : Fin 4)
  | scroll (t : Fin 4)
  | switch (termNum : Fin 4)

/-- No backspace and no delete is written. -/
def DrawEvent.Plain : DrawEvent → Prop
  | .write _ buf => ∀ c ∈ buf, c ≠ keyBackspaceCode ∧ c ≠ keyDeleteCode
  | _ => True

def Placed.step (p : Placed) : DrawEvent → Placed
  | .write t buf => buf.foldl (fun p c => p.write t c) p
  | .clear t => p.clear t
  | .scroll t => p.scroll t
  | .switch termNum => { p with activeTerm := termNum }

def Terms.drawStep (s : Terms) : DrawEvent → Terms
  | .write t buf => s.terminalWrite t buf
  | .clear t => s.terminalClear t
  | .scroll t => s.terminalScrollUp t
  | .switch termNum => s.terminalSwitch termNum

/-- `terminal_open` of several terminals. -/
def Terms.openAll (s : Terms) (order : List (Fin 4)) : Terms :=
  order.foldl (fun s t => s.terminalOpen t) s

/-! ### What painting does to the other screens -/

namespace Terms

/-- Where a put lands, on the screen of its terminal or not. -/
theorem cell_terminalPutc_any (s : Terms) (t u : Fin 4) (c : UInt8) (x y i : Int) :
    (s.terminalPutc t c x y).cell u i =
      if (u = s.activeTerm ↔ t = s.activeTerm) ∧
          2000 * (u.val : Int) + i = 2000 * t.val + (y * 80 + x) then cellOf c
      else s.cell u i := by
  by_cases active : t = s.activeTerm
  · by_cases own : u = s.activeTerm
    · subst active own
      simp [terminalPutc, cell, touch, Function.update_apply]
    · simp [terminalPutc, cell, touch, active, own]
  · by_cases own : u = s.activeTerm
    · simp [terminalPutc, cell, touch, active, own]
    · simp [terminalPutc, cell, touch, active, own, Function.update_apply]

theorem cell_scrollCells_other (s : Terms) {t u : Fin 4} (other : u ≠ t) {i : Int} (lo : 0 ≤ i)
    (hi : i < 2000) : (s.scrollCells t).cell u i = s.cell u i := by
  have copied : (forRange 0 24
      (fun y s => forRange 0 80 (fun x s => s.copyCell t x (y + 1) x y) s) s).cell u i =
        s.cell u i := by
    refine forRange_invariant (P := fun s' => s'.cell u i = s.cell u i) s rfl ?_
    intro y s' top bottom rows
    refine forRange_invariant (P := fun s'' => s''.cell u i = s.cell u i) s' rows ?_
    intro x s'' left right same
    refine (cell_terminalPutc (by omega) lo hi).trans ?_
    rw [if_neg fun h => other h.1]
    exact same
  refine forRange_invariant (P := fun s' : Terms => s'.cell u i = s.cell u i) _ copied ?_
  intro x s' left right same
  rw [cell_terminalPutc (by omega) lo hi, if_neg fun h => other h.1]
  exact same

theorem cell_blankCells_other (s : Terms) {t u : Fin 4} (other : u ≠ t) {i : Int} (lo : 0 ≤ i)
    (hi : i < 2000) : (s.blankCells t).cell u i = s.cell u i := by
  refine forRange_invariant (P := fun s' => s'.cell u i = s.cell u i) s rfl ?_
  intro k s' lower upper same
  rw [cell_terminalPutc (by omega) lo hi, if_neg fun h => other h.1]
  exact same

end Terms

/-! ### The terminals show what was placed -/

/-- The terminals have the cursors of `p`, and every cell of a screen was composed from the byte
placed there. -/
structure Shows (s : Terms) (p : Placed) : Prop where
  active_eq : s.activeTerm = p.activeTerm
  curX_eq : ∀ t, (s.term t).curX = p.curX t
  curY_eq : ∀ t, (s.term t).curY = p.curY t
  cells : ∀ t i, 0 ≤ i → i < 2000 → s.cell t i = cellOf (p.screen t i)

namespace Shows

open Terms

variable {s s' : Terms} {p : Placed}

theorem edits (h : Shows s p) (same : s'.activeTerm = s.activeTerm) (edits : Terms.Edits s s') :
    Shows s' p where
  active_eq := same.trans h.active_eq
  curX_eq t := (edits.curX_eq t).trans (h.curX_eq t)
  curY_eq t := (edits.curY_eq t).trans (h.curY_eq t)
  cells t i lo hi := (edits.cells t i).trans (h.cells t i lo hi)

theorem terminalRefresh (h : Shows s p) (t : Fin 4) : Shows (s.terminalRefresh t) p :=
  h.edits (paints_terminalRefresh s t).active_eq (edits_terminalRefresh s t)

theorem terminalPutc (h : Shows s p) (t : Fin 4) (c : UInt8) (x y : Int) :
    Shows (s.terminalPutc t c x y) (p.place t c (y * 80 + x)) := by
  have paints := paints_terminalPutc s t c x y
  constructor
  case active_eq => exact paints.active_eq.trans h.active_eq
  case curX_eq =>
    rw [paints.term_eq]
    exact h.curX_eq
  case curY_eq =>
    rw [paints.term_eq]
    exact h.curY_eq
  case cells =>
    intro u i lo hi
    rw [cell_terminalPutc_any, h.active_eq]
    simp only [Placed.place]
    split_ifs with hit
    · rfl
    · exact h.cells u i lo hi

theorem modify (h : Shows s p) (t : Fin 4) (f : TermData → TermData) {x y : Int}
    (column : (f (s.term t)).curX = x) (row : (f (s.term t)).curY = y) :
    Shows (s.modify t f) (p.moveTo t x y) := by
  constructor
  case active_eq => exact h.active_eq
  case curX_eq =>
    intro u
    by_cases own : u = t
    · subst own
      simpa [Terms.modify, Placed.moveTo] using column
    · simpa [Terms.modify, Placed.moveTo, own] using h.curX_eq u
  case curY_eq =>
    intro u
    by_cases own : u = t
    · subst own
      simpa [Terms.modify, Placed.moveTo] using row
    · simpa [Terms.modify, Placed.moveTo, own] using h.curY_eq u
  case cells => exact h.cells

/-- Painting all of one screen and none of another. -/
theorem redraw (h : Shows s p) (paints : Paints s s') {t : Fin 4} {bytes : Int → UInt8}
    (own : ∀ i, 0 ≤ i → i < 2000 → s'.cell t i = cellOf (bytes i))
    (others : ∀ u, u ≠ t → ∀ i, 0 ≤ i → i < 2000 → s'.cell u i = s.cell u i) :
    Shows s' (p.redraw t bytes) := by
  constructor
  case active_eq => exact paints.active_eq.trans h.active_eq
  case curX_eq =>
    rw [paints.term_eq]
    exact h.curX_eq
  case curY_eq =>
    rw [paints.term_eq]
    exact h.curY_eq
  case cells =>
    intro u i lo hi
    by_cases here : u = t
    · subst here
      simpa [Placed.redraw] using own i lo hi
    · rw [others u here i lo hi, h.cells u i lo hi]
      simp [Placed.redraw, here]

theorem terminalScrollUp (h : Shows s p) (t : Fin 4) :
    Shows (s.terminalScrollUp t) (p.scroll t) := by
  have drawn : Shows (s.scrollCells t)
      (p.redraw t fun i => if i < 1920 then p.screen t (i + 80) else 32) := by
    refine h.redraw (paints_scrollCells s t) (fun i lo hi => ?_)
      fun u other i lo hi => cell_scrollCells_other s other lo hi
    rw [(scrollCells_spec s t).2 i lo hi]
    split_ifs with upper
    · rw [h.cells t (i + 80) (by omega) (by omega), cellOf_toUInt8]
    · rfl
  have column : ((s.scrollCells t).term t).curX = p.curX t := drawn.curX_eq t
  have row : ((s.scrollCells t).term t).curY - 1 = p.curY t - 1 := by
    rw [drawn.curY_eq t]
    rfl
  exact drawn.modify t (fun d => { d with curY := d.curY - 1 }) column row

theorem nextLine (h : Shows s p) (t : Fin 4) : Shows (s.nextLine t) (p.newline t) := by
  have scrolled : Shows (if (s.term t).curY = 24 then s.terminalScrollUp t else s)
      (if p.curY t = 24 then p.scroll t else p) := by
    rw [h.curY_eq t]
    split_ifs with bottom
    · exact h.terminalScrollUp t
    · exact h
  have row := congrArg (· + 1) (scrolled.curY_eq t)
  exact scrolled.modify t (fun d => { d with curY := d.curY + 1, curX := 0 }) rfl row

theorem printAtCursor (h : Shows s p) (t : Fin 4) (c : UInt8) :
    Shows (s.printAtCursor t c) (p.print t c) := by
  have put := h.terminalPutc t c (s.term t).curX (s.term t).curY
  simp only [Terms.printAtCursor, Placed.print]
  rw [← h.curX_eq t, ← h.curY_eq t, ← put.curX_eq t, ← put.curY_eq t]
  split_ifs with last
  · exact put.nextLine t
  · exact put.modify t _ rfl rfl

theorem handleTab (h : Shows s p) (t : Fin 4) : Shows (s.handleTab t) (p.tab t) := by
  have moved : Shows (s.modify t fun d => { d with curX := (d.curX.tdiv 8 + 1) * 8 })
      (p.moveTo t (tabStop (p.curX t)) (p.curY t)) :=
    h.modify t _ (congrArg tabStop (h.curX_eq t)) (h.curY_eq t)
  simp only [Terms.handleTab, Placed.tab]
  rw [moved.curX_eq t]
  split_ifs with beyond
  · exact moved.nextLine t
  · exact moved

/-- One byte of a write. -/
theorem terminalHandleKey (h : Shows s p) (t : Fin 4) {c : UInt8}
    (plain : c ≠ keyBackspaceCode ∧ c ≠ keyDeleteCode) :
    Shows (s.terminalHandleKey t c 0xFF 0 0) (p.write t c) := by
  simp only [Terms.terminalHandleKey, Placed.write, if_neg plain.1, if_neg plain.2]
  apply terminalRefresh
  split_ifs with enter tab zero
  · exact h.nextLine t
  · exact h.handleTab t
  · subst zero
    exact h.printAtCursor t 32
  · have prints : s.handleDefault t c 0xFF 0 0 = s.printAtCursor t c := by
      simp [handleDefault, zero]
    rw [prints]
    exact h.printAtCursor t c

theorem terminalWrite (h : Shows s p) (t : Fin 4) {buf : List UInt8}
    (plain : ∀ c ∈ buf, c ≠ keyBackspaceCode ∧ c ≠ keyDeleteCode) :
    Shows (s.terminalWrite t buf) (buf.foldl (fun p c => p.write t c) p) := by
  unfold Terms.terminalWrite
  induction buf generalizing s p with
  | nil => exact h
  | cons c rest ih =>
      have first := h.terminalHandleKey t (plain c List.mem_cons_self)
      exact ih first fun d mem => plain d (List.mem_cons_of_mem c mem)

theorem terminalClear (h : Shows s p) (t : Fin 4) : Shows (s.terminalClear t) (p.clear t) := by
  have drawn : Shows (s.blankCells t) (p.redraw t fun _ => 32) :=
    h.redraw (paints_blankCells s t) (blankCells_spec s t).2
      fun u other i lo hi => cell_blankCells_other s other lo hi
  have flushed := drawn.edits (setsInput_flushInput (s.blankCells t) t).active_eq
    (edits_flushInput (s.blankCells t) t)
  have homed := flushed.modify t (fun d => { d with curX := 0, curY := 0 }) rfl rfl
  exact homed.terminalRefresh t

theorem terminalSwitch (h : Shows s p) (n : Fin 4) :
    Shows (s.terminalSwitch n) { p with activeTerm := n } := by
  have same := terminalSwitch_same s n
  constructor
  case active_eq => exact (switches_terminalSwitch s n).active_eq
  case curX_eq =>
    intro t
    exact (congrArg TermData.curX (same t).data_eq).symm.trans (h.curX_eq t)
  case curY_eq =>
    intro t
    exact (congrArg TermData.curY (same t).data_eq).symm.trans (h.curY_eq t)
  case cells =>
    intro t i lo hi
    exact ((same t).cells i lo hi).symm.trans (h.cells t i lo hi)

theorem drawStep (h : Shows s p) {e : DrawEvent} (plain : e.Plain) :
    Shows (s.drawStep e) (p.step e) := by
  cases e with
  | write t buf => exact h.terminalWrite t plain
  | clear t => exact h.terminalClear t
  | scroll t => exact h.terminalScrollUp t
  | switch n => exact h.terminalSwitch n

theorem run (h : Shows s p) {events : List DrawEvent} (plain : ∀ e ∈ events, e.Plain) :
    Shows (events.foldl Terms.drawStep s) (events.foldl Placed.step p) := by
  induction events generalizing s p with
  | nil => exact h
  | cons e rest ih =>
      have first := h.drawStep (plain e List.mem_cons_self)
      exact ih first fun e' mem => plain e' (List.mem_cons_of_mem e mem)

end Shows

/-! ### Opening the terminals -/

namespace Terms

/-- A blank screen with the cursor at its start. -/
structure Cleared (s : Terms) (t : Fin 4) : Prop where
  curX_eq : (s.term t).curX = 0
  curY_eq : (s.term t).curY = 0
  cells : ∀ i, 0 ≤ i → i < 2000 → s.cell t i = cellOf 32

theorem cell_modify (s : Terms) (t u : Fin 4) (f : TermData → TermData) (i : Int) :
    (s.modify t f).cell u i = s.cell u i := rfl

theorem cell_terminalOpen_other (s : Terms) {t u : Fin 4} (unused : (s.term t).usrCount = 0)
    (other : u ≠ t) {i : Int} (lo : 0 ≤ i) (hi : i < 2000) :
    (s.terminalOpen t).cell u i = s.cell u i := by
  have eq : s.terminalOpen t = ((s.terminalClear t).flushInput t).modify t
      fun d => { d with isActive := 1 } := if_neg fun used => used unused
  have clear : s.terminalClear t = (((s.blankCells t).flushInput t).modify t
      fun d => { d with curX := 0, curY := 0 }).terminalRefresh t := rfl
  have cleared : (s.terminalClear t).cell u i = (s.blankCells t).cell u i := by
    rw [clear, terminalRefresh_cell, cell_modify, (edits_flushInput (s.blankCells t) t).cells]
  rw [eq, cell_modify, (edits_flushInput (s.terminalClear t) t).cells, cleared]
  exact cell_blankCells_other s other lo hi

theorem Cleared.terminalOpen {s : Terms} {t u : Fin 4} (unused : (s.term t).usrCount = 0)
    (cleared : u = t ∨ Cleared s u) : Cleared (s.terminalOpen t) u := by
  have clears := clears_terminalOpen s t unused
  by_cases own : u = t
  · subst own
    exact ⟨clears.curX_eq, clears.curY_eq, clears.cells⟩
  · have before := cleared.resolve_left own
    constructor
    case curX_eq => exact (clears.others u own).1.trans before.curX_eq
    case curY_eq => exact (clears.others u own).2.trans before.curY_eq
    case cells =>
      intro i lo hi
      rw [cell_terminalOpen_other s unused own lo hi]
      exact before.cells i lo hi

theorem terminalOpen_usrCount {s : Terms} {t : Fin 4} (unused : (s.term t).usrCount = 0)
    (u : Fin 4) : ((s.terminalOpen t).term u).usrCount = (s.term u).usrCount := by
  have input := congrFun (setsInput_terminalOpen s t unused).input_eq u
  have count : ((s.terminalOpen t).input u).usrCount = (s.input u).usrCount := by
    rw [input]
    by_cases own : u = t
    · subst own
      simp [TermData.flushed]
    · simp [own]
  exact count

/-- Opening every terminal in turn, in whatever order, clears all of them. -/
theorem openAll_spec {s : Terms} (unused : ∀ t, (s.term t).usrCount = 0) (order : List (Fin 4)) :
    (s.openAll order).activeTerm = s.activeTerm ∧
      ∀ t, t ∈ order ∨ Cleared s t → Cleared (s.openAll order) t := by
  unfold openAll
  induction order generalizing s with
  | nil =>
      refine ⟨rfl, fun t cleared => ?_⟩
      exact cleared.resolve_left List.not_mem_nil
  | cons first rest ih =>
      have free : ∀ t, ((s.terminalOpen first).term t).usrCount = 0 := by
        intro t
        rw [terminalOpen_usrCount (unused first)]
        exact unused t
      obtain ⟨active, cleared⟩ := ih free
      refine ⟨active.trans (setsInput_terminalOpen s first (unused first)).active_eq, ?_⟩
      intro t before
      apply cleared t
      rcases before with mem | already
      · rcases List.mem_cons.mp mem with rfl | later
        · exact .inr (Cleared.terminalOpen (unused t) (.inl rfl))
        · exact .inl later
      · exact .inr (Cleared.terminalOpen (unused first) (.inr already))

end Terms

theorem shows_openAll {s : Terms} (unused : ∀ t, (s.term t).usrCount = 0) (order : List (Fin 4))
    (all : ∀ t, t ∈ order) : Shows (s.openAll order) (.blank s.activeTerm) := by
  obtain ⟨active, cleared⟩ := Terms.openAll_spec unused order
  have blank : ∀ t, (s.openAll order).Cleared t := fun t => cleared t (.inl (all t))
  constructor
  case active_eq => exact active
  case curX_eq =>
    intro t
    exact (blank t).curX_eq
  case curY_eq =>
    intro t
    exact (blank t).curY_eq
  case cells =>
    intro t
    exact (blank t).cells

/-! ### Attributes -/

/-- The sign bit of the character, extended, covers the attribute. -/
theorem cellOf_attribute_iff (c : UInt8) : (cellOf c >>> 8).toUInt8 = 7 ↔ c < 128 := by
  constructor
  · intro seven
    by_contra high
    have all : ∀ n : Fin 128, (cellOf (UInt8.ofNat (128 + n.val)) >>> 8).toUInt8 ≠ 7 := by
      decide +kernel
    have large : 128 ≤ c.toNat := by
      have := UInt8.not_lt.mp high
      exact UInt8.le_iff_toNat_le.mp this
    have bound := c.toNat_lt
    have cell := all ⟨c.toNat - 128, by omega⟩
    rw [Nat.add_sub_cancel' large, UInt8.ofNat_toNat] at cell
    exact cell seven
  · exact cellOf_attribute

/-- **Uniform attributes.** After any sequence of writes without backspace and delete, clears,
scrolls and switches, all cells have attribute 7 and the character last placed there exactly
if none of those characters has its top bit set. -/
theorem attributes_uniform_iff (s₀ : Terms) (unused : ∀ t, (s₀.term t).usrCount = 0)
    (order : List (Fin 4)) (all : ∀ t, t ∈ order) (events : List DrawEvent)
    (plain : ∀ e ∈ events, e.Plain) :
    let s := events.foldl Terms.drawStep (s₀.openAll order)
    let p := events.foldl Placed.step (.blank s₀.activeTerm)
    (∀ t i, 0 ≤ i → i < 2000 →
        (s.cell t i >>> 8).toUInt8 = 7 ∧ (s.cell t i).toUInt8 = p.screen t i) ↔
      ∀ t i, 0 ≤ i → i < 2000 → p.screen t i < 128 := by
  intro s p
  have shown : Shows s p := (shows_openAll unused order all).run plain
  constructor
  · intro uniform t i lo hi
    have seven := (uniform t i lo hi).1
    rw [shown.cells t i lo hi] at seven
    exact (cellOf_attribute_iff _).mp seven
  · intro low t i lo hi
    rw [shown.cells t i lo hi]
    exact ⟨(cellOf_attribute_iff _).mpr (low t i lo hi), cellOf_toUInt8 _⟩

/-- No byte with its top bit set is written. -/
def DrawEvent.Low : DrawEvent → Prop
  | .write _ buf => ∀ c ∈ buf, c < 128
  | _ => True

namespace Placed

/-- No byte on the screens has its top bit set. -/
def Low (p : Placed) : Prop := ∀ t i, p.screen t i < 128

variable {p : Placed}

theorem Low.place (low : p.Low) (t : Fin 4) {c : UInt8} (small : c < 128) (index : Int) :
    (p.place t c index).Low := by
  intro u j
  simp only [Placed.place]
  split_ifs
  · exact small
  · exact low u j

theorem Low.redraw (low : p.Low) (t : Fin 4) {bytes : Int → UInt8} (small : ∀ i, bytes i < 128) :
    (p.redraw t bytes).Low := by
  intro u j
  simp only [Placed.redraw, Function.update_apply]
  split_ifs
  · exact small j
  · exact low u j

theorem Low.scroll (low : p.Low) (t : Fin 4) : (p.scroll t).Low := by
  refine Low.redraw low t fun i => ?_
  split_ifs
  · exact low t (i + 80)
  · decide

theorem Low.newline (low : p.Low) (t : Fin 4) : (p.newline t).Low := by
  simp only [Placed.newline]
  split_ifs
  · exact low.scroll t
  · exact low

theorem Low.print (low : p.Low) (t : Fin 4) {c : UInt8} (small : c < 128) : (p.print t c).Low := by
  have placed := low.place t small (p.curY t * 80 + p.curX t)
  simp only [Placed.print]
  split_ifs
  · exact placed.newline t
  · exact placed

theorem Low.write (low : p.Low) (t : Fin 4) {c : UInt8} (small : c < 128) : (p.write t c).Low := by
  have shown : (if c = 0 then 32 else c) < 128 := by
    split_ifs
    · decide
    · exact small
  simp only [Placed.write]
  split
  · exact low.newline t
  · split
    · simp only [Placed.tab]
      split_ifs
      · exact Low.newline (p := p.moveTo t _ _) low t
      · exact low
    · exact low.print t shown

/-- The bytes on the screens are those that were written. -/
theorem Low.step (low : p.Low) {e : DrawEvent} (small : e.Low) : (p.step e).Low := by
  cases e with
  | write t buf =>
      simp only [DrawEvent.Low] at small
      simp only [Placed.step]
      induction buf generalizing p with
      | nil => exact low
      | cons c rest ih =>
          rw [List.forall_mem_cons] at small
          exact ih (low.write t small.1) small.2
  | clear t => exact Low.redraw low t fun _ => by decide
  | scroll t => exact low.scroll t
  | switch termNum => exact low

theorem Low.run (low : p.Low) {events : List DrawEvent} (small : ∀ e ∈ events, e.Low) :
    (events.foldl Placed.step p).Low := by
  induction events generalizing p with
  | nil => exact low
  | cons e rest ih =>
      rw [List.forall_mem_cons] at small
      exact ih (low.step small.1) small.2

theorem low_blank (activeTerm : Fin 4) : (blank activeTerm).Low := by
  have space : (32 : UInt8) < 128 := by decide
  exact fun _ _ => space

end Placed

/-- A screen of newlines and a letter on a terminal in the background, which scrolls and is then
brought to the front. -/
theorem attributes_uniform_scrolled :
    let output : List DrawEvent :=
      [.write 1 (List.replicate 25 keyEnterCode ++ [97]), .switch 1, .write 0 [98], .scroll 1,
        .clear 2]
    let s := output.foldl Terms.drawStep (Terms.blank.openAll [0, 1, 2, 3])
    ∀ t i, 0 ≤ i → i < 2000 → (s.cell t i >>> 8).toUInt8 = 7 := by
  intro output s t i lo hi
  have plain : ∀ e ∈ output, e.Plain := by
    simp [output, DrawEvent.Plain, keyBackspaceCode, keyDeleteCode, keyEnterCode]
  have low : (output.foldl Placed.step (.blank 0)).Low := by
    refine (Placed.low_blank 0).run ?_
    simp [output, DrawEvent.Low, keyEnterCode]
  have uniform := (attributes_uniform_iff Terms.blank (fun _ => rfl) [0, 1, 2, 3] (by decide)
    output plain).mpr fun t i _ _ => low t i
  exact (uniform t i lo hi).1

/-- A byte above 127 written to a cleared terminal has attribute 0xFF. -/
theorem attribute_sign_extended :
    let s := Terms.drawStep (Terms.blank.openAll [0, 1, 2, 3]) (.write 0 [0xE9])
    (∀ t, (Terms.blank.term t).usrCount = 0) ∧ (s.cell 0 0 >>> 8).toUInt8 = 0xFF ∧
      (s.cell 0 0).toUInt8 = 0xE9 := by
  have unused : ∀ t, (Terms.blank.term t).usrCount = 0 := fun _ => rfl
  have plain : (DrawEvent.write 0 [0xE9]).Plain := by
    simp [DrawEvent.Plain, keyBackspaceCode, keyDeleteCode]
  have shown := (shows_openAll unused [0, 1, 2, 3] (by decide)).drawStep plain
  have placed : (Placed.step (.blank 0) (.write 0 [0xE9])).screen 0 0 = 0xE9 := by decide +kernel
  intro s
  have cell := shown.cells 0 0 (by decide) (by decide)
  have written : s.cell 0 0 = cellOf 0xE9 := cell.trans (congrArg cellOf placed)
  rw [written]
  exact ⟨unused, by decide +kernel, by decide +kernel⟩

end Linux391
