import Linux391.Drivers.TermInput
import Linux391.Drivers.TermScreen

/-!
Screen safety: where the cursor can go, and which cells are accessed.

A byte written or a key echoed keeps the cursor on the screen and its accesses in
the grid, with two exceptions: a backspace handled in the upper left corner moves
the cursor to column -1, and a delete handled in the lower right corner blanks a
cell beyond the screen. A program can write either byte. The keyboard can reach
the first only: a backspace is echoed when the input buffer is not empty, and
characters typed with Alt are buffered without being echoed.
-/

namespace Linux391

/-- `terminal_handle_key` does not leave the screen from here. -/
def TermData.HandleSafe (d : TermData) (key : UInt8) : Prop :=
  ¬ (key = keyBackspaceCode ∧ d.curX = 0 ∧ d.curY = 0) ∧
    ¬ (key = keyDeleteCode ∧ d.curX = 79 ∧ d.curY = 24)

theorem TermData.handleSafe_zero (d : TermData) : d.HandleSafe 0 :=
  ⟨fun h => absurd h.1 (by decide), fun h => absurd h.1 (by decide)⟩

namespace Terms

/-- Every cursor is on its screen, and no cell access has left the grid. -/
structure ScreenOk (s : Terms) : Prop where
  onScreen : ∀ t, (s.term t).OnScreen
  inGrid : s.offGrid = false

namespace ScreenOk

variable {s s' : Terms}

theorem edits_iff (edits : Edits s s') : ScreenOk s' ↔ ScreenOk s := by
  constructor
  · intro ok
    exact ⟨fun t => edits.onScreen.mp (ok.onScreen t), edits.offGrid_eq.symm.trans ok.inGrid⟩
  · intro ok
    exact ⟨fun t => edits.onScreen.mpr (ok.onScreen t), edits.offGrid_eq.trans ok.inGrid⟩

theorem moves (ok : ScreenOk s) {t : Fin 4} {x y : Int} (moves : Moves t s s' x y) (left : 0 ≤ x)
    (right : x < 80) (top : 0 ≤ y) (bottom : y < 25) : ScreenOk s' := by
  refine ⟨fun u => ?_, moves.offGrid_eq.trans ok.inGrid⟩
  by_cases own : u = t
  · subst own
    rw [TermData.onScreen_iff, moves.curX_eq, moves.curY_eq]
    exact ⟨left, right, top, bottom⟩
  · rw [moves.others u own]
    exact ok.onScreen u

theorem clears (ok : ScreenOk s) {t : Fin 4} (clears : Clears t s s') : ScreenOk s' := by
  refine ⟨fun u => ?_, clears.offGrid_eq.trans ok.inGrid⟩
  rw [TermData.onScreen_iff]
  by_cases own : u = t
  · subst own
    rw [clears.curX_eq, clears.curY_eq]
    decide
  · rw [(clears.others u own).1, (clears.others u own).2]
    exact (TermData.onScreen_iff _).mp (ok.onScreen u)

theorem nextLine (ok : ScreenOk s) (t : Fin 4) : ScreenOk (s.nextLine t) := by
  obtain ⟨_, _, top, bottom⟩ := ok.onScreen t
  exact ok.moves (moves_nextLine s t bottom) (by omega) (by omega) (by omega) (by omega)

theorem printAtCursor (ok : ScreenOk s) (t : Fin 4) (c : UInt8) :
    ScreenOk (s.printAtCursor t c) := by
  have moved := moves_printAtCursor s t c (ok.onScreen t)
  obtain ⟨left, right, top, bottom⟩ := ok.onScreen t
  refine ok.moves moved ?_ ?_ ?_ ?_ <;> split_ifs <;> omega

theorem handleTab (ok : ScreenOk s) (t : Fin 4) : ScreenOk (s.handleTab t) := by
  have moved := moves_handleTab s t (ok.onScreen t)
  obtain ⟨left, right, top, bottom⟩ := ok.onScreen t
  rw [tabStop_eq left] at moved
  refine ok.moves moved ?_ ?_ ?_ ?_ <;> split_ifs <;> omega

theorem handleBackspace_iff (ok : ScreenOk s) (t : Fin 4) :
    ScreenOk (s.handleBackspace t) ↔ ¬ ((s.term t).curX = 0 ∧ (s.term t).curY = 0) := by
  constructor
  · rintro after ⟨left, top⟩
    have column := handleBackspace_corner s t left top
    have := (after.onScreen t).left
    omega
  · intro away
    have moved := moves_handleBackspace s t (ok.onScreen t) away
    obtain ⟨left, right, top, bottom⟩ := ok.onScreen t
    refine ok.moves moved ?_ ?_ ?_ ?_ <;> split_ifs <;> omega

theorem handleDelete_iff (ok : ScreenOk s) (t : Fin 4) :
    ScreenOk (s.handleDelete t) ↔ ¬ ((s.term t).curX = 79 ∧ (s.term t).curY = 24) := by
  constructor
  · rintro after ⟨right, bottom⟩
    have left := handleDelete_corner s t right bottom
    rw [after.inGrid] at left
    cases left
  · intro away
    obtain ⟨left, right, top, bottom⟩ := ok.onScreen t
    exact ok.moves (moves_handleDelete s t (ok.onScreen t) away) left right top bottom

theorem handleDefault (ok : ScreenOk s) (t : Fin 4) (key scancode control alt : UInt8) :
    ScreenOk (s.handleDefault t key scancode control alt) := by
  simp only [Terms.handleDefault]
  split_ifs
  · exact ok.clears (clears_terminalClear s t)
  · exact ok
  · exact ok
  · exact ok.printAtCursor t key
  · exact ok.printAtCursor t 32
  · exact ok

/-- Handling a key keeps the screens safe exactly outside the two corner cases. -/
theorem handleKey_iff (ok : ScreenOk s) (t : Fin 4) (key scancode control alt : UInt8) :
    ScreenOk (s.terminalHandleKey t key scancode control alt) ↔ (s.term t).HandleSafe key := by
  simp only [terminalHandleKey]
  rw [edits_iff (edits_terminalRefresh _ t)]
  unfold TermData.HandleSafe
  split_ifs with back del enter tab
  · subst back
    rw [ok.handleBackspace_iff]
    simp [keyBackspaceCode, keyDeleteCode]
  · subst del
    rw [ok.handleDelete_iff]
    simp [keyBackspaceCode, keyDeleteCode]
  · exact iff_of_true (ok.nextLine t) ⟨fun h => back h.1, fun h => del h.1⟩
  · exact iff_of_true (ok.handleTab t) ⟨fun h => back h.1, fun h => del h.1⟩
  · exact iff_of_true (ok.handleDefault t key scancode control alt)
      ⟨fun h => back h.1, fun h => del h.1⟩

end ScreenOk

/-! ### Runs -/

/-- Writes are made one byte at a time; a longer one is the sequence of its bytes. -/
def Bytewise : InputEvent → Prop
  | .write _ buf => buf.length = 1
  | .key .. | .switch _ | .read _ _ | .openTerm _ => True

/-- When an event keeps the screens safe. A byte must not be a backspace in the upper
left corner or a delete in the lower right one. A key must not be a backspace in
the upper left corner while there is input to erase. -/
def ScreenSafe (s : Terms) : InputEvent → Prop
  | .write t buf => ∀ c ∈ buf, (s.term t).HandleSafe c
  | .key key _ _ _ =>
      ¬ (key = keyBackspaceCode ∧ (s.term s.activeTerm).inDatIndex ≠ 0 ∧
        (s.term s.activeTerm).curX = 0 ∧ (s.term s.activeTerm).curY = 0)
  | .switch _ | .read _ _ | .openTerm _ => True

/-- A key is handled as itself or, if it left the input buffer alone, as key 0. -/
theorem ScreenOk.key_iff {s : Terms} (ok : ScreenOk s) (orderly : Orderly s)
    (key scancode control alt : UInt8) :
    ScreenOk (s.inputProcessKey key scancode control alt) ↔
      ScreenSafe s (.key key scancode control alt) := by
  rw [orderly.inputProcessKey, acceptKey]
  have edits := edits_editInput s s.activeTerm key
  rw [((edits_iff edits).mpr ok).handleKey_iff]
  have cursor (k : UInt8) : ((s.editInput s.activeTerm key).term s.activeTerm).HandleSafe k ↔
      (s.term s.activeTerm).HandleSafe k := by
    unfold TermData.HandleSafe
    rw [edits.curX_eq, edits.curY_eq]
  rw [cursor]
  have atEnd : (s.term s.activeTerm).inDatIndex = (s.term s.activeTerm).inDatEnd :=
    (orderly.settled s.activeTerm).index_eq
  by_cases back : key = keyBackspaceCode
  · subst back
    by_cases empty : (s.term s.activeTerm).inDatIndex = 0
    · have unmodified : s.isModified s.activeTerm keyBackspaceCode = false := by
        simp [isModified, empty]
      simp only [unmodified, ScreenSafe, empty]
      exact iff_of_true (TermData.handleSafe_zero _) (by simp)
    · have modified : s.isModified s.activeTerm keyBackspaceCode = true := by
        simp [isModified, empty]
      simp only [modified, ScreenSafe, TermData.HandleSafe]
      simp [keyBackspaceCode, keyDeleteCode, empty]
  · refine iff_of_true ?_ fun h => back h.1
    by_cases del : key = keyDeleteCode
    · -- the insertion point is at the end, so delete finds nothing to delete
      have unmodified : s.isModified s.activeTerm key = false := by
        simp [isModified, del, keyBackspaceCode, keyDeleteCode, atEnd]
      rw [unmodified]
      exact TermData.handleSafe_zero _
    · split_ifs
      · exact ⟨fun h => back h.1, fun h => del h.1⟩
      · exact TermData.handleSafe_zero _

theorem ScreenOk.switches {s : Terms} (ok : ScreenOk s) (n : Fin 4) :
    ScreenOk (s.terminalSwitch n) := by
  refine ⟨fun t => ?_, (terminalSwitch_offGrid s n).trans ok.inGrid⟩
  have same := terminalSwitch_same s n t
  rw [TermData.onScreen_iff, ← same.field (·.curX) fun _ => rfl, ← same.field (·.curY) fun _ => rfl]
  exact (TermData.onScreen_iff _).mp (ok.onScreen t)

/-- An event keeps the screens safe if and only if it is safe. -/
theorem ScreenOk.inputStep_iff {s s' : Terms} (ok : ScreenOk s) (orderly : Orderly s)
    {e : InputEvent} (single : Bytewise e) {out : List Delivery}
    (step : s.inputStep e = some (s', out)) : ScreenOk s' ↔ ScreenSafe s e := by
  cases e with
  | key key scancode control alt =>
      cases step
      exact ok.key_iff orderly key scancode control alt
  | switch termNum =>
      cases step
      exact iff_of_true (ok.switches termNum) trivial
  | read t len =>
      simp only [Terms.inputStep, Option.map_eq_some_iff, Prod.mk.injEq] at step
      obtain ⟨⟨chars, s''⟩, read, rfl, rfl⟩ := step
      exact iff_of_true ((edits_iff (edits_terminalRead read)).mpr ok) trivial
  | write t buf =>
      cases step
      obtain ⟨c, rfl⟩ := List.length_eq_one_iff.mp single
      refine (ok.handleKey_iff t c 0xFF 0 0).trans ?_
      simp [ScreenSafe]
  | openTerm t =>
      cases step
      exact iff_of_true (ok.clears (clears_terminalOpen s t (orderly.unused t))) trivial

theorem screenOk_booted {s : Terms} (clean : s.offGrid = false) : ScreenOk s.booted := by
  have home : (⟨0, 0, fun _ => 0, 0, 0, 0, 0, 0⟩ : TermData).OnScreen := by decide
  have start : ScreenOk s.terminalInit := ⟨fun _ => home, clean⟩
  exact start.clears (clears_terminalOpen s.terminalInit 0 rfl)

theorem InputRun.screenOk {s s' : Terms} {es : List InputEvent} {out : List Delivery}
    (run : InputRun (fun s e => Bytewise e ∧ ScreenSafe s e) s es out s') (orderly : Orderly s)
    (start : ScreenOk s) : ScreenOk s' := by
  induction run with
  | nil => exact start
  | snoc before safe step ih =>
      exact (ih.inputStep_iff (before.orderly orderly).1 safe.1 step).mpr safe.2

/-- **Screen safety.** In every run from boot whose events are all safe, a write being
taken byte by byte, every cursor stays on its screen and every cell access in
the grid. In every state so reached a further event keeps it so if and only if
it is safe. -/
theorem screen_safety {s₀ s : Terms} {es : List InputEvent} {out : List Delivery}
    (clean : s₀.offGrid = false)
    (run : InputRun (fun s e => Bytewise e ∧ ScreenSafe s e) s₀.booted es out s) :
    ScreenOk s ∧ ∀ e s' out', Bytewise e → s.inputStep e = some (s', out') →
      (ScreenOk s' ↔ ScreenSafe s e) := by
  have orderly := (run.orderly (orderly_booted s₀)).1
  have ok := run.screenOk (orderly_booted s₀) (screenOk_booted clean)
  exact ⟨ok, fun e s' out' single step => ok.inputStep_iff orderly single step⟩

/-- After boot the visible terminal is the first one, with its cursor in the corner. -/
theorem booted_cursor (s : Terms) : (s.booted.term 0).curX = 0 ∧ (s.booted.term 0).curY = 0 := by
  have clears : Clears 0 s.terminalInit s.booted := clears_terminalOpen s.terminalInit 0 rfl
  exact ⟨clears.curX_eq, clears.curY_eq⟩

/-- A letter written away from the right edge moves the cursor on. -/
theorem write_letter_cursor {s : Terms} {t : Fin 4} (on : (s.term t).OnScreen)
    (inside : (s.term t).curX ≠ 79) :
    ((s.terminalWrite t [97]).term t).curX = (s.term t).curX + 1 := by
  have handled : s.terminalWrite t [97] = (s.printAtCursor t 97).terminalRefresh t := by
    simp [terminalWrite, terminalHandleKey, handleDefault, keyBackspaceCode, keyDeleteCode,
      keyEnterCode, keyTabCode]
  rw [handled, (edits_terminalRefresh _ t).curX_eq, (moves_printAtCursor s t 97 on).curX_eq,
    if_neg inside]

/-- A run goes on with as many events as one likes that are allowed everywhere. -/
theorem InputRun.replicate {allowed : Terms → InputEvent → Prop} {s s₁ : Terms}
    {es : List InputEvent} {out : List Delivery} {e : InputEvent}
    (run : InputRun allowed s es out s₁) (always : ∀ s, allowed s e)
    (step : ∀ s, ∃ s', inputStep s e = some (s', [])) (n : Nat) :
    ∃ s₂, InputRun allowed s (es ++ List.replicate n e) out s₂ := by
  induction n with
  | zero => exact ⟨s₁, by rwa [List.replicate_zero, List.append_nil]⟩
  | succ n ih =>
      obtain ⟨s₂, before⟩ := ih
      obtain ⟨s₃, next⟩ := step s₂
      have longer := before.snoc (always s₂) next
      rw [List.append_assoc, ← List.replicate_succ', List.append_nil] at longer
      exact ⟨s₃, longer⟩

/-- A letter is written and erased, a row of letters and one more are written, and Enter is typed
until the screen scrolls. -/
theorem screen_safety_scrolled : ∃ s,
    InputRun (fun s e => Bytewise e ∧ ScreenSafe s e) blank.booted
      ([.write 0 [97], .write 0 [keyBackspaceCode]] ++ List.replicate 81 (.write 0 [97]) ++
        List.replicate 25 (.key keyEnterCode 0x1C 0 0)) [] s ∧ ScreenOk s := by
  have letterSafe (s : Terms) : Bytewise (.write 0 [97]) ∧ ScreenSafe s (.write 0 [97]) := by
    refine ⟨rfl, fun c mem => ?_⟩
    rw [List.mem_singleton.mp mem]
    exact ⟨fun h => absurd h.1 (by decide), fun h => absurd h.1 (by decide)⟩
  have enterSafe (s : Terms) : Bytewise (.key keyEnterCode 0x1C 0 0) ∧
      ScreenSafe s (.key keyEnterCode 0x1C 0 0) := ⟨trivial, fun h => absurd h.1 (by decide)⟩
  obtain ⟨left, top⟩ := booted_cursor blank
  have home : (blank.booted.term 0).OnScreen := (screenOk_booted rfl).onScreen 0
  have moved := write_letter_cursor home (by omega)
  have eraseSafe : ScreenSafe (blank.booted.terminalWrite 0 [97])
      (.write 0 [keyBackspaceCode]) := by
    intro c mem
    rw [List.mem_singleton.mp mem]
    exact ⟨fun h => by omega, fun h => absurd h.1 (by decide)⟩
  have booted : InputRun (fun s e => Bytewise e ∧ ScreenSafe s e) blank.booted [] []
      blank.booted := .nil
  have written := booted.snoc (letterSafe _) rfl
  have erased := written.snoc (e := .write 0 [keyBackspaceCode]) ⟨rfl, eraseSafe⟩ rfl
  obtain ⟨s₁, letters⟩ := erased.replicate letterSafe (fun s => ⟨_, rfl⟩) 81
  obtain ⟨s, run⟩ := letters.replicate enterSafe (fun s => ⟨_, rfl⟩) 25
  exact ⟨s, run, (screen_safety rfl run).1⟩

/-- A character typed with Alt is buffered and not echoed. -/
theorem Orderly.alt_key {s : Terms} (h : Orderly s) (scancode : UInt8) {alt : UInt8}
    (held : alt ≠ 0) (room : (s.term s.activeTerm).pending = []) :
    let s' := s.inputProcessKey 97 scancode 0 alt
    s'.activeTerm = s.activeTerm ∧ (s'.term s.activeTerm).inDatIndex = 1 ∧
      (s'.term s.activeTerm).curX = (s.term s.activeTerm).curX ∧
      (s'.term s.activeTerm).curY = (s.term s.activeTerm).curY := by
  intro s'
  obtain ⟨d, sets, keyed⟩ := h.setsInput_key 97 scancode 0 alt
  have pending := keyed.pending_eq
  rw [input_pending, room] at pending
  have length : d.inDatEnd.toNat = 1 := by
    rw [← TermData.length_pending, pending]
    rfl
  have index : (s'.input s.activeTerm).inDatIndex = 1 := by
    rw [sets.own, keyed.settled.index_eq]
    omega
  have edits : Edits s s' := by
    have quiet : s' = (s.editInput s.activeTerm 97).terminalRefresh s.activeTerm := by
      rw [show s' = _ from h.inputProcessKey 97 scancode 0 alt]
      by_cases modified : s.isModified s.activeTerm 97 <;>
        simp [acceptKey, terminalHandleKey, handleDefault, modified, held, keyBackspaceCode,
          keyDeleteCode, keyEnterCode, keyTabCode]
    rw [quiet]
    exact (edits_editInput s s.activeTerm 97).trans (edits_terminalRefresh _ s.activeTerm)
  exact ⟨sets.active_eq, index, edits.curX_eq _, edits.curY_eq _⟩

/-- A backspace written in the upper left corner. -/
theorem write_backspace_corner {s : Terms} {t : Fin 4} (left : (s.term t).curX = 0)
    (top : (s.term t).curY = 0) : ((s.terminalWrite t [keyBackspaceCode]).term t).curX = -1 := by
  have handled : s.terminalWrite t [keyBackspaceCode] =
      (s.handleBackspace t).terminalRefresh t := by
    simp [terminalWrite, terminalHandleKey]
  rw [handled, (edits_terminalRefresh _ t).curX_eq, handleBackspace_corner s t left top]

/-- A letter typed with Alt and then a backspace, in the upper left corner. -/
theorem key_backspace_corner {s : Terms} (ok : ScreenOk s) (orderly : Orderly s)
    (empty : (s.term s.activeTerm).pending = []) (left : (s.term s.activeTerm).curX = 0)
    (top : (s.term s.activeTerm).curY = 0) :
    ¬ ScreenOk ((s.inputProcessKey 97 0x1E 0 1).inputProcessKey keyBackspaceCode 0x0E 0 0) := by
  have held : (1 : UInt8) ≠ 0 := by decide
  obtain ⟨active, index, column, row⟩ := orderly.alt_key 0x1E held empty
  have step : s.inputStep (.key 97 0x1E 0 1) = some (s.inputProcessKey 97 0x1E 0 1, []) := rfl
  have safe : ScreenSafe s (.key 97 0x1E 0 1) := fun h => absurd h.1 (by decide)
  have orderly' := (orderly.inputStep step).1
  have ok' := (ok.key_iff orderly 97 0x1E 0 1).mpr safe
  rw [ok'.key_iff orderly', ScreenSafe, active, index, column, row, left, top]
  decide

/-- A program that writes a backspace as its first byte moves the cursor to column -1.
So does the keyboard: Alt and a letter, then backspace. -/
theorem screen_left :
    (∃ s', blank.booted.inputStep (.write 0 [keyBackspaceCode]) = some (s', []) ∧
      (s'.term 0).curX = -1) ∧
    ∃ s s', InputRun (fun s e => Bytewise e ∧ ScreenSafe s e) blank.booted [.key 97 0x1E 0 1] [] s ∧
      s.inputStep (.key keyBackspaceCode 0x0E 0 0) = some (s', []) ∧ ¬ ScreenOk s' := by
  obtain ⟨left, top⟩ := booted_cursor blank
  have active := booted_activeTerm blank
  constructor
  · exact ⟨_, rfl, write_backspace_corner left top⟩
  · have safe : ScreenSafe blank.booted (.key 97 0x1E 0 1) := fun h => absurd h.1 (by decide)
    refine ⟨_, _, .snoc .nil ⟨trivial, safe⟩ rfl, rfl, ?_⟩
    exact key_backspace_corner (screenOk_booted rfl) (orderly_booted blank) (booted_pending blank _)
      (active ▸ left) (active ▸ top)

end Terms

end Linux391
