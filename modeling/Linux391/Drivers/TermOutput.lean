import Linux391.Drivers.Termios

/-!
What the output routines of the terminals leave alone.

The loops of the source only paint cells (`Paints`): they move no cursor and
touch no input. A whole output routine draws on one terminal (`Draws`): it may
also move that terminal's cursor. The one exception is Ctrl+L, which discards the
input as well, so the rule for a key excludes it.
-/

namespace Linux391

open Loop

namespace Terms

/-- Updating one terminal without touching a field leaves the field as it was. -/
theorem update_field {α : Type*} (f : TermData → α) {terms : Fin 4 → TermData} {t : Fin 4}
    {d : TermData} (same : f d = f (terms t)) (u : Fin 4) :
    f (Function.update terms t d u) = f (terms u) := by
  by_cases own : u = t
  · subst own
    rw [Function.update_self, same]
  · rw [Function.update_of_ne own]

/-- The data of a terminal without its cursor. -/
def input (s : Terms) (t : Fin 4) : TermData := { s.term t with curX := 0, curY := 0 }

/-- Only screens and cursors may differ. -/
structure KeepsInput (s s' : Terms) : Prop where
  input_eq : ∀ t, s'.input t = s.input t
  active_eq : s'.activeTerm = s.activeTerm

theorem KeepsInput.trans {s s' s'' : Terms} (h : KeepsInput s s') (k : KeepsInput s' s'') :
    KeepsInput s s'' :=
  ⟨fun t => (k.input_eq t).trans (h.input_eq t), k.active_eq.trans h.active_eq⟩

theorem KeepsInput.input_funext {s s' : Terms} (keeps : KeepsInput s s') : s'.input = s.input :=
  funext keeps.input_eq

/-- Drawing on `t`: only the screens and the cursor of `t` may differ. -/
structure Draws (t : Fin 4) (s s' : Terms) : Prop extends KeepsInput s s' where
  others : ∀ u, u ≠ t → s'.term u = s.term u
  offBuf_eq : s'.offBuf = s.offBuf

/-- Painting cells: only the screens may differ. -/
structure Paints (s s' : Terms) : Prop where
  term_eq : s'.term = s.term
  active_eq : s'.activeTerm = s.activeTerm
  offBuf_eq : s'.offBuf = s.offBuf

/-! ### Painting -/

theorem Paints.refl (s : Terms) : Paints s s := ⟨rfl, rfl, rfl⟩

theorem Paints.trans {s s' s'' : Terms} (h : Paints s s') (k : Paints s' s'') : Paints s s'' :=
  ⟨k.term_eq.trans h.term_eq, k.active_eq.trans h.active_eq, k.offBuf_eq.trans h.offBuf_eq⟩

theorem Paints.forRange (s : Terms) (lo hi : Int) {body : Int → Terms → Terms}
    (step : ∀ i s, Paints s (body i s)) : Paints s (forRange lo hi body s) :=
  forRange_invariant s (.refl s) fun i s' _ _ h => h.trans (step i s')

theorem Paints.draws {s s' : Terms} (h : Paints s s') (t : Fin 4) : Draws t s s' where
  input_eq u := by
    unfold input
    rw [h.term_eq]
  active_eq := h.active_eq
  others u _ := by rw [h.term_eq]
  offBuf_eq := h.offBuf_eq

theorem paints_terminalPutc (s : Terms) (t : Fin 4) (c : UInt8) (x y : Int) :
    Paints s (s.terminalPutc t c x y) := by
  simp only [terminalPutc]
  split
  · exact ⟨rfl, rfl, rfl⟩
  · exact ⟨rfl, rfl, rfl⟩

theorem paints_copyCell (s : Terms) (t : Fin 4) (fromX fromY x y : Int) :
    Paints s (s.copyCell t fromX fromY x y) := by
  have read : Paints s (s.touch fromX fromY) := ⟨rfl, rfl, rfl⟩
  exact read.trans (paints_terminalPutc _ t _ x y)

theorem paints_terminalRefresh (s : Terms) (t : Fin 4) : Paints s (s.terminalRefresh t) := by
  simp only [terminalRefresh]
  split
  · exact ⟨rfl, rfl, rfl⟩
  · exact .refl s

/-- The two loops of `terminal_scroll_up`. -/
def scrollCells (s : Terms) (t : Fin 4) : Terms :=
  let s := forRange 0 24 (fun y s => forRange 0 80 (fun x s => s.copyCell t x (y + 1) x y) s) s
  forRange 0 80 (fun x s => s.terminalPutc t 32 x 24) s

theorem paints_scrollCells (s : Terms) (t : Fin 4) : Paints s (s.scrollCells t) := by
  have copied : Paints s (forRange 0 24
      (fun y s => forRange 0 80 (fun x s => s.copyCell t x (y + 1) x y) s) s) :=
    Paints.forRange s 0 24 fun y s => Paints.forRange s 0 80 fun x s =>
      paints_copyCell s t x (y + 1) x y
  exact copied.trans (Paints.forRange _ 0 80 fun x s => paints_terminalPutc s t 32 x 24)

/-- The loop of backspace and delete: the rest of row `y` from column `x` on is shifted
left up to a column, and one cell is blanked. -/
def shiftCells (s : Terms) (t : Fin 4) (x y bound last : Int) : Terms :=
  (forRange x bound (fun i s => s.copyCell t (i + 1) y i y) s).terminalPutc t 32 last y

theorem paints_shiftCells (s : Terms) (t : Fin 4) (x y bound last : Int) :
    Paints s (s.shiftCells t x y bound last) := by
  have shifted : Paints s (forRange x bound (fun i s => s.copyCell t (i + 1) y i y) s) :=
    Paints.forRange s x bound fun i s => paints_copyCell s t (i + 1) y i y
  exact shifted.trans (paints_terminalPutc _ t 32 last y)

/-- The first loop of `terminal_clear`. -/
def blankCells (s : Terms) (t : Fin 4) : Terms :=
  forRange 0 2000 (fun i s => s.terminalPutc t 32 (i % 80) (i / 80)) s

theorem paints_blankCells (s : Terms) (t : Fin 4) : Paints s (s.blankCells t) :=
  Paints.forRange s 0 2000 fun i s => paints_terminalPutc s t 32 (i % 80) (i / 80)

/-! ### Drawing -/

theorem Draws.refl (t : Fin 4) (s : Terms) : Draws t s s := (Paints.refl s).draws t

theorem Draws.trans {t : Fin 4} {s s' s'' : Terms} (h : Draws t s s') (k : Draws t s' s'') :
    Draws t s s'' where
  toKeepsInput := h.toKeepsInput.trans k.toKeepsInput
  others u ne := (k.others u ne).trans (h.others u ne)
  offBuf_eq := k.offBuf_eq.trans h.offBuf_eq

/-- Moving the cursor. -/
theorem draws_modify (s : Terms) (t : Fin 4) (f : TermData → TermData)
    (cursor : ∀ d,
      { f d with curX := 0, curY := 0 } = ({ d with curX := 0, curY := 0 } : TermData)) :
    Draws t s (s.modify t f) where
  input_eq u := by
    by_cases own : u = t
    · subst own
      simpa [input, modify] using cursor (s.term u)
    · simp [input, modify, own]
  active_eq := rfl
  others u ne := Function.update_of_ne ne _ _
  offBuf_eq := rfl

theorem draws_terminalScrollUp (s : Terms) (t : Fin 4) : Draws t s (s.terminalScrollUp t) :=
  ((paints_scrollCells s t).draws t).trans
    (draws_modify _ t (fun d => { d with curY := d.curY - 1 }) fun _ => rfl)

theorem draws_nextLine (s : Terms) (t : Fin 4) : Draws t s (s.nextLine t) := by
  simp only [nextLine]
  split
  · exact (draws_terminalScrollUp s t).trans (draws_modify _ t _ fun _ => rfl)
  · exact draws_modify s t _ fun _ => rfl

theorem draws_printAtCursor (s : Terms) (t : Fin 4) (c : UInt8) :
    Draws t s (s.printAtCursor t c) := by
  have put := (paints_terminalPutc s t c (s.term t).curX (s.term t).curY).draws t
  simp only [printAtCursor]
  split
  · exact put.trans (draws_nextLine _ t)
  · exact put.trans (draws_modify _ t _ fun _ => rfl)

theorem draws_handleBackspace (s : Terms) (t : Fin 4) : Draws t s (s.handleBackspace t) := by
  simp only [handleBackspace]
  split
  · have wrapped := draws_modify s t (fun d => { d with curY := d.curY - 1, curX := 79 })
      fun _ => rfl
    exact wrapped.trans ((paints_terminalPutc _ t 32 _ _).draws t)
  · have moved := draws_modify s t (fun d => { d with curX := d.curX - 1 }) fun _ => rfl
    exact moved.trans ((paints_shiftCells _ t _ _ 79 _).draws t)

theorem draws_handleDelete (s : Terms) (t : Fin 4) : Draws t s (s.handleDelete t) :=
  (paints_shiftCells s t _ _ 24 _).draws t

theorem draws_handleTab (s : Terms) (t : Fin 4) : Draws t s (s.handleTab t) := by
  have moved := draws_modify s t (fun d => { d with curX := (d.curX.tdiv 8 + 1) * 8 }) fun _ => rfl
  simp only [handleTab]
  split
  · exact moved.trans (draws_nextLine _ t)
  · exact moved

/-- Handling a key that is not Ctrl+L touches no input buffer. -/
theorem draws_terminalHandleKey (s : Terms) (t : Fin 4) {key scancode control alt : UInt8}
    (plain : ¬ (control ≠ 0 ∧ key = 108)) :
    Draws t s (s.terminalHandleKey t key scancode control alt) := by
  simp only [terminalHandleKey, handleDefault]
  refine Draws.trans ?_ ((paints_terminalRefresh _ t).draws t)
  split_ifs with _ _ _ _ held letter
  · exact draws_handleBackspace s t
  · exact draws_handleDelete s t
  · exact draws_nextLine s t
  · exact draws_handleTab s t
  · exact absurd ⟨held, letter⟩ plain
  · exact .refl t s
  · exact .refl t s
  · exact draws_printAtCursor s t key
  · exact draws_printAtCursor s t 32
  · exact .refl t s

theorem draws_terminalWrite (s : Terms) (t : Fin 4) (buf : List UInt8) :
    Draws t s (s.terminalWrite t buf) := by
  unfold terminalWrite
  induction buf generalizing s with
  | nil => exact .refl t s
  | cons c buf ih =>
      exact (draws_terminalHandleKey s t fun ⟨held, _⟩ => held rfl).trans (ih _)

end Terms

end Linux391
