import Linux391.Drivers.Termios
import Linux391.Library.Footprint

/-!
Terminal switching is transparent.

The logical screen of a terminal is what `Terms.cell` reads: video memory while
the terminal is active, its back buffer otherwise. Every output routine is a
program local to its terminal (`Footprint.Local`) as long as the cells it
addresses lie in the grid, and a switch changes no logical screen. By
projection, each terminal shows what its own writes, echoes and clears
produce, however they are interleaved with those of the others and with switches.
-/

namespace Linux391

open Loop Footprint

namespace Terms

/-- The data of a terminal without `is_active`, which a switch rewrites. -/
def data (s : Terms) (t : Fin 4) : TermData := { s.term t with isActive := 0 }

/-- Terminal `t` has the same logical screen, cursor and input in both states. -/
structure SameScreen (t : Fin 4) (s s' : Terms) : Prop where
  cells : ∀ i, 0 ≤ i → i < 2000 → s.cell t i = s'.cell t i
  data_eq : s.data t = s'.data t

/-- The terminals as components: a state is `ok` while no access has left the grid. -/
def screens : Views (Fin 4) Terms where
  ok s := s.offGrid = false
  same := SameScreen
  refl _ _ := ⟨fun _ _ _ => rfl, rfl⟩
  trans h k := ⟨fun i lo hi => (h.cells i lo hi).trans (k.cells i lo hi), h.data_eq.trans k.data_eq⟩
  symm h := ⟨fun i lo hi => (h.cells i lo hi).symm, h.data_eq.symm⟩

/-! ### Primitive accesses -/

theorem touch_offGrid {s : Terms} {x y : Int} (inside : (s.touch x y).offGrid = false) :
    s.offGrid = false ∧ 0 ≤ y * 80 + x ∧ y * 80 + x < 2000 := by
  simpa [touch] using inside

theorem terminalPutc_offGrid (s : Terms) (t : Fin 4) (c : UInt8) (x y : Int) :
    (s.terminalPutc t c x y).offGrid = (s.touch x y).offGrid := by
  simp only [terminalPutc]
  split <;> rfl

theorem terminalPutc_inside {s : Terms} {t : Fin 4} {c : UInt8} {x y : Int}
    (inside : (s.terminalPutc t c x y).offGrid = false) :
    s.offGrid = false ∧ 0 ≤ y * 80 + x ∧ y * 80 + x < 2000 :=
  touch_offGrid (terminalPutc_offGrid s t c x y ▸ inside)

theorem terminalPutc_term (s : Terms) (t : Fin 4) (c : UInt8) (x y : Int) :
    (s.terminalPutc t c x y).term = s.term := by
  simp only [terminalPutc]
  split <;> rfl

/-- Inside the grid, writing a cell of `u` changes that cell of that screen only. -/
theorem cell_terminalPutc {s : Terms} {t u : Fin 4} {c : UInt8} {x y i : Int}
    (inside : 0 ≤ y * 80 + x ∧ y * 80 + x < 2000) (lo : 0 ≤ i) (hi : i < 2000) :
    (s.terminalPutc u c x y).cell t i =
      if t = u ∧ i = y * 80 + x then cellOf c else s.cell t i := by
  have distinct : t ≠ u → 2000 * (t.val : Int) + i ≠ 2000 * u.val + (y * 80 + x) := by
    intro ne
    have : t.val ≠ u.val := fun h => ne (Fin.ext h)
    omega
  by_cases active : u = s.activeTerm
  · by_cases own : t = u
    · subst own
      simp [terminalPutc, cell, touch, active, Function.update_apply]
    · have other : t ≠ s.activeTerm := active ▸ own
      simp [terminalPutc, cell, touch, active, other]
  · by_cases own : t = u
    · subst own
      simp [terminalPutc, cell, touch, active, Function.update_apply]
    · simp [terminalPutc, cell, touch, active, own, distinct own]

section Locality

variable {u : Fin 4}

theorem local_touch (x y : Int) : Local screens u fun s => s.touch x y where
  ok_of s good := (touch_offGrid good).1
  frame t _ s _ := ⟨fun _ _ _ => rfl, rfl⟩
  congr s s' good good' same := by
    have inside := touch_offGrid good
    refine ⟨?_, ⟨same.cells, same.data_eq⟩⟩
    have clean : s'.offGrid = false := good'
    simp [screens, touch, clean, inside.2]

theorem local_terminalPutc (c : UInt8) (x y : Int) :
    Local screens u fun s => s.terminalPutc u c x y where
  ok_of s good := (terminalPutc_inside good).1
  frame t ne s good := by
    obtain ⟨_, inside⟩ := terminalPutc_inside good
    refine ⟨fun i lo hi => ?_, ?_⟩
    · rw [cell_terminalPutc inside lo hi, if_neg fun h => ne h.1]
    · simp only [data, terminalPutc_term]
  congr s s' good good' same := by
    obtain ⟨_, inside⟩ := terminalPutc_inside good
    refine ⟨?_, fun i lo hi => ?_, ?_⟩
    · have clean : s'.offGrid = false := good'
      show (s'.terminalPutc u c x y).offGrid = false
      simp [terminalPutc_offGrid, touch, clean, inside]
    · rw [cell_terminalPutc inside lo hi, cell_terminalPutc inside lo hi, same.cells i lo hi]
    · simpa only [data, terminalPutc_term] using same.data_eq

/-- A change of the terminal's own data that ignores `is_active`. -/
theorem local_modify {f : TermData → TermData}
    (blind : ∀ d d' : TermData, { d with isActive := 0 } = { d' with isActive := 0 } →
      { f d with isActive := 0 } = { f d' with isActive := 0 }) :
    Local screens u fun s => s.modify u f where
  ok_of _ good := good
  frame t ne s _ := ⟨fun _ _ _ => rfl, by simp [data, modify, ne]⟩
  congr s s' _ good' same := by
    refine ⟨good', same.cells, ?_⟩
    have := blind _ _ same.data_eq
    simpa [data, modify] using this

theorem local_terminalRefresh : Local screens u fun s => s.terminalRefresh u where
  ok_of s good := by
    simp only [terminalRefresh] at good
    split at good <;> exact good
  frame t _ s _ := by
    simp only [terminalRefresh]
    split <;> exact ⟨fun _ _ _ => rfl, rfl⟩
  congr s s' _ good' same := by
    simp only [terminalRefresh]
    split <;> split <;> exact ⟨good', same.cells, same.data_eq⟩

/-- Reading a cell of `u` and writing another; the character read is a function
of the view once the cell read lies in the grid. -/
theorem local_copyCell (fromX fromY x y : Int) :
    Local screens u fun s => s.copyCell u fromX fromY x y where
  ok_of s good := (touch_offGrid (terminalPutc_inside good).1).1
  frame t ne s good := by
    have wrote := (local_terminalPutc (s.terminalGetc u fromX fromY) x y).frame t ne
      (s.touch fromX fromY) good
    exact ⟨wrote.cells, wrote.data_eq⟩
  congr s s' good good' same := by
    obtain ⟨_, lo, hi⟩ := touch_offGrid (terminalPutc_inside good).1
    have char : s.terminalGetc u fromX fromY = s'.terminalGetc u fromX fromY := by
      simp only [terminalGetc, same.cells _ lo hi]
    obtain ⟨good'', same'⟩ :=
      (local_touch fromX fromY).congr s s' (terminalPutc_inside good).1 good' same
    have result := (local_terminalPutc (s.terminalGetc u fromX fromY) x y).congr
      (s.touch fromX fromY) (s'.touch fromX fromY) good good'' same'
    simp only [copyCell, ← char]
    exact result

theorem local_bufPut (i : Int) (c : UInt8) : Local screens u fun s => s.bufPut u i c where
  ok_of _ good := good
  frame t ne s _ := ⟨fun _ _ _ => rfl, by simp [data, bufPut, modify, touchBuf, ne]⟩
  congr s s' _ good' same := by
    refine ⟨good', same.cells, ?_⟩
    have eq := same.data_eq
    simp only [data, TermData.mk.injEq, true_and] at eq ⊢
    simp [bufPut, modify, touchBuf, eq]

theorem local_bufCopy (i j : Int) : Local screens u fun s => s.bufCopy u i u j where
  ok_of _ good := good
  frame t ne s _ := ⟨fun _ _ _ => rfl, by simp [data, bufCopy, bufPut, modify, touchBuf, ne]⟩
  congr s s' _ good' same := by
    refine ⟨good', same.cells, ?_⟩
    have eq := same.data_eq
    simp only [data, TermData.mk.injEq, true_and] at eq ⊢
    simp [bufCopy, bufPut, modify, touchBuf, eq]

/-! ### The output routines -/

/-- What a terminal shows determines its cursor and its input counts. -/
theorem SameScreen.field {α : Type*} {s s' : Terms} (same : SameScreen u s s') (f : TermData → α)
    (blind : ∀ d : TermData, f { d with isActive := 0 } = f d) :
    f (s.term u) = f (s'.term u) := by
  rw [← blind (s.term u), ← blind (s'.term u)]
  exact congrArg f same.data_eq

theorem blind_of_commute {f : TermData → TermData}
    (commute : ∀ d : TermData, { f d with isActive := 0 } =
      { f { d with isActive := 0 } with isActive := 0 }) (d d' : TermData)
    (eq : { d with isActive := 0 } = ({ d' with isActive := 0 } : TermData)) :
    { f d with isActive := 0 } = ({ f d' with isActive := 0 } : TermData) := by
  rw [commute d, commute d', eq]

theorem local_terminalScrollUp : Local screens u fun s => s.terminalScrollUp u := by
  have copy : Local screens u (forRange 0 24 fun y =>
      forRange 0 80 fun x s => s.copyCell u x (y + 1) x y) :=
    .forRange 0 24 fun y => .forRange 0 80 fun x => local_copyCell x (y + 1) x y
  have blank : Local screens u (forRange 0 80 fun x s => s.terminalPutc u 32 x 24) :=
    .forRange 0 80 fun x => local_terminalPutc 32 x 24
  have move : Local screens u fun s => s.modify u fun d => { d with curY := d.curY - 1 } :=
    local_modify (blind_of_commute fun _ => rfl)
  exact move.comp (blank.comp copy)

theorem local_nextLine : Local screens u fun s => s.nextLine u := by
  have scroll : Local screens u fun s : Terms =>
      if (s.term u).curY = 24 then s.terminalScrollUp u else s :=
    .ite (fun s s' same => by rw [same.field (·.curY) fun _ => rfl]) local_terminalScrollUp .id
  have move : Local screens u fun s =>
      s.modify u fun d => { d with curY := d.curY + 1, curX := 0 } :=
    local_modify (blind_of_commute fun _ => rfl)
  exact move.comp scroll

/-- Writing a character at the cursor. -/
theorem local_putAtCursor (c : UInt8) : Local screens u fun s : Terms =>
    s.terminalPutc u c (s.term u).curX (s.term u).curY :=
  .bind (r := fun s : Terms => ((s.term u).curX, (s.term u).curY))
    (B := fun p s => s.terminalPutc u c p.1 p.2)
    (fun _ _ same => SameScreen.field same (fun d => (d.curX, d.curY)) fun _ => rfl)
    fun p => local_terminalPutc c p.1 p.2

/-- Shifting the rest of the cursor's row left up to a column and blanking one
cell: the loop of both backspace and delete. -/
theorem local_shiftRow (bound : Int) (last : Int → Int) : Local screens u fun s : Terms =>
    (forRange (s.term u).curX bound
      (fun i s' => s'.copyCell u (i + 1) (s.term u).curY i (s.term u).curY) s).terminalPutc u 32
      (last (s.term u).curX) (s.term u).curY :=
  .bind (r := fun s : Terms => ((s.term u).curX, (s.term u).curY))
    (B := fun p s => (forRange p.1 bound (fun i s' => s'.copyCell u (i + 1) p.2 i p.2)
      s).terminalPutc u 32 (last p.1) p.2)
    (fun _ _ same => SameScreen.field same (fun d => (d.curX, d.curY)) fun _ => rfl)
    fun p => .comp (G := fun s : Terms => s.terminalPutc u 32 (last p.1) p.2)
      (local_terminalPutc 32 (last p.1) p.2)
      (.forRange p.1 bound fun i => local_copyCell (i + 1) p.2 i p.2)

theorem local_printAtCursor (c : UInt8) : Local screens u fun s => s.printAtCursor u c := by
  have advance : Local screens u fun s : Terms =>
      if (s.term u).curX = 79 then s.nextLine u
      else s.modify u fun d => { d with curX := d.curX + 1 } :=
    .ite (fun s s' same => by rw [same.field (·.curX) fun _ => rfl]) local_nextLine
      (local_modify (blind_of_commute fun _ => rfl))
  exact advance.comp (local_putAtCursor c)

theorem local_handleBackspace : Local screens u fun s => s.handleBackspace u := by
  have wrap : Local screens u fun s : Terms =>
      s.modify u fun d => { d with curY := d.curY - 1, curX := 79 } :=
    local_modify (blind_of_commute fun _ => rfl)
  have back : Local screens u fun s : Terms => s.modify u fun d => { d with curX := d.curX - 1 } :=
    local_modify (blind_of_commute fun _ => rfl)
  have column : ∀ s s', SameScreen u s s' → ((s.term u).curX = 0 ∧ (s.term u).curY ≠ 0 ↔
      (s'.term u).curX = 0 ∧ (s'.term u).curY ≠ 0) := fun s s' same => by
    rw [same.field (·.curX) fun _ => rfl, same.field (·.curY) fun _ => rfl]
  exact .ite column ((local_putAtCursor 32).comp wrap)
    ((local_shiftRow 79 fun x => max x 79).comp back)

theorem local_handleDelete : Local screens u fun s => s.handleDelete u :=
  local_shiftRow 24 fun x => max x 24 + 1

theorem local_handleTab : Local screens u fun s => s.handleTab u := by
  have move : Local screens u fun s : Terms =>
      s.modify u fun d => { d with curX := (d.curX.tdiv 8 + 1) * 8 } :=
    local_modify (blind_of_commute fun _ => rfl)
  have wrap : Local screens u fun s : Terms => if 79 ≤ (s.term u).curX then s.nextLine u else s :=
    .ite (fun s s' same => by rw [same.field (·.curX) fun _ => rfl]) local_nextLine .id
  exact wrap.comp move

theorem local_flushInput : Local screens u fun s => s.flushInput u := by
  have zero : Local screens u (forRange 0 128 fun i s => s.bufPut u i 0) :=
    .forRange 0 128 fun i => local_bufPut i 0
  have reset : Local screens u fun s : Terms =>
      s.modify u fun d => { d with inDatIndex := 0, inDatEnd := 0, inDatNrRet := 0 } :=
    local_modify (blind_of_commute fun _ => rfl)
  exact reset.comp zero

theorem local_terminalClear : Local screens u fun s => s.terminalClear u := by
  have blank : Local screens u
      (forRange 0 2000 fun i s => s.terminalPutc u 32 (i % 80) (i / 80)) :=
    .forRange 0 2000 fun i => local_terminalPutc 32 (i % 80) (i / 80)
  have home : Local screens u fun s : Terms => s.modify u fun d => { d with curX := 0, curY := 0 } :=
    local_modify (blind_of_commute fun _ => rfl)
  exact local_terminalRefresh.comp (home.comp (local_flushInput.comp blank))

theorem local_handleDefault (key scancode control alt : UInt8) :
    Local screens u fun s => s.handleDefault u key scancode control alt := by
  unfold handleDefault
  split
  · split
    · exact local_terminalClear
    · exact .id
  · split
    · exact .id
    · split
      · exact local_printAtCursor key
      · split
        · exact local_printAtCursor 32
        · exact .id

theorem local_terminalHandleKey (key scancode control alt : UInt8) :
    Local screens u fun s => s.terminalHandleKey u key scancode control alt := by
  apply local_terminalRefresh.comp
  split
  · exact local_handleBackspace
  · split
    · exact local_handleDelete
    · split
      · exact local_nextLine
      · split
        · exact local_handleTab
        · exact local_handleDefault key scancode control alt

theorem local_terminalWrite (buf : List UInt8) : Local screens u fun s => s.terminalWrite u buf :=
  .foldl (fun c => local_terminalHandleKey c 0xFF 0 0) buf

/-! ### The input routines -/

theorem local_eraseInput : Local screens u fun s => s.eraseInput u := by
  have back : Local screens u fun s : Terms =>
      s.modify u fun d => { d with inDatIndex := d.inDatIndex - 1 } :=
    local_modify (blind_of_commute fun _ => rfl)
  have shift : Local screens u fun s : Terms => forRange (s.term u).inDatIndex
      ((s.term u).inDatEnd - 1) (fun i s => s.bufCopy u i u (i + 1)) s :=
    .bind (r := fun s : Terms => ((s.term u).inDatIndex, (s.term u).inDatEnd))
      (B := fun p s => forRange p.1 (p.2 - 1) (fun i s => s.bufCopy u i u (i + 1)) s)
      (fun _ _ same => same.field (fun d => (d.inDatIndex, d.inDatEnd)) fun _ => rfl)
      fun p => .forRange p.1 (p.2 - 1) fun i => local_bufCopy i (i + 1)
  have shorten : Local screens u fun s : Terms =>
      s.modify u fun d => { d with inDatEnd := d.inDatEnd - 1 } :=
    local_modify (blind_of_commute fun _ => rfl)
  exact shorten.comp (shift.comp back)

theorem local_deleteInput : Local screens u fun s => s.deleteInput u := by
  have shift : Local screens u fun s : Terms => forRange ((s.term u).inDatIndex - 1)
      (s.term u).inDatEnd (fun i s => s.bufCopy u i u (i + 1)) s :=
    .bind (r := fun s : Terms => ((s.term u).inDatIndex, (s.term u).inDatEnd))
      (B := fun p s => forRange (p.1 - 1) p.2 (fun i s => s.bufCopy u i u (i + 1)) s)
      (fun _ _ same => same.field (fun d => (d.inDatIndex, d.inDatEnd)) fun _ => rfl)
      fun p => .forRange (p.1 - 1) p.2 fun i => local_bufCopy i (i + 1)
  have shorten : Local screens u fun s : Terms =>
      s.modify u fun d => { d with inDatEnd := d.inDatEnd - 1 } :=
    local_modify (blind_of_commute fun _ => rfl)
  exact shorten.comp shift

theorem local_insertInput (key : UInt8) : Local screens u fun s => s.insertInput u key := by
  have grow : Local screens u fun s : Terms => s.modify u fun d =>
      { d with inDatEnd := d.inDatEnd + 1, inDatIndex := d.inDatIndex + 1 } :=
    local_modify (blind_of_commute fun _ => rfl)
  have shift : Local screens u fun s : Terms => forRange (s.term u).inDatIndex
      (s.term u).inDatEnd (fun i s => s.bufCopy u i u (i - 1)) s :=
    .bind (r := fun s : Terms => ((s.term u).inDatIndex, (s.term u).inDatEnd))
      (B := fun p s => forRange p.1 p.2 (fun i s => s.bufCopy u i u (i - 1)) s)
      (fun _ _ same => same.field (fun d => (d.inDatIndex, d.inDatEnd)) fun _ => rfl)
      fun p => .forRange p.1 p.2 fun i => local_bufCopy i (i - 1)
  have put : Local screens u fun s : Terms => s.bufPut u ((s.term u).inDatIndex - 1) key :=
    .bind (r := fun s : Terms => (s.term u).inDatIndex) (B := fun i s => s.bufPut u (i - 1) key)
      (fun _ _ same => same.field (·.inDatIndex) fun _ => rfl) fun i => local_bufPut (i - 1) key
  have count : Local screens u fun s : Terms => if key = keyEnterCode then
      s.modify u fun d => { d with inDatNrRet := d.inDatNrRet + 1 } else s := by
    split
    · exact local_modify (blind_of_commute fun _ => rfl)
    · exact .id
  exact count.comp (put.comp (shift.comp grow))

theorem local_editInput (key : UInt8) : Local screens u fun s => s.editInput u key := by
  unfold editInput
  split
  · exact .ite (fun s s' same => by rw [SameScreen.field same (·.inDatIndex) fun _ => rfl])
      .id local_eraseInput
  · split
    · exact .ite (fun s s' same => by
        rw [SameScreen.field same (·.inDatIndex) fun _ => rfl,
          SameScreen.field same (·.inDatEnd) fun _ => rfl]) local_deleteInput .id
    · exact .ite (fun s s' same => by rw [SameScreen.field same (·.inDatEnd) fun _ => rfl])
        (local_insertInput key) .id

theorem SameScreen.isModified_eq {s s' : Terms} (same : SameScreen u s s') (key : UInt8) :
    s.isModified u key = s'.isModified u key := by
  unfold isModified
  rw [same.field (·.inDatIndex) fun _ => rfl, same.field (·.inDatEnd) fun _ => rfl]

theorem local_acceptKey (key scancode control alt : UInt8) :
    Local screens u fun s => s.acceptKey u key scancode control alt :=
  .bind (r := fun s : Terms => s.isModified u key)
    (B := fun b s => (s.editInput u key).terminalHandleKey u (if b then key else 0)
      scancode control alt)
    (fun _ _ same => SameScreen.isModified_eq same key)
    fun b => (local_terminalHandleKey (if b then key else 0) scancode control alt).comp
      (local_editInput key)

theorem local_terminalOpen : Local screens u fun s => s.terminalOpen u := by
  have mark : Local screens u fun s : Terms => s.modify u fun d => { d with isActive := 1 } :=
    local_modify (blind_of_commute fun _ => rfl)
  exact .ite (fun s s' same => by rw [SameScreen.field same (·.usrCount) fun _ => rfl]) .id
    (mark.comp (local_flushInput.comp local_terminalClear))

end Locality

/-! ### Switching -/

theorem terminalRefresh_cell (s : Terms) (t u : Fin 4) (i : Int) :
    (s.terminalRefresh u).cell t i = s.cell t i := by
  simp only [terminalRefresh]
  split <;> rfl

theorem terminalRefresh_data (s : Terms) (t u : Fin 4) :
    (s.terminalRefresh u).data t = s.data t := by
  simp only [terminalRefresh]
  split <;> rfl

theorem terminalSwitch_offGrid (s : Terms) (n : Fin 4) :
    (s.terminalSwitch n).offGrid = s.offGrid := by
  simp only [terminalSwitch]
  split
  · rfl
  · simp only [terminalRefresh]
    split <;> rfl

/-- A switch leaves the logical screen and the data of every terminal as they were:
the old active terminal finds its screen in its back buffer, the new one in
video memory. -/
theorem terminalSwitch_same (s : Terms) (n t : Fin 4) : SameScreen t s (s.terminalSwitch n) := by
  by_cases stay : n = s.activeTerm
  · simp only [terminalSwitch, if_pos stay]
    exact screens.refl t s
  · refine ⟨fun i lo hi => ?_, ?_⟩
    · simp only [terminalSwitch, if_neg stay, terminalRefresh_cell]
      have apart : ∀ a b : Fin 4, a ≠ b → a.val ≠ b.val := fun a b ne h => ne (Fin.ext h)
      have newOld := apart n s.activeTerm stay
      by_cases new : t = n
      · subst new
        have outside : ¬ (2000 * (s.activeTerm.val : Int) ≤ 2000 * t.val + i ∧
            2000 * (t.val : Int) + i < 2000 * s.activeTerm.val + 2000) := by omega
        simp [cell, modify, stay, lo, hi, outside]
      · by_cases old : t = s.activeTerm
        · subst old
          have start : 2000 * (s.activeTerm.val : Int) ≤ 2000 * s.activeTerm.val + i := by omega
          have back : 2000 * (s.activeTerm.val : Int) + i - 2000 * s.activeTerm.val = i := by omega
          simp [cell, modify, new, hi, start, back]
        · have oldOther := apart t s.activeTerm old
          have outside : ¬ (2000 * (s.activeTerm.val : Int) ≤ 2000 * t.val + i ∧
              2000 * (t.val : Int) + i < 2000 * s.activeTerm.val + 2000) := by omega
          simp [cell, modify, new, old, outside]
    · simp only [terminalSwitch, if_neg stay, terminalRefresh_data]
      by_cases new : t = n
      · subst new
        simp [data, modify, stay]
      · by_cases old : t = s.activeTerm
        · subst old
          simp [data, modify, new]
        · simp [data, modify, new, old]

/-! ### Runs -/

/-- What can happen to the screens: output by a process, a key, a clear, an open
or a switch. -/
inductive ScreenEvent where
  | write (t : Fin 4) (buf : List UInt8)
  | key (key scancode control alt : UInt8)
  | clear (t : Fin 4)
  | openTerm (t : Fin 4)
  | switch (termNum : Fin 4)

/-- The kernel's reaction to an event. -/
def screenStep (s : Terms) : ScreenEvent → Terms
  | .write t buf => s.terminalWrite t buf
  | .key key scancode control alt => s.inputProcessKey key scancode control alt
  | .clear t => s.terminalClear t
  | .openTerm t => s.terminalOpen t
  | .switch termNum => s.terminalSwitch termNum

/-- The terminal an event is directed at. A key goes to the active terminal, and
to none if that one is not open. -/
def screenTarget (s : Terms) : ScreenEvent → Option (Fin 4)
  | .write t _ => some t
  | .key .. => if (s.term s.activeTerm).isActive = 0 then none else some s.activeTerm
  | .clear t => some t
  | .openTerm t => some t
  | .switch _ => none

/-- The same writes, echoes, clears and opens, applied to terminal `t`; there are
no switches here. -/
def applyAlone (t : Fin 4) (e : ScreenEvent) (s : Terms) : Terms :=
  match e with
  | .write _ buf => s.terminalWrite t buf
  | .key key scancode control alt => s.acceptKey t key scancode control alt
  | .clear _ => s.terminalClear t
  | .openTerm _ => s.terminalOpen t
  | .switch _ => s

theorem screens_directed : Directed screens screenStep screenTarget applyAlone where
  quiet s e h good := by
    cases e with
    | write t buf => cases h
    | key key scancode control alt =>
        simp only [screenTarget, ite_eq_left_iff, reduceCtorEq, imp_false, not_not] at h
        simp only [screenStep, inputProcessKey, if_pos h] at good ⊢
        exact ⟨good, fun t => screens.refl t s⟩
    | clear t => cases h
    | openTerm t => cases h
    | switch termNum =>
        exact ⟨(terminalSwitch_offGrid s termNum).symm.trans good,
          terminalSwitch_same s termNum⟩
  acts s e u h := by
    cases e with
    | write t buf => cases h; rfl
    | key key scancode control alt =>
        simp only [screenTarget, Option.ite_none_left_eq_some, Option.some.injEq] at h
        obtain ⟨opened, rfl⟩ := h
        simp only [screenStep, inputProcessKey, if_neg opened, applyAlone]
    | clear t => cases h; rfl
    | openTerm t => cases h; rfl
    | switch termNum => cases h
  isLocal u e := by
    cases e with
    | write t buf => exact local_terminalWrite buf
    | key key scancode control alt => exact local_acceptKey key scancode control alt
    | clear t => exact local_terminalClear
    | openTerm t => exact local_terminalOpen
    | switch termNum => exact .id

/-- **Terminal switching is transparent.** In every run whose accesses stay in
the grid, each terminal ends with the logical screen and cursor that its own
writes, echoes, clears and opens produce when they are applied to it without
any switch and without the events of the others. -/
theorem terminal_switch_transparent (s : Terms) (es : List ScreenEvent)
    (grid : (es.foldl screenStep s).offGrid = false) (t : Fin 4) :
    let final := es.foldl screenStep s
    let alone := (directedAt screenStep screenTarget t s es).foldl
      (fun s e => applyAlone t e s) s
    (∀ i, 0 ≤ i → i < 2000 → final.cell t i = alone.cell t i) ∧
      (final.term t).curX = (alone.term t).curX ∧ (final.term t).curY = (alone.term t).curY := by
  intro final alone
  have start : s.offGrid = false := ok_of_run screens_directed s es grid
  have same : SameScreen t final alone :=
    run_project screens_directed t s s es grid start (screens.refl t s)
  exact ⟨same.cells, same.field (·.curX) fun _ => rfl, same.field (·.curY) fun _ => rfl⟩

/-- A background write, a switch to it and a key typed there: the key stands after
the written text, as without the switch. -/
theorem terminal_switch_transparent_type_ahead :
    let es : List ScreenEvent := [.write 1 [104, 105], .switch 1, .key 33 0x2 0 0, .switch 0]
    let final := es.foldl screenStep blank
    let alone := (directedAt screenStep screenTarget 1 blank es).foldl
      (fun s e => applyAlone 1 e s) blank
    final.offGrid = false ∧ (∀ i, 0 ≤ i → i < 2000 → final.cell 1 i = alone.cell 1 i) ∧
      (final.term 1).curX = 3 ∧ (alone.term 1).curX = 3 := by
  intro es final alone
  have grid : final.offGrid = false := by decide
  have result := terminal_switch_transparent blank es grid 1
  have column : (final.term 1).curX = 3 := by decide
  exact ⟨grid, result.1, column, result.2.1.symm.trans column⟩

end Terms

end Linux391
