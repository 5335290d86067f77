import Linux391.Lib.Printf
import Linux391.Drivers.TermInput
import Linux391.Drivers.TermPage

/-!
The kernel's console and the terminals draw the same picture.

The two emulators scroll and wrap in different orders. Both show a window on a page,
and for printable characters and newlines it is the same page. So the agreement
needs no step-by-step comparison of the two.
-/

namespace Linux391

/-- The printable ASCII characters and the newline. -/
def Printable (c : UInt8) : Prop := c = 10 ∨ 32 ≤ c ∧ c ≤ 126

theorem Printable.plain {c : UInt8} (printable : Printable c) :
    c ≠ 0 ∧ c ≠ keyBackspaceCode ∧ c ≠ keyTabCode ∧ c ≠ keyDeleteCode ∧ c ≠ 13 := by
  unfold keyBackspaceCode keyTabCode keyDeleteCode
  rcases printable with rfl | ⟨lower, upper⟩
  · decide
  · refine ⟨?_, ?_, ?_, ?_, ?_⟩ <;> rintro rfl
    · exact absurd lower (by decide)
    · exact absurd lower (by decide)
    · exact absurd lower (by decide)
    · exact absurd upper (by decide)
    · exact absurd lower (by decide)

theorem tallStep_eq_pageStep {c : UInt8} (printable : Printable c) (p : Page UInt8) :
    tallStep p c = Console.pageStep p c := by
  obtain ⟨null, _, tab, _, carriage⟩ := printable.plain
  unfold tallStep Console.pageStep keyEnterCode
  by_cases enter : c = 10
  · rw [if_pos enter, if_pos (.inl enter)]
  · rw [if_neg enter, if_neg tab, if_neg null, if_neg (by tauto)]

theorem tallLayout_eq {text : List UInt8} (printable : ∀ c ∈ text, Printable c) :
    tallLayout text = text.foldl Console.pageStep (.blank 32) := by
  unfold tallLayout
  generalize Page.blank (32 : UInt8) = p
  induction text generalizing p with
  | nil => rfl
  | cons c text ih =>
      obtain ⟨first, rest⟩ := List.forall_mem_cons.mp printable
      rw [List.foldl_cons, List.foldl_cons, tallStep_eq_pageStep first, ih rest]

/-- A page of printable text holds ASCII characters only. -/
theorem tallLayout_ascii {text : List UInt8} (printable : ∀ c ∈ text, Printable c) (r x : Nat) :
    (tallLayout text).cells r x < 128 := by
  rw [tallLayout_eq printable]
  have space : (32 : UInt8) < 128 := by decide
  have start : ∀ r x, (Page.blank (32 : UInt8)).cells r x < 128 := fun _ _ => space
  generalize Page.blank (32 : UInt8) = p at start ⊢
  induction text generalizing p with
  | nil => exact start r x
  | cons c text ih =>
      obtain ⟨first, rest⟩ := List.forall_mem_cons.mp printable
      refine ih rest _ fun r x => ?_
      unfold Console.pageStep
      split_ifs with enter
      · exact start r x
      · refine Page.put_forall (P := fun b => b < 128) start ?_ 80 r x
        rcases first with newline | ⟨_, upper⟩
        · exact absurd (.inl newline) enter
        · exact UInt8.lt_of_le_of_lt upper (by decide)

/-- The attribute of an ASCII character's cell is 7. -/
theorem cellOf_attribute {c : UInt8} (ascii : c < 128) : (cellOf c >>> 8).toUInt8 = 7 := by
  have all : ∀ n : Fin 128, (cellOf (UInt8.ofNat n.val) >>> 8).toUInt8 = 7 := by decide +kernel
  have small : c.toNat < 128 := UInt8.lt_iff_toNat_lt.mp ascii
  have cell := all ⟨c.toNat, small⟩
  rwa [UInt8.ofNat_toNat] at cell

namespace Console

/-- With enough rounds `puts` prints the whole string and returns its length. -/
theorem putsLoop_eq {str : CStr} (text : List UInt8) (index fuel : Nat) (s : Console)
    (holds : ∀ i, str (index + i) = text.getD i 0) (nonzero : ∀ c ∈ text, c ≠ 0)
    (enough : text.length < fuel) :
    putsLoop str fuel index s = some (index + text.length, text.foldl putc s) := by
  rw [putsLoop_eq_putsLoop]
  apply Linux391.putsLoop_eq text index s
  · intro i inside
    rw [holds, List.getD_eq_getElem?_getD, List.getElem?_eq_getElem inside]
    rfl
  · exact nonzero
  · rw [holds]
    simp
  · exact enough

end Console

/-- The byte at an offset into video memory, as the terminals have written it. -/
def Terms.videoByte (s : Terms) (offset : Nat) : UInt8 :=
  if offset % 2 = 0 then (s.videoMem (offset / 2 : Nat)).toUInt8
  else (s.videoMem (offset / 2 : Nat) >>> 8).toUInt8

/-- **The two screen emulators agree.** Print any text of printable characters and newlines
with the console after `clear`, and write it to the visible terminal after
`terminal_clear`: the 4000 bytes of video memory and the cursor positions are
the same. `puts` on the text as a C string does what `putc` on its characters does. -/
theorem screen_emulators_agree (c : Console) (s : Terms) (text : List UInt8)
    (printable : ∀ b ∈ text, Printable b) :
    let printed := text.foldl Console.putc c.clear
    let written := (s.terminalClear s.activeTerm).terminalWrite s.activeTerm text
    (∀ fuel, text.length < fuel →
      Console.putsLoop (cLit text) fuel 0 c.clear = some (text.length, printed)) ∧
    (∀ offset : Nat, offset < 4000 → printed.videoMem offset = written.videoByte offset) ∧
    printed.screenX = (written.term s.activeTerm).curX ∧
    printed.screenY = (written.term s.activeTerm).curY := by
  intro printed written
  have console : Console.ShowsPage printed (tallLayout text) := by
    rw [tallLayout_eq printable]
    exact (Console.showsPage_clear c).print text
  have terminal : Terms.ShowsPage written s.activeTerm (tallLayout text) :=
    (Terms.showsPage_terminalClear s s.activeTerm).write fun b mem =>
      ⟨(printable b mem).plain.2.1, (printable b mem).plain.2.2.2.1⟩
  have active : written.activeTerm = s.activeTerm :=
    (Terms.draws_terminalWrite _ s.activeTerm text).active_eq.trans
      (Terms.setsInput_terminalClear s s.activeTerm).active_eq
  refine ⟨fun fuel enough => ?_, fun offset inside => ?_,
    console.col_eq.trans terminal.col_eq.symm, console.row_eq.trans terminal.row_eq.symm⟩
  · have holds : ∀ i, cLit text (0 + i) = text.getD i 0 := fun i => by rw [Nat.zero_add, cLit]
    have call := Console.putsLoop_eq text 0 fuel c.clear holds
      (fun b mem => (printable b mem).plain.1) enough
    rwa [Nat.zero_add] at call
  · -- the cell that the byte belongs to
    have lower : offset / 2 / 80 < 25 := by omega
    have wide : offset / 2 % 80 < 80 := by omega
    have place : ((offset / 2 / 80 : Nat) : Int) * 80 + (offset / 2 % 80 : Nat) =
        (offset / 2 : Nat) := by omega
    have shown := console.cells _ _ lower wide
    have drawn := terminal.cells _ _ lower wide
    unfold Console.screen Console.cell at shown
    unfold Terms.screen Terms.cell at drawn
    rw [place, Prod.mk.injEq] at shown
    rw [place, if_pos active.symm] at drawn
    unfold Terms.videoByte
    rw [drawn]
    split_ifs with even
    · rw [cellOf_toUInt8, ← shown.1]
      congr 1
      omega
    · refine Eq.trans ?_ (cellOf_attribute (tallLayout_ascii printable _ _)).symm
      rw [← shown.2]
      congr 1
      omega

theorem screen_emulators_agree_greeting :
    let text : List UInt8 := [104, 105, 10]
    let t := Terms.blank.activeTerm
    (∀ b ∈ text, Printable b) ∧ ∀ offset : Nat, offset < 4000 →
      (text.foldl Console.putc (Console.clear ⟨fun _ => 0, 0, 0, 0⟩)).videoMem offset =
        ((Terms.blank.terminalClear t).terminalWrite t text).videoByte offset := by
  intro text t
  have printable : ∀ b ∈ text, Printable b := by simp [text, Printable]
  obtain ⟨_, bytes, _, _⟩ :=
    screen_emulators_agree ⟨fun _ => 0, 0, 0, 0⟩ Terms.blank text printable
  exact ⟨printable, bytes⟩

end Linux391
