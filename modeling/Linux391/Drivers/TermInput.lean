import Linux391.Drivers.TermOutput
import Mathlib.Data.List.Range
import Mathlib.Tactic.Common

/-!
Line input of the four terminals.

What a terminal is for is a queue of edited characters: a key typed while it is
visible is appended, backspace removes the last character, Ctrl+L empties it, and
a reader takes a prefix that ends at the first newline. `pending` reads the queue
off the buffer `in_buf`. Here is what each input routine does to the buffers and
their counts (`SetsInput`), under the invariant that every run keeps (`Orderly`):
the insertion point is at the end of a buffer that does not overflow.
-/

namespace Linux391

open Loop

/-! ### Queues of typed characters -/

/-- The effect of a key on the characters typed so far; `control` is the state of
the control key. -/
def typed (queue : List UInt8) (key control : UInt8) : List UInt8 :=
  if key = keyBackspaceCode then queue.dropLast
  else if key = keyDeleteCode then queue
  else if key ≠ 0 ∧ queue.length < 128 then
    if control ≠ 0 ∧ key = 108 then [] else queue ++ [key]
  else queue

/-- How much a reader with room for `len` characters takes: up to and including the
first newline. -/
def lineLength (queue : List UInt8) (len : Int) : Nat :=
  min len.toNat (min queue.length (queue.idxOf 10 + 1))

/-- What a key does to a count of the newlines typed: a stored newline is counted and
Ctrl+L starts again from zero. -/
def countTyped (count : Int) (queue : List UInt8) (key control : UInt8) : Int :=
  if control ≠ 0 ∧ key = 108 ∧ queue.length < 128 then 0
  else if key = keyEnterCode ∧ queue.length < 128 then count + 1
  else count

theorem typed_clear {queue : List UInt8} {control : UInt8} (held : control ≠ 0)
    (room : queue.length < 128) : typed queue 108 control = [] := by
  simp [typed, keyBackspaceCode, keyDeleteCode, held, room]

/-- Apart from Ctrl+L the control key makes no difference to the queue. -/
theorem typed_plain {queue : List UInt8} {key control : UInt8}
    (plain : control ≠ 0 → key = 108 → 128 ≤ queue.length) :
    typed queue key control = typed queue key 0 := by
  unfold typed
  split_ifs with back del accepted held none none
  · rfl
  · rfl
  · exact absurd rfl none.1
  · have := plain held.1 held.2
    omega
  · exact absurd rfl none.1
  · rfl
  · rfl

/-- Without the control key only a stored newline makes a difference. -/
theorem countTyped_zero (count : Int) (queue : List UInt8) (key : UInt8) :
    countTyped count queue key 0 =
      if key = keyEnterCode ∧ queue.length < 128 then count + 1 else count :=
  if_neg fun cleared => cleared.1 rfl

theorem countTyped_plain {count : Int} {queue : List UInt8} {key control : UInt8}
    (plain : control ≠ 0 → key = 108 → 128 ≤ queue.length) :
    countTyped count queue key control = countTyped count queue key 0 := by
  have kept : ¬ (control ≠ 0 ∧ key = 108 ∧ queue.length < 128) := by
    rintro ⟨held, letter, room⟩
    have := plain held letter
    omega
  rw [countTyped_zero, countTyped, if_neg kept]

/-- A key that is not stored is not counted. -/
theorem countTyped_refused {count : Int} {queue : List UInt8} {key : UInt8}
    (refused : key = keyEnterCode → 128 ≤ queue.length) : countTyped count queue key 0 = count := by
  rw [countTyped_zero, if_neg]
  rintro ⟨enter, room⟩
  have := refused enter
  omega

/-- The newlines of two parts of a queue add up. -/
theorem count_take_add_drop (queue : List UInt8) (n : Nat) :
    (queue.take n).count 10 + (queue.drop n).count 10 = queue.count 10 := by
  rw [← List.count_append, List.take_append_drop]

theorem count_dropLast (queue : List UInt8) : queue.count 10 =
    queue.dropLast.count 10 + if queue.getLast? = some 10 then 1 else 0 := by
  rcases List.eq_nil_or_concat queue with rfl | ⟨front, last, rfl⟩
  · rfl
  · simp [List.count_singleton]

/-- The count follows the queue, except that a newline erased again stays counted. -/
theorem count_typed (queue : List UInt8) (key control : UInt8) :
    countTyped (queue.count 10) queue key control = (typed queue key control).count 10 +
      if key = keyBackspaceCode ∧ queue.getLast? = some 10 then 1 else 0 := by
  unfold countTyped typed
  by_cases back : key = keyBackspaceCode
  · subst back
    rw [count_dropLast queue]
    simp [keyBackspaceCode, keyEnterCode]
  · by_cases del : key = keyDeleteCode
    · subst del
      simp [keyBackspaceCode, keyDeleteCode, keyEnterCode]
    · by_cases room : queue.length < 128
      · by_cases cleared : control ≠ 0 ∧ key = 108
        · simp [cleared, room, keyBackspaceCode, keyDeleteCode]
        · have kept : ¬ (control ≠ 0 ∧ key = 108 ∧ queue.length < 128) := fun h =>
            cleared ⟨h.1, h.2.1⟩
          by_cases code : key = 0
          · simp [code, keyBackspaceCode, keyDeleteCode, keyEnterCode]
          · by_cases enter : key = keyEnterCode
            · simp [enter, room, keyBackspaceCode, keyDeleteCode, keyEnterCode]
            · have other : key ≠ 10 := enter
              rw [if_neg kept, if_neg fun h => enter h.1, if_neg back, if_neg del,
                if_pos ⟨code, room⟩, if_neg cleared, if_neg fun h => back h.1]
              simp [other]
      · simp [back, del, room]

theorem countTyped_mono {count count' : Int} (le : count ≤ count') (queue : List UInt8)
    (key control : UInt8) :
    countTyped count queue key control ≤ countTyped count' queue key control := by
  unfold countTyped
  split_ifs
  · exact Int.le_refl 0
  · exact Int.add_le_add_right le 1
  · exact le

/-- A count that is not below the newlines of the queue stays so. -/
theorem count_typed_le {count : Int} {queue : List UInt8} {key control : UInt8}
    (newlines : queue.count 10 ≤ count) :
    (typed queue key control).count 10 ≤ countTyped count queue key control := by
  have same := count_typed queue key control
  have above := countTyped_mono newlines queue key control
  split_ifs at same <;> omega

inductive InputEvent where
  | key (key scancode control alt : UInt8)
  | switch (termNum : Fin 4)
  | read (t : Fin 4) (len : Int)
  | write (t : Fin 4) (buf : List UInt8)
  | openTerm (t : Fin 4)

/-- Characters handed to a reader, with the terminal it is attached to. -/
abbrev Delivery := Fin 4 × List UInt8

/-! ### The buffer as a queue -/

/-- The unread characters of a terminal. -/
def TermData.pending (d : TermData) : List UInt8 :=
  (List.range d.inDatEnd.toNat).map fun i : Nat => d.inBuf i

@[simp] theorem TermData.length_pending (d : TermData) : d.pending.length = d.inDatEnd.toNat := by
  simp [pending]

/-- The insertion point is at the end of a buffer that does not overflow. -/
structure TermData.Settled (d : TermData) : Prop where
  index_eq : d.inDatIndex = d.inDatEnd
  nonneg : 0 ≤ d.inDatEnd
  le : d.inDatEnd ≤ 128

theorem TermData.pending_congr {d d' : TermData} (sameEnd : d.inDatEnd = d'.inDatEnd)
    (sameBuf : ∀ i, 0 ≤ i → i < d.inDatEnd → d.inBuf i = d'.inBuf i) : d.pending = d'.pending := by
  unfold pending
  rw [← sameEnd]
  refine List.map_congr_left fun i mem => sameBuf i (by omega) ?_
  have := List.mem_range.mp mem
  omega

/-- Lowering the end by one forgets the last character. -/
theorem TermData.pending_dropLast {d d' : TermData} (shorter : d'.inDatEnd = d.inDatEnd - 1)
    (sameBuf : d'.inBuf = d.inBuf) : d'.pending = d.pending.dropLast := by
  unfold pending
  rw [shorter, sameBuf]
  obtain ⟨n, eq⟩ : ∃ n : Nat, d.inDatEnd.toNat = n := ⟨_, rfl⟩
  rw [show (d.inDatEnd - 1).toNat = n - 1 by omega, eq]
  cases n with
  | zero => rfl
  | succ n => simp [List.range_succ]

/-- Storing a character at the end and raising the end appends it. -/
theorem TermData.pending_append {d d' : TermData} {key : UInt8} (nonneg : 0 ≤ d.inDatEnd)
    (longer : d'.inDatEnd = d.inDatEnd + 1)
    (stored : d'.inBuf = Function.update d.inBuf d.inDatEnd key) :
    d'.pending = d.pending ++ [key] := by
  unfold pending
  rw [longer, show (d.inDatEnd + 1).toNat = d.inDatEnd.toNat + 1 by omega, List.range_succ,
    List.map_append, stored]
  refine congrArg₂ (· ++ ·) (List.map_congr_left fun i mem => ?_) ?_
  · have := List.mem_range.mp mem
    exact Function.update_of_ne (by omega) _ _
  · simp [show max d.inDatEnd 0 = d.inDatEnd by omega]

/-- Dropping characters moves the window to the right. -/
theorem TermData.pending_drop (d : TermData) (n : Nat) :
    d.pending.drop n =
      (List.range (d.inDatEnd.toNat - n)).map fun j : Nat => d.inBuf ((n : Int) + j) := by
  refine List.ext_getElem (by simp) fun j _ _ => ?_
  simp [pending]

/-- A terminal with nothing typed. -/
def TermData.flushed (d : TermData) : TermData :=
  { d with
    inBuf := fun i => if 0 ≤ i ∧ i < 128 then 0 else d.inBuf i
    inDatIndex := 0, inDatEnd := 0, inDatNrRet := 0 }

theorem TermData.flushed_settled (d : TermData) : d.flushed.Settled :=
  ⟨rfl, Int.le_refl 0, show (0 : Int) ≤ 128 by decide⟩

theorem TermData.flushed_flushed (d : TermData) : d.flushed.flushed = d.flushed := by
  simp only [flushed, TermData.mk.injEq, and_true, true_and]
  funext i
  split_ifs <;> rfl

@[simp] theorem TermData.flushed_pending (d : TermData) : d.flushed.pending = [] := by
  simp [pending, flushed]

/-- The rest of a line moved to the front of a buffer: what `d` holds from place `n` on is
stored over `buf`. -/
def TermData.movedFront (d : TermData) (n : Nat) (buf : Int → UInt8) : Int → UInt8 :=
  fun i => if 0 ≤ i ∧ i < d.inDatEnd - n then d.inBuf (n + i) else buf i

/-- The copying loop delivers the buffer up to the first newline. -/
theorem readLine_eq (inBuf : Int → UInt8) (n : Nat) (i : Int) :
    (Terms.readLine inBuf n i).1 =
      let window := (List.range n).map fun k : Nat => inBuf (i + k)
      window.take (window.idxOf 10 + 1) := by
  induction n generalizing i with
  | zero => rfl
  | succ n ih =>
      have shift : ((List.range (n + 1)).map fun k : Nat => inBuf (i + k)) =
          inBuf i :: (List.range n).map fun k : Nat => inBuf (i + 1 + k) := by
        simp [List.range_succ_eq_map, Function.comp_def, Int.add_assoc, Int.add_comm 1]
      simp only [shift, Terms.readLine]
      by_cases newline : inBuf i = 10
      · simp [newline]
      · simp [newline, ih]

/-- `cr_read` counts the newlines delivered. -/
theorem readLine_count (inBuf : Int → UInt8) (n : Nat) (i : Int) :
    (Terms.readLine inBuf n i).2 = (Terms.readLine inBuf n i).1.count 10 := by
  induction n generalizing i with
  | zero => rfl
  | succ n ih =>
      by_cases newline : inBuf i = 10
      · simp [Terms.readLine, newline]
      · simp [Terms.readLine, newline, ih]

theorem take_idxOf_take (queue : List UInt8) (n : Nat) :
    (queue.take n).take ((queue.take n).idxOf 10 + 1) =
      queue.take (min n (queue.idxOf 10 + 1)) := by
  induction queue generalizing n with
  | nil => simp
  | cons c queue ih =>
      cases n with
      | zero => simp
      | succ n =>
          by_cases newline : c = 10
          · simp [newline]
          · simp [newline, ih, Nat.add_min_add_right]

/-- A reader is given the first `lineLength` characters of its terminal's input. -/
theorem readLine_pending (d : TermData) (len : Int) :
    (Terms.readLine d.inBuf (min d.inDatEnd len).toNat 0).1 =
      d.pending.take (lineLength d.pending len) := by
  have window : ((List.range (min d.inDatEnd len).toNat).map fun k : Nat => d.inBuf (0 + k)) =
      d.pending.take len.toNat := by
    have room : (min d.inDatEnd len).toNat = min len.toNat d.inDatEnd.toNat := by omega
    simp [TermData.pending, ← List.map_take, List.take_range, room]
  have clipped : lineLength d.pending len =
      min (min len.toNat (d.pending.idxOf 10 + 1)) d.pending.length := by
    unfold lineLength
    omega
  simp only [readLine_eq, window, take_idxOf_take]
  rw [clipped, ← List.take_eq_take_min]

namespace Terms

theorem input_pending (s : Terms) (t : Fin 4) : (s.input t).pending = (s.term t).pending := rfl

/-! ### What each input routine does to the buffers -/

/-- The whole effect on the input of the terminals: the data of `t` becomes `d`, and no
access leaves the input buffers. -/
structure SetsInput (t : Fin 4) (d : TermData) (s s' : Terms) : Prop where
  active_eq : s'.activeTerm = s.activeTerm
  input_eq : s'.input = Function.update s.input t d
  offBuf_eq : s'.offBuf = s.offBuf

namespace SetsInput

variable {t : Fin 4} {d d' : TermData} {s s' s'' : Terms}

theorem refl (t : Fin 4) (s : Terms) : SetsInput t (s.input t) s s :=
  ⟨rfl, by simp, rfl⟩

theorem trans (h : SetsInput t d s s') (k : SetsInput t d' s' s'') : SetsInput t d' s s'' where
  active_eq := k.active_eq.trans h.active_eq
  input_eq := by rw [k.input_eq, h.input_eq, Function.update_idem]
  offBuf_eq := k.offBuf_eq.trans h.offBuf_eq

theorem own (h : SetsInput t d s s') : s'.input t = d := by
  rw [h.input_eq, Function.update_self]

theorem other (h : SetsInput t d s s') {u : Fin 4} (ne : u ≠ t) : s'.input u = s.input u := by
  rw [h.input_eq, Function.update_of_ne ne]

/-- Drawing afterwards makes no difference. -/
theorem draws (h : SetsInput t d s s') {u : Fin 4} (k : Draws u s' s'') : SetsInput t d s s'' where
  active_eq := k.active_eq.trans h.active_eq
  input_eq := k.input_funext.trans h.input_eq
  offBuf_eq := k.offBuf_eq.trans h.offBuf_eq

/-- Nor does drawing before. -/
theorem after {u : Fin 4} (k : Draws u s s') (h : SetsInput t d s' s'') : SetsInput t d s s'' where
  active_eq := h.active_eq.trans k.active_eq
  input_eq := by rw [h.input_eq, k.input_funext]
  offBuf_eq := h.offBuf_eq.trans k.offBuf_eq

end SetsInput

theorem setsInput_modify (s : Terms) (t : Fin 4) (f : TermData → TermData)
    (blind : ∀ d, { f d with curX := 0, curY := 0 } = f { d with curX := 0, curY := 0 }) :
    SetsInput t (f (s.input t)) s (s.modify t f) where
  active_eq := rfl
  input_eq := by
    funext u
    by_cases own : u = t
    · subst own
      simpa [input, modify] using blind (s.term u)
    · simp [input, modify, own]
  offBuf_eq := rfl

theorem touchBuf_offBuf {s : Terms} {i : Int} (lo : 0 ≤ i) (hi : i < 128) :
    (s.touchBuf i).offBuf = s.offBuf := by
  simp [touchBuf, lo, hi]

theorem setsInput_bufPut (s : Terms) (t : Fin 4) {i : Int} (c : UInt8) (lo : 0 ≤ i)
    (hi : i < 128) :
    SetsInput t { s.input t with inBuf := Function.update (s.input t).inBuf i c } s
      (s.bufPut t i c) := by
  obtain ⟨active, input, offBuf⟩ := setsInput_modify (s.touchBuf i) t
    (fun d => { d with inBuf := Function.update d.inBuf i c }) fun _ => rfl
  exact ⟨active, input, offBuf.trans (touchBuf_offBuf lo hi)⟩

theorem setsInput_bufCopy (s : Terms) (dst src : Fin 4) {i j : Int} (lo : 0 ≤ i) (hi : i < 128)
    (fromLo : 0 ≤ j) (fromHi : j < 128) :
    SetsInput dst
      { s.input dst with inBuf := Function.update (s.input dst).inBuf i ((s.input src).inBuf j) } s
      (s.bufCopy dst i src j) := by
  obtain ⟨active, input, offBuf⟩ :=
    setsInput_bufPut (s.touchBuf j) dst ((s.term src).inBuf j) lo hi
  exact ⟨active, input, offBuf.trans (touchBuf_offBuf fromLo fromHi)⟩

theorem setsInput_zeroBuf (s : Terms) (t : Fin 4) (n : Int) (nonneg : 0 ≤ n) (fits : n ≤ 128) :
    SetsInput t
      { s.input t with inBuf := fun i => if 0 ≤ i ∧ i < n then 0 else (s.input t).inBuf i } s
      (forRange 0 n (fun i s => s.bufPut t i 0) s) := by
  -- after `j` rounds the first `j` places are zero
  refine forRange_induction (fun j s' => SetsInput t { s.input t with
    inBuf := fun i => if 0 ≤ i ∧ i < j then 0 else (s.input t).inBuf i } s s') s nonneg ?_ ?_
  · have none : ∀ i : Int, ¬ (0 ≤ i ∧ i < 0) := by omega
    simpa [none] using SetsInput.refl t s
  · intro j s' lo hi zeroed
    have next := zeroed.trans (setsInput_bufPut s' t 0 lo (by omega))
    rw [zeroed.own, update_filled lo] at next
    exact next

/-- Flushing zeroes the buffer and its counts. -/
theorem setsInput_flushInput (s : Terms) (t : Fin 4) :
    SetsInput t (s.input t).flushed s (s.flushInput t) := by
  have zeroed := setsInput_zeroBuf s t 128 (by decide) (Int.le_refl 128)
  have reset := zeroed.trans (setsInput_modify _ t
    (fun d => { d with inDatIndex := 0, inDatEnd := 0, inDatNrRet := 0 }) fun _ => rfl)
  rw [zeroed.own] at reset
  exact reset

/-- Clearing a terminal also discards what was typed there. -/
theorem setsInput_terminalClear (s : Terms) (t : Fin 4) :
    SetsInput t (s.input t).flushed s (s.terminalClear t) := by
  have blanked := (paints_blankCells s t).draws t
  have flushed := SetsInput.after blanked (setsInput_flushInput (s.blankCells t) t)
  rw [blanked.input_eq] at flushed
  have homed := draws_modify ((s.blankCells t).flushInput t) t
    (fun d => { d with curX := 0, curY := 0 }) fun _ => rfl
  exact flushed.draws (homed.trans ((paints_terminalRefresh _ t).draws t))

/-- Opening a terminal flushes it and marks it active. -/
theorem setsInput_terminalOpen (s : Terms) (t : Fin 4) (unused : (s.input t).usrCount = 0) :
    SetsInput t { (s.input t).flushed with isActive := 1 } s (s.terminalOpen t) := by
  have eq : s.terminalOpen t = ((s.terminalClear t).flushInput t).modify t
      fun d => { d with isActive := 1 } := if_neg fun used => used unused
  have cleared := setsInput_terminalClear s t
  have flushed := cleared.trans (setsInput_flushInput (s.terminalClear t) t)
  rw [cleared.own, TermData.flushed_flushed] at flushed
  have marked := flushed.trans
    (setsInput_modify _ t (fun d => { d with isActive := 1 }) fun _ => rfl)
  rw [flushed.own] at marked
  rw [eq]
  exact marked

/-- With the insertion point at the end, backspace only steps back. -/
theorem setsInput_eraseInput (s : Terms) (t : Fin 4)
    (atEnd : (s.input t).inDatIndex = (s.input t).inDatEnd) :
    SetsInput t
      { s.input t with
        inDatIndex := (s.input t).inDatIndex - 1, inDatEnd := (s.input t).inDatEnd - 1 } s
      (s.eraseInput t) := by
  have atEnd' : (s.term t).inDatIndex = (s.term t).inDatEnd := atEnd
  simp only [eraseInput]
  rw [forRange_empty (by simp [modify, atEnd'])]
  have stepped := setsInput_modify s t (fun d => { d with inDatIndex := d.inDatIndex - 1 })
    fun _ => rfl
  have shortened := stepped.trans (setsInput_modify _ t
    (fun d => { d with inDatEnd := d.inDatEnd - 1 }) fun _ => rfl)
  rw [stepped.own] at shortened
  exact shortened

/-- With the insertion point at the end, any other key is stored there. -/
theorem setsInput_insertInput (s : Terms) (t : Fin 4) (key : UInt8)
    (settled : (s.input t).Settled) (room : (s.input t).inDatEnd < 128) :
    SetsInput t
      { s.input t with
        inDatIndex := (s.input t).inDatIndex + 1, inDatEnd := (s.input t).inDatEnd + 1
        inBuf := Function.update (s.input t).inBuf (s.input t).inDatEnd key
        inDatNrRet := (s.input t).inDatNrRet + if key = keyEnterCode then 1 else 0 } s
      (s.insertInput t key) := by
  have atEnd : (s.term t).inDatIndex = (s.term t).inDatEnd := settled.index_eq
  have grown := setsInput_modify s t
    (fun d => { d with inDatEnd := d.inDatEnd + 1, inDatIndex := d.inDatIndex + 1 }) fun _ => rfl
  have place : ((s.modify t fun d => { d with
      inDatEnd := d.inDatEnd + 1, inDatIndex := d.inDatIndex + 1 }).term t).inDatIndex - 1 =
      (s.input t).inDatEnd := by
    simp [modify, atEnd, input]
  have stored := grown.trans (setsInput_bufPut _ t key settled.nonneg room)
  rw [grown.own] at stored
  simp only [insertInput]
  rw [forRange_empty (by simp [modify, atEnd]), place]
  split_ifs with enter
  · have counted := stored.trans (setsInput_modify _ t
      (fun d => { d with inDatNrRet := d.inDatNrRet + 1 }) fun _ => rfl)
    rw [stored.own] at counted
    exact counted
  · simpa using stored

/-- A key changes the input of a terminal as it changes the queue and the count. -/
structure Keyed (d d' : TermData) (key control : UInt8) : Prop where
  settled : d'.Settled
  pending_eq : d'.pending = typed d.pending key control
  returns_eq : d'.inDatNrRet = countTyped d.inDatNrRet d.pending key control
  isActive_eq : d'.isActive = d.isActive
  usrCount_eq : d'.usrCount = d.usrCount

/-- The switch of `input_process_key`; the control key is looked at only when the key is
echoed. -/
theorem setsInput_editInput (s : Terms) (t : Fin 4) (key : UInt8)
    (settled : (s.input t).Settled) :
    ∃ d, SetsInput t d s (s.editInput t key) ∧ Keyed (s.input t) d key 0 := by
  obtain ⟨index, nonneg, le⟩ := settled
  have kept (same : typed (s.input t).pending key 0 = (s.input t).pending)
      (refused : key = keyEnterCode → 128 ≤ (s.input t).pending.length) :
      ∃ d, SetsInput t d s s ∧ Keyed (s.input t) d key 0 :=
    ⟨s.input t, .refl t s, ⟨index, nonneg, le⟩, same.symm, (countTyped_refused refused).symm,
      rfl, rfl⟩
  simp only [editInput]
  split_ifs with back empty del behind ordinary
  · have nothing : (s.input t).pending = [] := by
      have : (s.input t).inDatEnd = 0 := index.symm.trans empty
      simp [TermData.pending, this]
    exact kept (by simp [typed, back, nothing])
      fun enter => absurd (back.symm.trans enter) (by decide)
  · have positive : (s.input t).inDatIndex ≠ 0 := empty
    refine ⟨_, setsInput_eraseInput s t index, ⟨?_, ?_, ?_⟩, ?_, ?_, rfl, rfl⟩
    · exact congrArg (· - 1) index
    · exact Int.sub_nonneg_of_le (by omega)
    · exact Int.le_trans (Int.sub_le_self _ (by decide)) le
    · rw [typed, if_pos back]
      exact TermData.pending_dropLast rfl rfl
    · exact (countTyped_refused fun enter => absurd (back.symm.trans enter) (by decide)).symm
  · -- delete never has anything behind the insertion point
    have stuck : (s.term t).inDatIndex = (s.term t).inDatEnd := index
    omega
  · exact kept (by rw [typed, if_neg back, if_pos del])
      fun enter => absurd (del.symm.trans enter) (by decide)
  · have room : (s.input t).inDatEnd < 128 := ordinary.2
    have short : (s.input t).pending.length < 128 := by
      rw [TermData.length_pending]
      omega
    have appended : typed (s.input t).pending key 0 = (s.input t).pending ++ [key] := by
      rw [typed, if_neg back, if_neg del, if_pos ⟨ordinary.1, short⟩, if_neg fun held => held.1 rfl]
    refine ⟨_, setsInput_insertInput s t key ⟨index, nonneg, le⟩ room, ⟨?_, ?_, ?_⟩, ?_, ?_,
      rfl, rfl⟩
    · exact congrArg (· + 1) index
    · exact Int.le_add_one nonneg
    · exact Int.add_one_le_of_lt room
    · rw [appended]
      exact TermData.pending_append nonneg rfl rfl
    · rw [countTyped_zero]
      by_cases enter : key = keyEnterCode
      · simp only [enter, short, and_self, if_true]
      · simp [enter]
  · have full : key ≠ 0 → 128 ≤ (s.input t).pending.length := by
      intro code
      have none : ¬ (s.input t).inDatEnd < 128 := fun room => ordinary ⟨code, room⟩
      rw [TermData.length_pending]
      omega
    have refused : ¬ (key ≠ 0 ∧ (s.input t).pending.length < 128) := fun ⟨code, short⟩ =>
      Nat.not_lt_of_le (full code) short
    refine kept (by rw [typed, if_neg back, if_neg del, if_neg refused]) fun enter => full ?_
    rw [enter]
    decide

/-- Ctrl+L. -/
theorem terminalHandleKey_clear (s : Terms) (t : Fin 4) {scancode control alt : UInt8}
    (held : control ≠ 0) :
    s.terminalHandleKey t 108 scancode control alt = (s.terminalClear t).terminalRefresh t := by
  simp [terminalHandleKey, handleDefault, keyBackspaceCode, keyDeleteCode, keyEnterCode,
    keyTabCode, held]

theorem isModified_letter {s : Terms} {t : Fin 4} :
    s.isModified t 108 = true ↔ (s.input t).pending.length < 128 := by
  have : s.isModified t 108 = true ↔ (s.input t).inDatEnd < 128 := by
    simp [isModified, keyBackspaceCode, keyDeleteCode, input]
  rw [this, TermData.length_pending]
  omega

/-- A key accepted by a terminal changes its input as `typed` and `countTyped` say. -/
theorem setsInput_acceptKey (s : Terms) (t : Fin 4) (key scancode control alt : UInt8)
    (settled : (s.input t).Settled) :
    ∃ d, SetsInput t d s (s.acceptKey t key scancode control alt) ∧
      Keyed (s.input t) d key control := by
  obtain ⟨d, edited, keyed⟩ := setsInput_editInput s t key settled
  unfold Terms.acceptKey
  by_cases clears : control ≠ 0 ∧ (if s.isModified t key then key else 0) = 108
  · -- Ctrl+L: the letter is stored first and then cleared with the rest
    obtain ⟨held, echoed⟩ := clears
    rw [echoed, terminalHandleKey_clear _ t held]
    split_ifs at echoed with modified
    · subst echoed
      have room := isModified_letter.mp modified
      have cleared := (edited.trans (setsInput_terminalClear (s.editInput t 108) t)).draws
        ((paints_terminalRefresh _ t).draws t)
      rw [edited.own] at cleared
      refine ⟨d.flushed, cleared, d.flushed_settled, ?_, ?_, keyed.isActive_eq, keyed.usrCount_eq⟩
      · rw [typed_clear held room, TermData.flushed_pending]
      · rw [countTyped, if_pos ⟨held, rfl, room⟩]
        rfl
    · cases echoed
  · have plain : control ≠ 0 → key = 108 → 128 ≤ (s.input t).pending.length := by
      rintro held rfl
      by_contra room
      exact clears ⟨held, if_pos (isModified_letter.mpr (Nat.lt_of_not_le room))⟩
    refine ⟨d, edited.draws (draws_terminalHandleKey _ t clears), keyed.settled, ?_, ?_,
      keyed.isActive_eq, keyed.usrCount_eq⟩
    · rw [typed_plain plain]
      exact keyed.pending_eq
    · rw [countTyped_plain plain]
      exact keyed.returns_eq

/-! ### Reading -/

/-- The shifting loop of `terminal_read`: it copies from the reader's buffer into
the buffer of the visible terminal. Reading `n + j` is never behind the writes at
`0 .. j - 1`, so the loop is right when the two buffers are one. -/
theorem setsInput_shiftLoop (s : Terms) (t : Fin 4) (n : Nat) (m : Int) (nonneg : 0 ≤ m)
    (fits : n + m ≤ 128) :
    SetsInput s.activeTerm
      { s.input s.activeTerm with
        inBuf := fun i => if 0 ≤ i ∧ i < m then (s.input t).inBuf (n + i)
          else (s.input s.activeTerm).inBuf i } s
      (forRange 0 m (fun j s => s.bufCopy s.activeTerm j t (n + j)) s) := by
  refine forRange_induction (fun j s' => SetsInput s.activeTerm { s.input s.activeTerm with
    inBuf := fun i => if 0 ≤ i ∧ i < j then (s.input t).inBuf (n + i)
      else (s.input s.activeTerm).inBuf i } s s') s nonneg ?_ ?_
  · have none : ∀ i : Int, ¬ (0 ≤ i ∧ i < 0) := by omega
    simpa [none] using SetsInput.refl s.activeTerm s
  · intro j s' lo hi shifted
    have source : (s'.input t).inBuf (n + j) = (s.input t).inBuf (n + j) := by
      have behind : ¬ (0 ≤ (n : Int) + j ∧ (n : Int) + j < j) := by omega
      by_cases own : t = s.activeTerm
      · subst own
        rw [shifted.own]
        exact if_neg behind
      · rw [shifted.other own]
    have next := shifted.trans (setsInput_bufCopy s' s.activeTerm t (i := j) (j := n + j) lo
      (by omega) (by omega) (by omega))
    rw [source, shifted.own, update_filled lo] at next
    rw [shifted.active_eq]
    exact next

/-- What a read of `chars` does to the input of the terminals: the counts of the
reader's terminal go down, and the rest of its line is moved to the front of the
*visible* terminal's buffer. -/
structure ReadEffect (s s' : Terms) (t : Fin 4) (chars : List UInt8) : Prop where
  chars_eq : chars = (s.input t).pending.take chars.length
  active_eq : s'.activeTerm = s.activeTerm
  offBuf_eq : s'.offBuf = s.offBuf
  input_eq : ∀ u, s'.input u =
    { Function.update s.input t { s.input t with
        inDatIndex := (s.input t).inDatEnd - chars.length
        inDatEnd := (s.input t).inDatEnd - chars.length
        inDatNrRet := (s.input t).inDatNrRet - chars.count 10 } u with
      inBuf := if u = s.activeTerm then (s.input t).movedFront chars.length (s.input u).inBuf
        else (s.input u).inBuf }

theorem lineLength_le (queue : List UInt8) (len : Int) : lineLength queue len ≤ queue.length := by
  unfold lineLength
  omega

/-- A read with a newline to its count does not wait. -/
theorem terminalRead_returns {s : Terms} {t : Fin 4} (ready : (s.term t).inDatNrRet ≠ 0)
    (len : Int) : ∃ r, s.terminalRead t len = some r := by
  simp only [terminalRead, if_neg ready]
  exact ⟨_, rfl⟩

/-- A read takes the first `lineLength` characters, and has the effect described. -/
theorem terminalRead_effect {s s' : Terms} {t : Fin 4} {len : Int} {chars : List UInt8}
    (settled : (s.input t).Settled) (read : s.terminalRead t len = some (chars, s')) :
    chars.length = lineLength (s.input t).pending len ∧ ReadEffect s s' t chars := by
  obtain ⟨index, nonneg, le⟩ := settled
  obtain ⟨n, taken⟩ : ∃ n, n = lineLength (s.input t).pending len := ⟨_, rfl⟩
  have line : (readLine (s.term t).inBuf (min (s.term t).inDatEnd len).toNat 0).1 =
      (s.input t).pending.take n := taken ▸ readLine_pending (s.input t) len
  have short : n ≤ (s.input t).inDatEnd.toNat := by
    rw [← TermData.length_pending, taken]
    exact lineLength_le _ len
  have length : ((s.input t).pending.take n).length = n := by simp [short]
  simp only [terminalRead] at read
  split at read
  · cases read
  · simp only [readLine_count, line, length, Option.some.injEq, Prod.mk.injEq] at read
    obtain ⟨rfl, rfl⟩ := read
    have rest : 0 ≤ (s.input t).inDatEnd - n := by omega
    have inside : (s.offBuf || decide (128 < n)) = s.offBuf := by
      simp [show ¬ 128 < n by omega]
    rw [inside, length]
    have moved := setsInput_shiftLoop s t n ((s.input t).inDatEnd - n) rest (by omega)
    -- the loop changes the visible terminal's buffer only
    have shifted : ∀ u, (forRange 0 ((s.input t).inDatEnd - n)
        (fun j s => s.bufCopy s.activeTerm j t (n + j)) s).input u =
        { s.input u with inBuf := if u = s.activeTerm then
            (s.input t).movedFront n (s.input u).inBuf else (s.input u).inBuf } := by
      intro u
      by_cases visible : u = s.activeTerm
      · rw [visible, moved.own, if_pos rfl]
        rfl
      · rw [moved.other visible, if_neg visible]
    have closed := setsInput_modify
      (forRange 0 ((s.input t).inDatEnd - n) (fun j s => s.bufCopy s.activeTerm j t (n + j)) s) t
      (fun d => { d with
        inDatEnd := max 0 ((s.input t).inDatEnd - n), inDatIndex := d.inDatIndex - n
        inDatNrRet := d.inDatNrRet - ((s.input t).pending.take n).count 10 }) fun _ => rfl
    refine ⟨taken, (congrArg (List.take · _) length).symm, closed.active_eq.trans moved.active_eq,
      closed.offBuf_eq.trans moved.offBuf_eq, fun u => ?_⟩
    rw [length]
    by_cases own : u = t
    · subst own
      refine closed.own.trans ?_
      rw [shifted, Function.update_self, Int.max_eq_right rest]
      simp only [index]
    · refine (closed.other own).trans ?_
      rw [shifted, Function.update_of_ne own]

namespace ReadEffect

variable {s s' : Terms} {t : Fin 4} {chars : List UInt8}

theorem own (h : ReadEffect s s' t chars) :
    s'.input t =
      { s.input t with
        inDatIndex := (s.input t).inDatEnd - chars.length
        inDatEnd := (s.input t).inDatEnd - chars.length
        inDatNrRet := (s.input t).inDatNrRet - chars.count 10
        inBuf := if t = s.activeTerm then (s.input t).movedFront chars.length (s.input t).inBuf
          else (s.input t).inBuf } := by
  rw [h.input_eq t, Function.update_self]

/-- The visible terminal, if it is not the reader's, has its buffer overwritten. -/
theorem visible (h : ReadEffect s s' t chars) (background : t ≠ s.activeTerm) :
    s'.input s.activeTerm = { s.input s.activeTerm with
      inBuf := (s.input t).movedFront chars.length (s.input s.activeTerm).inBuf } := by
  rw [h.input_eq, Function.update_of_ne background.symm, if_pos rfl]

/-- A terminal neither read nor visible keeps its data. -/
theorem other (h : ReadEffect s s' t chars) {u : Fin 4} (ne : u ≠ t) (hidden : u ≠ s.activeTerm) :
    s'.input u = s.input u := by
  rw [h.input_eq, Function.update_of_ne ne, if_neg hidden]

theorem length_le (h : ReadEffect s s' t chars) : chars.length ≤ (s.input t).pending.length := by
  rw [h.chars_eq]
  exact List.length_take_le' _ _

theorem settled (h : ReadEffect s s' t chars) (before : ∀ u, (s.input u).Settled) (u : Fin 4) :
    (s'.input u).Settled := by
  rw [h.input_eq u]
  by_cases own : u = t
  · subst own
    have short := h.length_le
    rw [TermData.length_pending] at short
    obtain ⟨_, nonneg, le⟩ := before u
    rw [Function.update_self]
    exact ⟨rfl, Int.sub_nonneg_of_le (by omega), Int.sub_le_of_sub_le (by omega)⟩
  · rw [Function.update_of_ne own]
    obtain ⟨eq, nonneg, le⟩ := before u
    exact ⟨eq, nonneg, le⟩

theorem flags (h : ReadEffect s s' t chars) (u : Fin 4) :
    (s'.input u).isActive = (s.input u).isActive ∧
      (s'.input u).usrCount = (s.input u).usrCount := by
  rw [h.input_eq u]
  constructor
  · apply update_field (·.isActive)
    rfl
  · apply update_field (·.usrCount)
    rfl

/-- On the visible terminal the rest of the line is left. -/
theorem pending_visible (h : ReadEffect s s' t chars) (visible : t = s.activeTerm) :
    (s'.input t).pending = (s.input t).pending.drop chars.length := by
  rw [h.own, if_pos visible, TermData.pending_drop, TermData.pending, Int.toNat_sub']
  refine List.map_congr_left fun j mem => ?_
  have inside := List.mem_range.mp mem
  exact if_pos (by omega)

/-- On a terminal in the background the front of the buffer is left instead. -/
theorem pending_background (h : ReadEffect s s' t chars) (background : t ≠ s.activeTerm) :
    (s'.input t).pending =
      (s.input t).pending.take ((s.input t).pending.length - chars.length) := by
  rw [TermData.length_pending, h.own, if_neg background]
  unfold TermData.pending
  rw [Int.toNat_sub', ← List.map_take, List.take_range, Nat.min_eq_left (Nat.sub_le _ _)]

/-- What the visible terminal holds after a read in the background. -/
theorem pending_overwritten (h : ReadEffect s s' t chars) (background : t ≠ s.activeTerm) :
    (s'.input s.activeTerm).pending =
      ((s.input t).pending.drop chars.length).take (s.input s.activeTerm).pending.length ++
        (s.input s.activeTerm).pending.drop ((s.input t).pending.length - chars.length) := by
  rw [h.visible background]
  refine List.ext_getElem ?_ fun j inside _ => ?_
  · simp
    omega
  · have within : j < (s.input s.activeTerm).inDatEnd.toNat := by simpa using inside
    rw [List.getElem_append]
    simp only [TermData.pending, TermData.movedFront, List.getElem_map, List.getElem_range,
      List.length_take, List.length_drop, List.length_map, List.length_range, List.getElem_take,
      List.getElem_drop, Nat.cast_add]
    split_ifs with moved taken
    · rfl
    · omega
    · omega
    · congr 1
      omega

end ReadEffect

/-! ### Runs -/

/-- The kernel's reaction to an event, with what a reader is given; a read that has
to wait for a newline does not return. -/
def inputStep (s : Terms) : InputEvent → Option (Terms × List Delivery)
  | .key key scancode control alt => some (s.inputProcessKey key scancode control alt, [])
  | .switch termNum => some (s.terminalSwitch termNum, [])
  | .read t len => (s.terminalRead t len).map fun r => (r.2, [(t, r.1)])
  | .write t buf => some (s.terminalWrite t buf, [])
  | .openTerm t => some (s.terminalOpen t, [])

/-- A switch changes which terminal is visible and the `is_active` flags. -/
structure Switches (n : Fin 4) (s s' : Terms) : Prop where
  active_eq : s'.activeTerm = n
  data_eq : ∀ u,
    { s'.input u with isActive := 0 } = ({ s.input u with isActive := 0 } : TermData)
  isOpen : (s.input s.activeTerm).isActive ≠ 0 → (s'.input n).isActive ≠ 0
  offBuf_eq : s'.offBuf = s.offBuf

theorem switches_terminalSwitch (s : Terms) (n : Fin 4) : Switches n s (s.terminalSwitch n) := by
  simp only [Terms.terminalSwitch]
  split_ifs with stay
  · subst stay
    exact ⟨rfl, fun _ => rfl, id, rfl⟩
  · refine ⟨?_, fun u => ?_, fun _ => ?_, ?_⟩
    · rw [(paints_terminalRefresh _ n).active_eq]
    · rw [((paints_terminalRefresh _ n).draws n).input_eq]
      by_cases new : u = n
      · subst new
        simp [input, modify, stay]
      · by_cases old : u = s.activeTerm
        · subst old
          simp [input, modify, new]
        · simp [input, modify, new, old]
    · rw [((paints_terminalRefresh _ n).draws n).input_eq]
      simp [input, modify]
    · rw [(paints_terminalRefresh _ n).offBuf_eq]
      rfl

/-- A run whose events are all allowed in the states they meet. -/
inductive InputRun (allowed : Terms → InputEvent → Prop) (s : Terms) :
    List InputEvent → List Delivery → Terms → Prop where
  | nil : InputRun allowed s [] [] s
  | snoc {es : List InputEvent} {out out' : List Delivery} {s₁ s₂ : Terms} {e : InputEvent} :
      InputRun allowed s es out s₁ → allowed s₁ e → s₁.inputStep e = some (s₂, out') →
      InputRun allowed s (es ++ [e]) (out ++ out') s₂

theorem InputRun.mono {allowed allowed' : Terms → InputEvent → Prop} {s s' : Terms}
    {es : List InputEvent} {out : List Delivery} (run : InputRun allowed s es out s')
    (weaker : ∀ s e, allowed s e → allowed' s e) : InputRun allowed' s es out s' := by
  induction run with
  | nil => exact .nil
  | snoc _ safe step ih => exact ih.snoc (weaker _ _ safe) step

/-- What holds of the input in every state after boot. -/
structure Orderly (s : Terms) : Prop where
  settled : ∀ t, (s.input t).Settled
  isOpen : (s.input s.activeTerm).isActive ≠ 0
  unused : ∀ t, (s.input t).usrCount = 0

namespace Orderly

variable {s s' : Terms}

theorem keeps (h : Orderly s) (keeps : KeepsInput s s') : Orderly s' where
  settled t := keeps.input_eq t ▸ h.settled t
  isOpen := by
    rw [keeps.active_eq, keeps.input_eq]
    exact h.isOpen
  unused t := keeps.input_eq t ▸ h.unused t

theorem sets (h : Orderly s) {t : Fin 4} {d : TermData} (sets : SetsInput t d s s')
    (settled : d.Settled) (stays : (s.input t).isActive ≠ 0 → d.isActive ≠ 0)
    (unused : d.usrCount = 0) : Orderly s' := by
  refine ⟨fun u => ?_, ?_, fun u => ?_⟩
  · by_cases own : u = t
    · rwa [own, sets.own]
    · rw [sets.other own]
      exact h.settled u
  · rw [sets.active_eq]
    by_cases own : s.activeTerm = t
    · rw [own, sets.own]
      exact stays (own ▸ h.isOpen)
    · rw [sets.other own]
      exact h.isOpen
  · by_cases own : u = t
    · rwa [own, sets.own]
    · rw [sets.other own]
      exact h.unused u

theorem switches (h : Orderly s) {n : Fin 4} (switches : Switches n s s') : Orderly s' where
  settled u := by
    have same := switches.data_eq u
    have index : (s'.input u).inDatIndex = (s.input u).inDatIndex :=
      congrArg (·.inDatIndex) same
    have atEnd : (s'.input u).inDatEnd = (s.input u).inDatEnd := congrArg (·.inDatEnd) same
    obtain ⟨eq, nonneg, le⟩ := h.settled u
    exact ⟨by omega, by omega, by omega⟩
  isOpen := by
    rw [switches.active_eq]
    exact switches.isOpen h.isOpen
  unused u := (congrArg (·.usrCount) (switches.data_eq u)).trans (h.unused u)

theorem read (h : Orderly s) {t : Fin 4} {chars : List UInt8} (effect : ReadEffect s s' t chars) :
    Orderly s' where
  settled := effect.settled h.settled
  isOpen := by
    rw [effect.active_eq, (effect.flags s.activeTerm).1]
    exact h.isOpen
  unused u := (effect.flags u).2.trans (h.unused u)

/-- A key goes to the visible terminal, which is open. -/
theorem inputProcessKey (h : Orderly s) (key scancode control alt : UInt8) :
    s.inputProcessKey key scancode control alt =
      s.acceptKey s.activeTerm key scancode control alt :=
  if_neg h.isOpen

/-- Its buffer is all that a key changes of the input. -/
theorem setsInput_key (h : Orderly s) (key scancode control alt : UInt8) :
    ∃ d, SetsInput s.activeTerm d s (s.inputProcessKey key scancode control alt) ∧
      Keyed (s.input s.activeTerm) d key control := by
  rw [h.inputProcessKey]
  exact setsInput_acceptKey s s.activeTerm key scancode control alt (h.settled _)

/-- Every event keeps the input orderly and its accesses in the buffers, whatever the
reads do to the contents. -/
theorem inputStep (h : Orderly s) {e : InputEvent} {out : List Delivery}
    (step : s.inputStep e = some (s', out)) : Orderly s' ∧ s'.offBuf = s.offBuf := by
  cases e with
  | key key scancode control alt =>
      cases step
      obtain ⟨d, sets, keyed⟩ := h.setsInput_key key scancode control alt
      refine ⟨h.sets sets keyed.settled (fun stays => ?_) ?_, sets.offBuf_eq⟩
      · rwa [keyed.isActive_eq]
      · rw [keyed.usrCount_eq]
        exact h.unused _
  | switch termNum =>
      cases step
      have switches := switches_terminalSwitch s termNum
      exact ⟨h.switches switches, switches.offBuf_eq⟩
  | read t len =>
      simp only [Terms.inputStep, Option.map_eq_some_iff, Prod.mk.injEq] at step
      obtain ⟨⟨chars, s''⟩, read, rfl, rfl⟩ := step
      have effect := (terminalRead_effect (h.settled t) read).2
      exact ⟨h.read effect, effect.offBuf_eq⟩
  | write t buf =>
      cases step
      have draws := draws_terminalWrite s t buf
      exact ⟨h.keeps draws.toKeepsInput, draws.offBuf_eq⟩
  | openTerm t =>
      cases step
      have sets := setsInput_terminalOpen s t (h.unused t)
      obtain ⟨index, nonneg, le⟩ := (s.input t).flushed_settled
      have opened : (1 : UInt8) ≠ 0 := by decide
      exact ⟨h.sets sets ⟨index, nonneg, le⟩ (fun _ => opened) (h.unused t), sets.offBuf_eq⟩

end Orderly

/-- After boot nothing has been typed on any terminal. -/
theorem booted_input (s : Terms) (t : Fin 4) :
    (s.booted.input t).inDatIndex = 0 ∧ (s.booted.input t).inDatEnd = 0 ∧
      (s.booted.input t).inDatNrRet = 0 ∧ (s.booted.input t).usrCount = 0 := by
  have sets : SetsInput 0 _ s.terminalInit s.booted :=
    setsInput_terminalOpen s.terminalInit 0 rfl
  rw [sets.input_eq]
  refine ⟨?_, ?_, ?_, ?_⟩
  · refine (update_field (·.inDatIndex) ?_ t).trans ?_ <;> rfl
  · refine (update_field (·.inDatEnd) ?_ t).trans ?_ <;> rfl
  · refine (update_field (·.inDatNrRet) ?_ t).trans ?_ <;> rfl
  · refine (update_field (·.usrCount) ?_ t).trans ?_ <;> rfl

theorem booted_pending (s : Terms) (t : Fin 4) : (s.booted.term t).pending = [] := by
  have empty : (s.booted.term t).inDatEnd = 0 := (booted_input s t).2.1
  simp [TermData.pending, empty]

theorem booted_activeTerm (s : Terms) : s.booted.activeTerm = 0 :=
  (setsInput_terminalOpen s.terminalInit 0 rfl).active_eq

theorem orderly_booted (s : Terms) : Orderly s.booted := by
  have sets : SetsInput 0 _ s.terminalInit s.booted :=
    setsInput_terminalOpen s.terminalInit 0 rfl
  refine ⟨fun t => ?_, ?_, fun t => (booted_input s t).2.2.2⟩
  · obtain ⟨index, atEnd, _⟩ := booted_input s t
    exact ⟨by omega, by omega, by omega⟩
  · have opened : (1 : UInt8) ≠ 0 := by decide
    rw [booted_activeTerm, sets.own]
    exact opened

/-- So every state of every run is orderly, and no run leaves the buffers. -/
theorem InputRun.orderly {allowed : Terms → InputEvent → Prop} {s s' : Terms}
    {es : List InputEvent} {out : List Delivery} (run : InputRun allowed s es out s')
    (start : Orderly s) : Orderly s' ∧ s'.offBuf = s.offBuf := by
  induction run with
  | nil => exact ⟨start, rfl⟩
  | snoc _ _ step ih =>
      obtain ⟨orderly, kept⟩ := ih
      obtain ⟨orderly', kept'⟩ := orderly.inputStep step
      exact ⟨orderly', kept'.trans kept⟩

end Terms

end Linux391
