import Linux391.Drivers.InputIsolation

/-!
The line buffer of a terminal: its newline count, and its contents.

`in_dat_nr_ret` is meant to be the number of newlines buffered, so that
`terminal_read` waits exactly when there is no complete line. Two operations lose
count: backspace does not look at the character it erases, and a read in the
background leaves its own buffer unshifted and overwrites the visible terminal's.
`CountSafe` says when they do not, and `newline_count` that the count is right
exactly then.

The contents need no such condition on a terminal that stays visible: whatever
happened before, keys and reads act on the buffer as on a queue of at most 128
characters (`lineStep`).
-/

namespace Linux391

namespace Terms

/-! ### The bounded queue -/

/-- Keys other than Ctrl+L, and reads by processes of the visible terminal. -/
def LineEvent (s : Terms) : InputEvent → Prop
  | .key key _ control _ => ¬ (control ≠ 0 ∧ key = 108)
  | .read t _ => t = s.activeTerm
  | .switch _ | .write _ _ | .openTerm _ => False

/-- A queue of at most 128 characters that can be edited at its end. -/
def lineStep (queue : List UInt8) : InputEvent → List UInt8 × List (List UInt8)
  | .key key _ _ _ => (typed queue key 0, [])
  | .read _ len => (queue.drop (lineLength queue len), [queue.take (lineLength queue len)])
  | .switch _ | .write _ _ | .openTerm _ => (queue, [])

/-- The queue after a sequence of events, and what its readers were given. -/
def lineRun (queue : List UInt8) (es : List InputEvent) : List UInt8 × List (List UInt8) :=
  es.foldl (fun r e => ((lineStep r.1 e).1, r.2 ++ (lineStep r.1 e).2)) (queue, [])

/-- One event acts on the buffer of the visible terminal as on the queue. -/
theorem Orderly.lineStep {s s' : Terms} (h : Orderly s) {e : InputEvent} {out : List Delivery}
    (line : LineEvent s e) (step : s.inputStep e = some (s', out)) :
    s'.activeTerm = s.activeTerm ∧
      (s'.input s.activeTerm).pending = (Terms.lineStep (s.input s.activeTerm).pending e).1 ∧
      out = (Terms.lineStep (s.input s.activeTerm).pending e).2.map fun chars =>
        (s.activeTerm, chars) := by
  cases e with
  | key key scancode control alt =>
      cases step
      obtain ⟨d, sets, keyed⟩ := h.setsInput_key key scancode control alt
      refine ⟨sets.active_eq, ?_, rfl⟩
      rw [sets.own, keyed.pending_eq]
      exact typed_plain fun held letter => absurd ⟨held, letter⟩ line
  | read t len =>
      have visible : t = s.activeTerm := line
      simp only [Terms.inputStep, Option.map_eq_some_iff, Prod.mk.injEq] at step
      obtain ⟨⟨chars, s''⟩, read, rfl, rfl⟩ := step
      obtain ⟨length, effect⟩ := terminalRead_effect (h.settled t) read
      have taken := effect.chars_eq
      have left := effect.pending_visible visible
      rw [length] at taken left
      subst visible
      refine ⟨effect.active_eq, left, ?_⟩
      rw [taken]
      rfl
  | switch termNum => cases line
  | write t buf => cases line
  | openTerm t => cases line

theorem InputRun.lineRun {s s' : Terms} {es : List InputEvent} {out : List Delivery}
    (run : InputRun LineEvent s es out s') (start : Orderly s) :
    s'.activeTerm = s.activeTerm ∧
      (s'.input s.activeTerm).pending = (Terms.lineRun (s.input s.activeTerm).pending es).1 ∧
      out = (Terms.lineRun (s.input s.activeTerm).pending es).2.map fun chars =>
        (s.activeTerm, chars) := by
  induction run with
  | nil => exact ⟨rfl, rfl, rfl⟩
  | snoc before line step ih =>
      obtain ⟨active, pending, delivered⟩ := ih
      obtain ⟨active', pending', delivered'⟩ := (before.orderly start).1.lineStep line step
      rw [active] at active' pending' delivered'
      rw [pending] at pending' delivered'
      simp only [Terms.lineRun, List.foldl_append, List.foldl_cons, List.foldl_nil] at *
      refine ⟨active', pending', ?_⟩
      rw [delivered, delivered', List.map_append]

/-- **The line buffer is a bounded queue.** Take any state reached from boot. As long
as the visible terminal stays visible and sees only keys other than Ctrl+L and
reads by its own processes, its buffer holds the queue that the same events make
of its contents, readers are given what the queue gives them, the insertion
point is at the end of at most 128 characters, and no access leaves the input
buffers. A read made while the count is not zero returns. -/
theorem line_buffer_refines_queue {s₀ s s' : Terms} {es es' : List InputEvent}
    {out out' : List Delivery} (reached : InputRun (fun _ _ => True) s₀.booted es out s)
    (run : InputRun LineEvent s es' out' s') :
    let t := s.activeTerm
    let spec := lineRun (s.term t).pending es'
    s'.activeTerm = t ∧ (s'.term t).pending = spec.1 ∧ out' = spec.2.map (fun chars => (t, chars)) ∧
      (s'.term t).inDatIndex = spec.1.length ∧ (s'.term t).inDatEnd = spec.1.length ∧
      spec.1.length ≤ 128 ∧ s'.offBuf = s₀.offBuf ∧
      ∀ len, (s'.term t).inDatNrRet ≠ 0 → ∃ r, s'.terminalRead t len = some r := by
  intro t spec
  obtain ⟨orderly, kept⟩ := reached.orderly (orderly_booted s₀)
  obtain ⟨orderly', kept'⟩ := run.orderly orderly
  have boot : s₀.booted.offBuf = s₀.offBuf :=
    (setsInput_terminalOpen s₀.terminalInit 0 rfl).offBuf_eq
  obtain ⟨active, pending, delivered⟩ := run.lineRun orderly
  have queue : (s'.term t).pending = spec.1 := pending
  have length : spec.1.length = (s'.term t).inDatEnd.toNat := by
    rw [← queue, TermData.length_pending]
  obtain ⟨index, nonneg, le⟩ := orderly'.settled t
  have index' : (s'.term t).inDatIndex = (s'.term t).inDatEnd := index
  have nonneg' : 0 ≤ (s'.term t).inDatEnd := nonneg
  have le' : (s'.term t).inDatEnd ≤ 128 := le
  refine ⟨active, queue, delivered, by omega, by omega, by omega,
    kept'.trans (kept.trans boot), fun len ready => terminalRead_returns ready len⟩

/-- Such events do no harm to the other terminals. -/
theorem LineEvent.safeRead {s : Terms} {e : InputEvent} (line : LineEvent s e) : SafeRead s e := by
  cases e with
  | read t len => exact .inl line
  | key _ _ _ _ | switch _ | write _ _ | openTerm _ => trivial

/-- The letters `a` and `b`, of which the second is erased, and Enter. -/
def sampleEdit : List InputEvent :=
  [.key 97 0x1E 0 0, .key 98 0x30 0 0, .key keyBackspaceCode 0x0E 0 0, .key 10 0x1C 0 0]

theorem InputRun.sampleEdit : ∃ s, InputRun LineEvent blank.booted Terms.sampleEdit [] s := by
  have plain (s : Terms) (key scancode : UInt8) : LineEvent s (.key key scancode 0 0) :=
    fun held => held.1 rfl
  have booted : InputRun LineEvent blank.booted [] [] blank.booted := .nil
  have a := booted.snoc (plain _ 97 0x1E) rfl
  have b := a.snoc (plain _ 98 0x30) rfl
  have erased := b.snoc (plain _ keyBackspaceCode 0x0E) rfl
  exact ⟨_, erased.snoc (plain _ 10 0x1C) rfl⟩

/-- The line is edited and read. -/
theorem line_buffer_refines_queue_edited : ∃ s,
    InputRun LineEvent blank.booted (sampleEdit ++ [.read 0 128]) [(0, [97, 10])] s ∧
      (s.term 0).pending = [] ∧ s.offBuf = false := by
  obtain ⟨s, typing⟩ := InputRun.sampleEdit
  obtain ⟨refines, -⟩ := (typing.mono fun _ _ => LineEvent.safeRead).refines (refines_booted blank)
  obtain ⟨⟨chars, s'⟩, read⟩ := refines.read_returns (t := 0) (by decide) 128
  have visible : LineEvent s (.read 0 128) := refines.active_eq.symm
  have run := typing.snoc visible (by rw [inputStep, read]; rfl)
  obtain ⟨_, pending, delivered, _, _, _, inside, _⟩ := line_buffer_refines_queue .nil run
  rw [booted_activeTerm, booted_pending] at pending delivered
  rw [delivered] at run
  exact ⟨s', run, pending, inside⟩

/-- The line `a` typed on the first terminal after boot. -/
def sampleKeys : List InputEvent := [.key 97 0x1E 0 0, .key 10 0x1C 0 0]

def sampleLine : Terms := (blank.booted.inputProcessKey 97 0x1E 0 0).inputProcessKey 10 0x1C 0 0

theorem InputRun.sampleLine {allowed : Terms → InputEvent → Prop}
    (each : ∀ s, ∀ e ∈ sampleKeys, allowed s e) :
    InputRun allowed blank.booted sampleKeys [] sampleLine := by
  have letter : InputRun allowed blank.booted [.key 97 0x1E 0 0] []
      (blank.booted.inputProcessKey 97 0x1E 0 0) :=
    .snoc .nil (each _ (.key 97 0x1E 0 0) (by simp [sampleKeys])) rfl
  exact letter.snoc (each _ (.key 10 0x1C 0 0) (by simp [sampleKeys])) rfl

theorem lineEvent_sampleKeys (s : Terms) (e : InputEvent) (mem : e ∈ sampleKeys) :
    LineEvent s e := by
  simp only [sampleKeys, List.mem_cons, List.not_mem_nil, or_false] at mem
  obtain rfl | rfl := mem
  · exact fun held => held.1 rfl
  · exact fun held => held.1 rfl

theorem sampleLine_input :
    sampleLine.activeTerm = 0 ∧ (sampleLine.term 0).pending = [97, 10] := by
  have run := InputRun.sampleLine lineEvent_sampleKeys
  obtain ⟨active, pending, _⟩ := run.lineRun (orderly_booted blank)
  rw [booted_activeTerm] at active pending
  rw [input_pending, input_pending, booted_pending] at pending
  exact ⟨active, pending⟩

/-! ### The newline count -/

/-- `in_dat_nr_ret` of every terminal is the number of newlines it holds. -/
def Counted (s : Terms) : Prop := ∀ t, (s.term t).inDatNrRet = (s.term t).pending.count 10

/-- When an event keeps the count. A key must not erase a newline. A read in the
background must leave as many newlines at the front of its buffer as it had
unread, and must move as many to the visible terminal as it overwrites there. -/
def CountSafe (s : Terms) : InputEvent → Prop
  | .key key _ _ _ =>
      ¬ (key = keyBackspaceCode ∧ (s.term s.activeTerm).pending.getLast? = some 10)
  | .read t len =>
      t = s.activeTerm ∨
        let own := (s.term t).pending
        let shown := (s.term s.activeTerm).pending
        let n := lineLength own len
        (own.take (own.length - n)).count 10 = (own.drop n).count 10 ∧
          ((own.drop n).take shown.length).count 10 = (shown.take (own.length - n)).count 10
  | .switch _ | .write _ _ | .openTerm _ => True

namespace Counted

variable {s s' : Terms}

/-- After a change to one terminal the counts are right if that terminal's is. -/
theorem sets_iff (h : Counted s) {t : Fin 4} {d : TermData} (sets : SetsInput t d s s') :
    Counted s' ↔ d.inDatNrRet = d.pending.count 10 := by
  constructor
  · intro counted
    have own : (s'.input t).inDatNrRet = (s'.input t).pending.count 10 := counted t
    rwa [sets.own] at own
  · intro right u
    show (s'.input u).inDatNrRet = (s'.input u).pending.count 10
    by_cases own : u = t
    · rw [own, sets.own]
      exact right
    · rw [sets.other own]
      exact h u

theorem key_iff (h : Counted s) (orderly : Orderly s) (key scancode control alt : UInt8) :
    Counted (s.inputProcessKey key scancode control alt) ↔
      CountSafe s (.key key scancode control alt) := by
  obtain ⟨d, sets, keyed⟩ := orderly.setsInput_key key scancode control alt
  have before : (s.input s.activeTerm).inDatNrRet = (s.input s.activeTerm).pending.count 10 :=
    h s.activeTerm
  rw [h.sets_iff sets, keyed.returns_eq, keyed.pending_eq, before, count_typed]
  show _ ↔ ¬ (key = keyBackspaceCode ∧ (s.input s.activeTerm).pending.getLast? = some 10)
  split_ifs with erased
  · exact iff_of_false (by omega) (not_not_intro erased)
  · exact iff_of_true (by omega) erased

/-- What a reader is given and what it leaves add up. -/
theorem count_taken {t : Fin 4} {chars : List UInt8} (effect : ReadEffect s s' t chars) :
    chars.count 10 + ((s.input t).pending.drop chars.length).count 10 =
      (s.input t).pending.count 10 := by
  have split := count_take_add_drop (s.input t).pending chars.length
  rwa [← effect.chars_eq] at split

theorem read_visible (h : Counted s) {t : Fin 4} {chars : List UInt8}
    (effect : ReadEffect s s' t chars) (visible : t = s.activeTerm) : Counted s' := by
  intro u
  show (s'.input u).inDatNrRet = (s'.input u).pending.count 10
  by_cases own : u = t
  · subst own
    have before : (s.input u).inDatNrRet = (s.input u).pending.count 10 := h u
    have split := count_taken effect
    rw [effect.pending_visible visible, effect.own]
    show (s.input u).inDatNrRet - chars.count 10 = _
    omega
  · rw [effect.other own (visible ▸ own)]
    exact h u

theorem read_background (h : Counted s) {t : Fin 4} {chars : List UInt8}
    (effect : ReadEffect s s' t chars) (background : t ≠ s.activeTerm) :
    Counted s' ↔
      ((s.input t).pending.take ((s.input t).pending.length - chars.length)).count 10 =
          ((s.input t).pending.drop chars.length).count 10 ∧
        (((s.input t).pending.drop chars.length).take
            (s.input s.activeTerm).pending.length).count 10 =
          ((s.input s.activeTerm).pending.take
            ((s.input t).pending.length - chars.length)).count 10 := by
  have reader : (s'.input t).inDatNrRet = (s'.input t).pending.count 10 ↔
      ((s.input t).pending.take ((s.input t).pending.length - chars.length)).count 10 =
        ((s.input t).pending.drop chars.length).count 10 := by
    have before : (s.input t).inDatNrRet = (s.input t).pending.count 10 := h t
    have split := count_taken effect
    have returns : (s'.input t).inDatNrRet = (s.input t).inDatNrRet - chars.count 10 :=
      congrArg (·.inDatNrRet) effect.own
    rw [effect.pending_background background, returns]
    omega
  have shown : (s'.input s.activeTerm).inDatNrRet = (s'.input s.activeTerm).pending.count 10 ↔
      (((s.input t).pending.drop chars.length).take
          (s.input s.activeTerm).pending.length).count 10 =
        ((s.input s.activeTerm).pending.take
          ((s.input t).pending.length - chars.length)).count 10 := by
    have before : (s.input s.activeTerm).inDatNrRet =
        (s.input s.activeTerm).pending.count 10 := h s.activeTerm
    have returns : (s'.input s.activeTerm).inDatNrRet = (s.input s.activeTerm).inDatNrRet :=
      congrArg (·.inDatNrRet) (effect.visible background)
    have split := count_take_add_drop (s.input s.activeTerm).pending
      ((s.input t).pending.length - chars.length)
    rw [effect.pending_overwritten background, returns, List.count_append]
    omega
  rw [← reader, ← shown]
  constructor
  · intro counted
    exact ⟨counted t, counted s.activeTerm⟩
  · rintro ⟨own, visible⟩ u
    show (s'.input u).inDatNrRet = (s'.input u).pending.count 10
    by_cases isReader : u = t
    · rwa [isReader]
    · by_cases isShown : u = s.activeTerm
      · rwa [isShown]
      · rw [effect.other isReader isShown]
        exact h u

/-- An event keeps the counts right if and only if it is safe. -/
theorem inputStep_iff (h : Counted s) (orderly : Orderly s) {e : InputEvent}
    {out : List Delivery} (step : s.inputStep e = some (s', out)) :
    Counted s' ↔ CountSafe s e := by
  cases e with
  | key key scancode control alt =>
      cases step
      exact h.key_iff orderly key scancode control alt
  | switch termNum =>
      cases step
      have switches := switches_terminalSwitch s termNum
      refine iff_of_true (fun u => ?_) trivial
      have returns := congrArg (·.inDatNrRet) (switches.data_eq u)
      have pending := congrArg TermData.pending (switches.data_eq u)
      exact returns.trans ((h u).trans
        (congrArg (fun l => ((l.count 10 : Nat) : Int)) pending.symm))
  | read t len =>
      simp only [Terms.inputStep, Option.map_eq_some_iff, Prod.mk.injEq] at step
      obtain ⟨⟨chars, s''⟩, read, rfl, rfl⟩ := step
      obtain ⟨length, effect⟩ := terminalRead_effect (orderly.settled t) read
      by_cases visible : t = s.activeTerm
      · exact iff_of_true (h.read_visible effect visible) (.inl visible)
      · rw [h.read_background effect visible, length]
        exact ⟨.inr, fun safe => safe.resolve_left visible⟩
  | write t buf =>
      cases step
      refine iff_of_true (fun u => ?_) trivial
      show ((s.terminalWrite t buf).input u).inDatNrRet = _
      rw [show ((s.terminalWrite t buf).term u).pending = ((s.terminalWrite t buf).input u).pending
        from rfl, (draws_terminalWrite s t buf).input_eq]
      exact h u
  | openTerm t =>
      cases step
      have opened := setsInput_terminalOpen s t (orderly.unused t)
      refine iff_of_true ((h.sets_iff opened).mpr ?_) trivial
      simp [TermData.pending, TermData.flushed]

/-- With the counts right a reader waits exactly while there is no complete line. -/
theorem read_waits_iff (h : Counted s) (t : Fin 4) (len : Int) :
    s.terminalRead t len = none ↔ 10 ∉ (s.term t).pending := by
  have count := h t
  rw [← List.count_eq_zero]
  simp only [terminalRead]
  split_ifs with none
  · exact iff_of_true rfl (by omega)
  · exact iff_of_false (by simp) (by omega)

end Counted

theorem counted_booted (s : Terms) : Counted s.booted := by
  intro t
  rw [booted_pending]
  exact (booted_input s t).2.2.1

theorem InputRun.counted {s s' : Terms} {es : List InputEvent} {out : List Delivery}
    (run : InputRun CountSafe s es out s') (orderly : Orderly s) (start : Counted s) :
    Counted s' := by
  induction run with
  | nil => exact start
  | snoc before safe step ih => exact (ih.inputStep_iff (before.orderly orderly).1 step).mpr safe

/-- **Newline count.** In every run from boot whose events are all safe, the count of
every terminal is the number of newlines it holds, so that a reader waits exactly
while there is no complete line. In every state so reached a further event keeps
the counts right if and only if it is safe. -/
theorem newline_count {s₀ s : Terms} {es : List InputEvent} {out : List Delivery}
    (run : InputRun CountSafe s₀.booted es out s) :
    Counted s ∧ (∀ t len, s.terminalRead t len = none ↔ 10 ∉ (s.term t).pending) ∧
      ∀ e s' out', s.inputStep e = some (s', out') → (Counted s' ↔ CountSafe s e) := by
  have orderly := (run.orderly (orderly_booted s₀)).1
  have counted := run.counted (orderly_booted s₀) (counted_booted s₀)
  exact ⟨counted, counted.read_waits_iff, fun e s' out' step => counted.inputStep_iff orderly step⟩

theorem countSafe_sampleKeys (s : Terms) (e : InputEvent) (mem : e ∈ sampleKeys) :
    CountSafe s e := by
  simp only [sampleKeys, List.mem_cons, List.not_mem_nil, or_false] at mem
  obtain rfl | rfl := mem
  · exact fun erased => absurd erased.1 (by decide)
  · exact fun erased => absurd erased.1 (by decide)

theorem newline_count_typed :
    InputRun CountSafe blank.booted sampleKeys [] sampleLine ∧ Counted sampleLine := by
  have run := InputRun.sampleLine countSafe_sampleKeys
  exact ⟨run, (newline_count run).1⟩

/-- Backspace after a newline erases it, and the count stays. -/
theorem Counted.erase_newline {s : Terms} (h : Counted s) (orderly : Orderly s)
    {front : List UInt8} (line : (s.term s.activeTerm).pending = front ++ [10])
    (scancode control alt : UInt8) :
    let s' := s.inputProcessKey keyBackspaceCode scancode control alt
    (s'.term s.activeTerm).pending = front ∧
      (s'.term s.activeTerm).inDatNrRet = front.count 10 + 1 := by
  intro s'
  obtain ⟨d, sets, keyed⟩ := orderly.setsInput_key keyBackspaceCode scancode control alt
  have before : (s.input s.activeTerm).inDatNrRet = (s.input s.activeTerm).pending.count 10 :=
    h s.activeTerm
  have line' : (s.input s.activeTerm).pending = front ++ [10] := line
  have erased : typed (front ++ [10]) keyBackspaceCode control = front := by simp [typed]
  have pending := keyed.pending_eq
  have returns := keyed.returns_eq
  rw [line', erased] at pending
  rw [before, count_typed, line', erased, if_pos ⟨rfl, by simp⟩] at returns
  have own : s'.input s.activeTerm = d := sets.own
  exact ⟨(congrArg TermData.pending own).trans pending,
    (congrArg TermData.inDatNrRet own).trans returns⟩

/-- Backspace erases the newline of a line just typed and the count does not go down:
the next read returns at once although no line is complete. -/
theorem newline_count_lost : ∃ s',
    InputRun CountSafe blank.booted sampleKeys [] sampleLine ∧
    sampleLine.inputStep (.key keyBackspaceCode 0x0E 0 0) = some (s', []) ∧
    (s'.term 0).pending = [97] ∧
    (s'.term 0).inDatNrRet = 1 ∧ ∃ r, s'.terminalRead 0 128 = some r := by
  have run := InputRun.sampleLine countSafe_sampleKeys
  obtain ⟨orderly, _⟩ := run.orderly (orderly_booted blank)
  have counted := run.counted (orderly_booted blank) (counted_booted blank)
  obtain ⟨active, pending⟩ := sampleLine_input
  have line : (sampleLine.term sampleLine.activeTerm).pending = [97] ++ [10] := by
    rw [active, pending]
    rfl
  obtain ⟨left, returns⟩ := counted.erase_newline orderly line 0x0E 0 0
  rw [active] at left returns
  have ready : ((sampleLine.inputProcessKey keyBackspaceCode 0x0E 0 0).term 0).inDatNrRet ≠ 0 := by
    rw [returns]
    decide
  exact ⟨sampleLine.inputProcessKey keyBackspaceCode 0x0E 0 0, run, rfl, left, returns,
    terminalRead_returns ready 128⟩

end Terms

end Linux391
