import Linux391.Drivers.TermInput

/-!
The input of one terminal is isolated from that of the others.

`Typing` is what the terminals are for: one queue of edited characters for each of
them. The buffers refine the queues (`Refines`) as long as every read is harmless.
The refinement is broken by one place of the source only: `terminal_read` moves
the unread remainder into the buffer of the *visible* terminal. `ReadSafe` says
when this does no harm, and `terminal_read_isolation` that it does harm in every
other case.
-/

namespace Linux391

/-- The abstract input state: a queue for each terminal, and the visible one. -/
structure Typing where
  queue : Fin 4 → List UInt8
  active : Fin 4

def Typing.step (q : Typing) : InputEvent → Typing × List Delivery
  | .key key _ control _ =>
      ({ q with queue := Function.update q.queue q.active (typed (q.queue q.active) key control) },
        [])
  | .switch termNum => ({ q with active := termNum }, [])
  | .read t len =>
      let n := lineLength (q.queue t) len
      ({ q with queue := Function.update q.queue t ((q.queue t).drop n) },
        [(t, (q.queue t).take n)])
  | .write _ _ => (q, [])
  | .openTerm t => ({ q with queue := Function.update q.queue t [] }, [])

/-- The queues after a sequence of events, and everything delivered on the way. -/
def Typing.run (q : Typing) (es : List InputEvent) : Typing × List Delivery :=
  es.foldl (fun r e => ((r.1.step e).1, r.2 ++ (r.1.step e).2)) (q, [])

namespace Terms

/-! ### Harmless reads -/

/-- A read by `t` does no harm: `t` is the visible terminal, or every character that
stays unread is already in its new place, both in the reader's buffer and in the
visible terminal's. That is so in particular if nothing stays unread. -/
def ReadSafe (s : Terms) (t : Fin 4) (len : Int) : Prop :=
  t = s.activeTerm ∨
    let n := lineLength (s.term t).pending len
    ∀ j : Nat, j < (s.term t).pending.length - n →
      (s.term s.activeTerm).inBuf j = (s.term t).inBuf (n + j) ∧
      (s.term t).inBuf j = (s.term t).inBuf (n + j)

/-- The condition on an event: only a read can do harm. -/
def SafeRead (s : Terms) : InputEvent → Prop
  | .read t len => ReadSafe s t len
  | .key .. | .switch _ | .write _ _ | .openTerm _ => True

/-- What a read on `t` should do: leave the input of the other terminals as it was
and the rest of its own input in its buffer. -/
structure Isolated (s s' : Terms) (t : Fin 4) (chars : List UInt8) : Prop where
  others : ∀ u, u ≠ t → (s'.term u).inBuf = (s.term u).inBuf ∧
    (s'.term u).inDatIndex = (s.term u).inDatIndex ∧
    (s'.term u).inDatEnd = (s.term u).inDatEnd ∧ (s'.term u).inDatNrRet = (s.term u).inDatNrRet
  rest : (s'.term t).pending = (s.term t).pending.drop chars.length

/-- The input of a terminal that did not change, field by field. -/
theorem same_fields {s s' : Terms} {u : Fin 4} (same : s'.input u = s.input u) :
    (s'.term u).inBuf = (s.term u).inBuf ∧ (s'.term u).inDatIndex = (s.term u).inDatIndex ∧
      (s'.term u).inDatEnd = (s.term u).inDatEnd ∧
      (s'.term u).inDatNrRet = (s.term u).inDatNrRet :=
  ⟨congrArg (·.inBuf) same, congrArg (·.inDatIndex) same, congrArg (·.inDatEnd) same,
    congrArg (·.inDatNrRet) same⟩

/-- A read on the visible terminal keeps the rest of the line. -/
theorem isolated_of_active {s s' : Terms} {t : Fin 4} {chars : List UInt8}
    (effect : ReadEffect s s' t chars) (visible : t = s.activeTerm) : Isolated s s' t chars where
  others _ ne := same_fields (effect.other ne (visible ▸ ne))
  rest := effect.pending_visible visible

/-- The front of a buffer equals what follows it from place `n` on if and only if every
character left is already in its new place. -/
theorem pending_front_iff (d : TermData) (n : Nat) :
    d.pending.take (d.pending.length - n) = d.pending.drop n ↔
      ∀ j : Nat, j < d.pending.length - n → d.inBuf j = d.inBuf (n + j) := by
  rw [TermData.pending_drop, TermData.length_pending]
  unfold TermData.pending
  rw [← List.map_take, List.take_range, Nat.min_eq_left (Nat.sub_le _ _), List.map_inj_left]
  simp only [List.mem_range]

/-- A buffer is unchanged by the characters moved to its front if and only if they stood
there before. -/
theorem movedFront_eq_iff (d : TermData) (n : Nat) (buf : Int → UInt8) :
    d.movedFront n buf = buf ↔ ∀ j : Nat, j < d.pending.length - n → buf j = d.inBuf (n + j) := by
  rw [TermData.length_pending]
  constructor
  · intro same j inside
    rw [← congrFun same j]
    exact if_pos (by omega)
  · intro inPlace
    funext i
    by_cases inside : 0 ≤ i ∧ i < d.inDatEnd - n
    · have here := inPlace i.toNat (by omega)
      rw [Int.toNat_of_nonneg inside.1] at here
      exact (if_pos inside).trans here.symm
    · exact if_neg inside

/-- A read on a terminal in the background is harmless only if there is nothing to
move. -/
theorem isolated_iff_of_background {s s' : Terms} {t : Fin 4} {chars : List UInt8}
    (effect : ReadEffect s s' t chars) (background : t ≠ s.activeTerm) :
    Isolated s s' t chars ↔
      ∀ j : Nat, j < (s.term t).pending.length - chars.length →
        (s.term s.activeTerm).inBuf j = (s.term t).inBuf (chars.length + j) ∧
        (s.term t).inBuf j = (s.term t).inBuf (chars.length + j) := by
  have rest := pending_front_iff (s.input t) chars.length
  have shown := movedFront_eq_iff (s.input t) chars.length (s.input s.activeTerm).inBuf
  constructor
  · intro isolated j inside
    constructor
    · have kept : (s'.input s.activeTerm).inBuf = (s.input s.activeTerm).inBuf :=
        (isolated.others s.activeTerm background.symm).1
      rw [effect.visible background] at kept
      exact shown.mp kept j inside
    · exact rest.mp ((effect.pending_background background).symm.trans isolated.rest) j inside
  · intro inPlace
    have kept := shown.mpr fun j inside => (inPlace j inside).1
    refine ⟨fun u ne => same_fields ?_,
      (effect.pending_background background).trans (rest.mpr fun j inside => (inPlace j inside).2)⟩
    by_cases visible : u = s.activeTerm
    · subst visible
      rw [effect.visible background, kept]
    · exact effect.other ne visible

theorem isolated_iff {s s' : Terms} {t : Fin 4} {len : Int} {chars : List UInt8}
    (settled : (s.input t).Settled) (read : s.terminalRead t len = some (chars, s')) :
    Isolated s s' t chars ↔ ReadSafe s t len := by
  obtain ⟨length, effect⟩ := terminalRead_effect settled read
  by_cases visible : t = s.activeTerm
  · exact iff_of_true (isolated_of_active effect visible) (.inl visible)
  · rw [isolated_iff_of_background effect visible, length]
    exact ⟨.inr, fun safe => safe.resolve_left visible⟩

/-! ### The buffers refine the queues -/

/-- The state holds the queues. `in_dat_nr_ret` is at least the number of newlines
typed ahead; it is more when a newline was erased again. -/
structure Refines (s : Terms) (q : Typing) : Prop where
  settled : ∀ t, (s.input t).Settled
  queue_eq : ∀ t, (s.input t).pending = q.queue t
  newlines : ∀ t, (q.queue t).count 10 ≤ (s.input t).inDatNrRet
  active_eq : s.activeTerm = q.active
  isOpen : (s.input s.activeTerm).isActive ≠ 0
  unused : ∀ t, (s.input t).usrCount = 0

namespace Refines

variable {s s' : Terms} {q : Typing}

theorem orderly (h : Refines s q) : Orderly s := ⟨h.settled, h.isOpen, h.unused⟩

/-- An orderly state holds the queues if its buffers do. -/
theorem of_orderly (h : Orderly s) (queue_eq : ∀ t, (s.input t).pending = q.queue t)
    (newlines : ∀ t, (q.queue t).count 10 ≤ (s.input t).inDatNrRet)
    (active_eq : s.activeTerm = q.active) : Refines s q :=
  ⟨h.settled, queue_eq, newlines, active_eq, h.isOpen, h.unused⟩

/-- A change of one terminal's buffer that matches a change of its queue. -/
theorem update (h : Refines s q) (orderly : Orderly s') {t : Fin 4} {d : TermData}
    {queue : List UInt8} (sets : SetsInput t d s s') (matching : d.pending = queue)
    (newlines : queue.count 10 ≤ d.inDatNrRet) :
    Refines s' { q with queue := Function.update q.queue t queue } := by
  refine of_orderly orderly (fun u => ?_) (fun u => ?_) (sets.active_eq.trans h.active_eq)
  · by_cases own : u = t
    · subst own
      rw [sets.own, matching]
      exact (Function.update_self u queue q.queue).symm
    · rw [sets.other own, h.queue_eq u]
      exact (Function.update_of_ne own queue q.queue).symm
  · by_cases own : u = t
    · subst own
      rw [sets.own]
      simpa using newlines
    · rw [sets.other own]
      simpa [own] using h.newlines u

/-- A key accepted by the visible terminal changes its queue as `typed` says. -/
theorem key (h : Refines s q) {key scancode control alt : UInt8}
    (orderly : Orderly (s.acceptKey s.activeTerm key scancode control alt)) :
    Refines (s.acceptKey s.activeTerm key scancode control alt)
      { q with
        queue := Function.update q.queue s.activeTerm
          (typed (q.queue s.activeTerm) key control) } := by
  obtain ⟨d, sets, keyed⟩ := setsInput_acceptKey s s.activeTerm key scancode control alt
    (h.settled _)
  have pending := keyed.pending_eq
  have returns := keyed.returns_eq
  rw [h.queue_eq] at pending returns
  refine h.update orderly sets pending ?_
  rw [returns]
  exact count_typed_le (h.newlines _)

/-- A safe read takes its characters from the queue of the reader's terminal. -/
theorem read (h : Refines s q) (orderly : Orderly s') {t : Fin 4} {len : Int}
    {chars : List UInt8} (read : s.terminalRead t len = some (chars, s'))
    (safe : ReadSafe s t len) :
    Refines s' (q.step (.read t len)).1 ∧ (q.step (.read t len)).2 = [(t, chars)] := by
  have isolated := (isolated_iff (h.settled t) read).mpr safe
  obtain ⟨length, effect⟩ := terminalRead_effect (h.settled t) read
  have taken : (q.queue t).take (lineLength (q.queue t) len) = chars := by
    rw [← h.queue_eq, ← length, ← effect.chars_eq]
  have left : (s'.input t).pending = (q.queue t).drop (lineLength (q.queue t) len) := by
    rw [← h.queue_eq, ← length]
    exact isolated.rest
  simp only [Typing.step, taken, and_true]
  refine of_orderly orderly (fun u => ?_) (fun u => ?_) (effect.active_eq.trans h.active_eq)
  · by_cases own : u = t
    · subst own
      simpa using left
    · obtain ⟨buffer, _, atEnd, _⟩ := isolated.others u own
      simp only [Function.update_of_ne own]
      rw [← h.queue_eq]
      exact TermData.pending_congr atEnd fun i _ _ => congrFun buffer i
  · by_cases own : u = t
    · subst own
      have split := count_take_add_drop (q.queue u) (lineLength (q.queue u) len)
      rw [taken] at split
      have newlines := h.newlines u
      have returns : (s'.input u).inDatNrRet = (s.input u).inDatNrRet - chars.count 10 :=
        congrArg TermData.inDatNrRet effect.own
      simp only [Function.update_self]
      omega
    · simp only [Function.update_of_ne own]
      exact (h.newlines u).trans_eq (isolated.others u own).2.2.2.symm

theorem inputStep (h : Refines s q) {e : InputEvent} {out : List Delivery} (safe : SafeRead s e)
    (step : s.inputStep e = some (s', out)) : Refines s' (q.step e).1 ∧ (q.step e).2 = out := by
  have orderly := (h.orderly.inputStep step).1
  cases e with
  | key key scancode control alt =>
      cases step
      rw [h.orderly.inputProcessKey] at orderly ⊢
      have typing := h.key orderly
      rw [h.active_eq] at typing ⊢
      exact ⟨typing, rfl⟩
  | switch termNum =>
      cases step
      have switches := switches_terminalSwitch s termNum
      refine ⟨of_orderly orderly (fun u => ?_) (fun u => ?_) switches.active_eq, rfl⟩
      · exact (congrArg TermData.pending (switches.data_eq u)).trans (h.queue_eq u)
      · exact (h.newlines u).trans_eq (congrArg (·.inDatNrRet) (switches.data_eq u)).symm
  | read t len =>
      simp only [Terms.inputStep, Option.map_eq_some_iff, Prod.mk.injEq] at step
      obtain ⟨⟨chars, s''⟩, read, rfl, rfl⟩ := step
      exact h.read orderly read safe
  | write t buf =>
      cases step
      have draws := draws_terminalWrite s t buf
      have active := draws.active_eq.trans h.active_eq
      refine ⟨of_orderly orderly (fun u => ?_) (fun u => ?_) active, rfl⟩
      · rw [draws.input_eq]
        exact h.queue_eq u
      · rw [draws.input_eq]
        exact h.newlines u
  | openTerm t =>
      cases step
      refine ⟨h.update orderly (setsInput_terminalOpen s t (h.unused t)) ?_ (Int.le_refl 0), rfl⟩
      simp [TermData.pending, TermData.flushed]

end Refines

/-! ### Runs -/

theorem refines_booted (s : Terms) : Refines s.booted ⟨fun _ => [], 0⟩ :=
  .of_orderly (orderly_booted s) (booted_pending s)
    (fun t => Int.le_of_eq (booted_input s t).2.2.1.symm) (booted_activeTerm s)

/-- Along a run whose reads are all safe the buffers refine the queues, and readers are given what
the queues give them. -/
theorem InputRun.refines {s s' : Terms} {es : List InputEvent} {out : List Delivery}
    (run : InputRun SafeRead s es out s') {q : Typing} (start : Refines s q) :
    Refines s' (q.run es).1 ∧ (q.run es).2 = out := by
  induction run with
  | nil => exact ⟨start, rfl⟩
  | snoc _ safe step ih =>
      obtain ⟨refines, delivered⟩ := ih
      obtain ⟨refines', delivered'⟩ := refines.inputStep safe step
      simp only [Typing.run, List.foldl_append, List.foldl_cons, List.foldl_nil] at refines' ⊢
      exact ⟨refines', congrArg₂ (· ++ ·) delivered delivered'⟩

/-- **Input isolation.** In every run from boot whose reads are all safe, readers are
given exactly the edited characters typed on their terminal, in order, and each
buffer holds the rest. In every state so reached a further read leaves the other
terminals alone and the unread rest in place if and only if it is safe. -/
theorem terminal_read_isolation {s₀ s : Terms} {es : List InputEvent} {out : List Delivery}
    (run : InputRun SafeRead s₀.booted es out s) :
    let spec := Typing.run ⟨fun _ => [], 0⟩ es
    spec.2 = out ∧ (∀ t, (s.term t).pending = spec.1.queue t) ∧
      ∀ t len chars s', s.terminalRead t len = some (chars, s') →
        (Isolated s s' t chars ↔ ReadSafe s t len) := by
  intro spec
  obtain ⟨refines, delivered⟩ := run.refines (refines_booted s₀)
  exact ⟨delivered, refines.queue_eq, fun t len chars s' read =>
    isolated_iff (refines.settled t) read⟩

/-- A terminal with a newline in its queue does not keep its readers waiting. -/
theorem Refines.read_returns {s : Terms} {q : Typing} (h : Refines s q) {t : Fin 4}
    (line : 10 ∈ q.queue t) (len : Int) : ∃ r, s.terminalRead t len = some r := by
  have counted := h.newlines t
  have positive : 0 < (q.queue t).count 10 := List.count_pos_iff.mpr line
  have ready : (s.term t).inDatNrRet ≠ 0 := by
    intro none
    have : (s.input t).inDatNrRet = 0 := none
    omega
  exact terminalRead_returns ready len

/-- So the run goes on with a safe read. -/
theorem InputRun.read {s₀ s : Terms} {q : Typing} {es : List InputEvent} {out : List Delivery}
    (run : InputRun SafeRead s₀ es out s) (start : Refines s₀ q) {t : Fin 4} {len : Int}
    (line : 10 ∈ (q.run es).1.queue t) (safe : ReadSafe s t len) :
    ∃ s', InputRun SafeRead s₀ (es ++ [.read t len]) (q.run (es ++ [.read t len])).2 s' := by
  obtain ⟨⟨chars, s'⟩, read⟩ := (run.refines start).1.read_returns line len
  have longer : InputRun SafeRead s₀ (es ++ [.read t len]) (out ++ [(t, chars)]) s' :=
    .snoc run safe (by rw [inputStep, read]; rfl)
  refine ⟨s', ?_⟩
  rw [(longer.refines start).2]
  exact longer

/-- A read of everything there is, from whichever terminal. -/
theorem Refines.readSafe_of_all {s : Terms} {q : Typing} (h : Refines s q) {t : Fin 4} {len : Int}
    (all : lineLength (q.queue t) len = (q.queue t).length) : ReadSafe s t len := by
  have pending : (s.term t).pending = q.queue t := h.queue_eq t
  refine .inr fun j inside => ?_
  rw [pending, all, Nat.sub_self] at inside
  exact absurd inside (Nat.not_lt_zero j)

/-- The line `a` and the letter `b`, typed ahead on the first terminal. -/
def typeAhead : List InputEvent := [.key 97 0x1E 0 0, .key 10 0x1C 0 0, .key 98 0x30 0 0]

/-- Keys and switches never meet the condition on reads. -/
theorem InputRun.typeAhead : ∃ s, InputRun SafeRead blank.booted Terms.typeAhead [] s := by
  have booted : InputRun SafeRead blank.booted [] [] blank.booted := .nil
  have a := InputRun.snoc booted (e := .key 97 0x1E 0 0) trivial rfl
  have enter := InputRun.snoc a (e := .key 10 0x1C 0 0) trivial rfl
  exact ⟨_, InputRun.snoc enter (e := .key 98 0x30 0 0) trivial rfl⟩

/-- The first line is read while its terminal is shown, and the second, of which nothing is left,
while `c` is typed on another one. -/
theorem terminal_read_isolation_typed : ∃ s,
    InputRun SafeRead blank.booted
      (typeAhead ++ [.read 0 128, .key 10 0x1C 0 0, .switch 1, .key 99 0x2E 0 0, .read 0 128])
      [(0, [97, 10]), (0, [98, 10])] s ∧
    (s.term 0).pending = [] ∧ (s.term 1).pending = [99] := by
  have start := refines_booted blank
  obtain ⟨s₁, typing⟩ := InputRun.typeAhead
  have shown : ReadSafe s₁ 0 128 := .inl (typing.refines start).1.active_eq.symm
  obtain ⟨s₂, first⟩ := typing.read start (t := 0) (by decide) shown
  have enter := InputRun.snoc first (e := .key 10 0x1C 0 0) trivial rfl
  have switch := InputRun.snoc enter (e := .switch 1) trivial rfl
  have letter := InputRun.snoc switch (e := .key 99 0x2E 0 0) trivial rfl
  have hidden : ReadSafe _ 0 128 := (letter.refines start).1.readSafe_of_all (by decide)
  obtain ⟨s, run⟩ := letter.read start (t := 0) (by decide) hidden
  obtain ⟨_, pending, _⟩ := terminal_read_isolation run
  exact ⟨s, run, pending 0, pending 1⟩

/-- With the second terminal brought to the front, a reader of the first is given its
line, but the letter left over goes into the second terminal's buffer and the
first line's letter is left in its place. -/
theorem terminal_read_not_isolated : ∃ s s' chars,
    InputRun SafeRead blank.booted (typeAhead ++ [.switch 1]) [] s ∧
    s.terminalRead 0 128 = some (chars, s') ∧ ¬ Isolated s s' 0 chars := by
  obtain ⟨s₁, typing⟩ := InputRun.typeAhead
  have run := InputRun.snoc typing (e := .switch 1) trivial rfl
  obtain ⟨refines, _⟩ := run.refines (refines_booted blank)
  obtain ⟨⟨chars, s'⟩, read⟩ := refines.read_returns (t := 0) (by decide) 128
  refine ⟨_, s', chars, run, read, ?_⟩
  rw [isolated_iff (refines.settled 0) read]
  have pending : ((s₁.terminalSwitch 1).term 0).pending = [97, 10, 98] := refines.queue_eq 0
  have active : (s₁.terminalSwitch 1).activeTerm = 1 := refines.active_eq
  have length : lineLength ((s₁.terminalSwitch 1).term 0).pending 128 = 2 := by
    rw [pending]
    decide
  have full : ((s₁.terminalSwitch 1).term 0).inDatEnd.toNat = 3 := by
    rw [← TermData.length_pending, pending]
    rfl
  have chars : ((s₁.terminalSwitch 1).term 0).inBuf 0 = 97 ∧
      ((s₁.terminalSwitch 1).term 0).inBuf 2 = 98 := by
    rw [TermData.pending, full] at pending
    simp only [List.range_succ, List.range_zero, List.nil_append, List.cons_append, List.map_cons,
      List.map_nil, List.cons.injEq, and_true] at pending
    exact ⟨pending.1, pending.2.2⟩
  rintro (visible | inPlace)
  · rw [active] at visible
    cases visible
  · have moved := (inPlace 0 (by simp [length, full])).2
    rw [length] at moved
    have same : (97 : UInt8) = 98 := chars.1.symm.trans (moved.trans chars.2)
    cases same

end Terms

end Linux391
