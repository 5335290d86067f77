import Linux391.Kernel.Command
import Linux391.Kernel.ExitStatus

/-!
The arguments of a program, from the command to `syscall_getargs`.

`getargs_fills_within` says for which counts `syscall_getargs` keeps inside the caller's
buffer. `arguments_from_command` compares two calls of `syscall_execute` that differ in
what the array `fargs` held before: the parser ends the string in it without having
written it when the command has no space. `arguments_round_trip` follows the arguments
of a command through the PCB of its process, over any run in which the process lives on.
-/

namespace Linux391

open Memory Platform

variable {P : Platform} {k k' : Kernel} {c : CStr} {f : Frame} {r r' p pid : Nat}

/-! ### The caller's buffer -/

/-- The argument string of the running process. -/
def Kernel.argString (k : Kernel) : List UInt8 := CStr.chars (pcbArgs k.mem k.curr)

/-- What is asked of `syscall_getargs`: it refuses and stores nothing, or it stores the
string with its NUL inside the buffer; and it refuses only what does not fit. -/
def Kernel.FillsWithin (k : Kernel) (bufNull : Bool) (nbytes : Int) : Prop :=
  let call := k.syscallGetargs bufNull nbytes
  (call = (-1, []) ∨
      call.1 = 0 ∧ call.2 = k.argString ++ [0] ∧ (call.2.length : Int) ≤ nbytes) ∧
    (call.1 = 0 ↔ 0 < nbytes ∧ bufNull = false ∧ (k.argString.length : Int) + 1 ≤ nbytes)

/-- The test of `syscall_getargs` in terms of the string. -/
theorem Kernel.syscallGetargs_eq (k : Kernel) {nbytes : Int} (nonzero : nbytes ≠ 0) :
    k.syscallGetargs false nbytes =
      if uint32 nbytes < k.argString.length then (-1, []) else (0, k.argString ++ [0]) := by
  rw [syscallGetargs, if_neg (by simp [nonzero]), argString, length_chars]
  rfl

/-- A refused call is right unless the string would have fitted. -/
theorem Kernel.fillsWithin_refused {bufNull : Bool} {nbytes : Int}
    (call : k.syscallGetargs bufNull nbytes = (-1, [])) :
    k.FillsWithin bufNull nbytes ↔
      ¬ (0 < nbytes ∧ bufNull = false ∧ (k.argString.length : Int) + 1 ≤ nbytes) := by
  simp only [FillsWithin, call, true_or, true_and]
  constructor
  · intro onlyThen fits
    cases onlyThen.mpr fits
  · intro tight
    constructor
    · intro zero
      cases zero
    · intro fits
      exact absurd fits tight

/-- A call that stores the string is right if there was room for it. -/
theorem Kernel.fillsWithin_stored {bufNull : Bool} {nbytes : Int}
    (call : k.syscallGetargs bufNull nbytes = (0, k.argString ++ [0])) :
    k.FillsWithin bufNull nbytes ↔
      0 < nbytes ∧ bufNull = false ∧ (k.argString.length : Int) + 1 ≤ nbytes := by
  simp only [FillsWithin, call, true_and, true_iff, List.length_append, List.length_singleton,
    Nat.cast_add, Nat.cast_one]
  constructor
  · intro fills
    exact fills.2
  · intro fits
    exact ⟨.inr fits.2.2, fits⟩

/-- **The buffer of getargs.** The call keeps inside the buffer exactly when it has none,
or the count is zero, or it is positive and not the length of the string. A negative
count is refused only if the string is longer than the count read as unsigned. -/
theorem getargs_fills_within (k : Kernel) (bufNull : Bool) {nbytes : Int}
    (low : -2 ^ 31 ≤ nbytes) (high : nbytes < 2 ^ 31) :
    k.FillsWithin bufNull nbytes ↔
      bufNull = true ∨ nbytes = 0 ∨ (0 < nbytes ∧ nbytes ≠ k.argString.length) ∨
        (nbytes < 0 ∧ nbytes + 2 ^ 32 < k.argString.length) := by
  by_cases refused : bufNull = true ∨ nbytes = 0
  · rw [Kernel.fillsWithin_refused (if_pos refused), ← or_assoc, iff_true_right (.inl refused)]
    rintro ⟨pos, given, -⟩
    rcases refused with null | zero
    · rw [given] at null
      cases null
    · omega
  · rw [not_or, Bool.not_eq_true] at refused
    obtain ⟨rfl, nonzero⟩ := refused
    have unsigned : (0 < nbytes ∧ (uint32 nbytes : Int) = nbytes) ∨
        nbytes < 0 ∧ (uint32 nbytes : Int) = nbytes + 2 ^ 32 := by
      unfold uint32
      omega
    have call := k.syscallGetargs_eq nonzero
    simp only [Bool.false_eq_true, nonzero, false_or]
    by_cases longer : uint32 nbytes < k.argString.length
    · rw [if_pos longer] at call
      rw [Kernel.fillsWithin_refused call]
      omega
    · rw [if_neg longer] at call
      rw [Kernel.fillsWithin_stored call]
      simp only [true_and]
      omega

/-- A process with the arguments `ab`. -/
def sampleArgs : Kernel :=
  (Kernel.blank 1).withMem (setArgs (Kernel.blank 1).mem (getPcb 1) [97, 98, 0])

theorem sampleArgs_string : sampleArgs.argString = [97, 98] := by
  decide +kernel

/-- Three bytes are enough for two characters. -/
theorem getargs_fills_within_three : sampleArgs.FillsWithin false 3 := by
  apply (getargs_fills_within sampleArgs false (by decide) (by decide)).mpr
  rw [sampleArgs_string]
  decide

/-- With room for two bytes three are stored, and a negative count is taken for a large one. -/
theorem getargs_overruns :
    sampleArgs.syscallGetargs false 2 = (0, [97, 98, 0]) ∧
      sampleArgs.syscallGetargs false (-1) = (0, [97, 98, 0]) := by
  decide +kernel

/-! ### Old contents of the stack -/

/-- The string a started command finds in its PCB is that of `fargs`. -/
theorem entered_args {parse : Parse} (ltr : r < 16) (here : k.curr = getPcb r)
    (parsed : parseCommand c f = some parse)
    (short : (strcpyBytes parse.fargs).length ≤ 0x1000)
    (exec : P.syscallExecute k (some c) f = some (.entered pid, k')) :
    CStr.chars (pcbArgs k'.mem (getPcb pid)) = parse.fargs.chars := by
  apply chars_of_strcpyBytes
  · rw [length_strcpyBytes] at short
    omega
  · intro j lt
    exact syscallExecute_args ltr here parsed short exec lt

theorem enter_congr {parent : Nat} {term : Kernel → Nat} {a₁ a₂ b₁ b₂ : CStr}
    (same : strcpyBytes a₁ = strcpyBytes a₂) :
    P.enter k pid parent term a₁ { f with fargs := b₁ } =
      P.enter k pid parent term a₂ { f with fargs := b₂ } := by
  unfold Platform.enter
  rw [same]

/-- Two calls that parse the same name and the same arguments do the same. -/
theorem syscallExecute_congr {a₁ a₂ : CStr} {parse₁ parse₂ : Parse}
    (parsed₁ : parseCommand c { f with fargs := a₁ } = some parse₁)
    (parsed₂ : parseCommand c { f with fargs := a₂ } = some parse₂)
    (name : parse₁.fname = parse₂.fname)
    (args : strcpyBytes parse₁.fargs = strcpyBytes parse₂.fargs) :
    P.syscallExecute k (some c) { f with fargs := a₁ } =
      P.syscallExecute k (some c) { f with fargs := a₂ } := by
  simp only [syscallExecute, loadProgram, parsed₁, parsed₂, name]
  cases P.fs.readDentryByName parse₂.fname with
  | none => rfl
  | some d =>
      by_cases check : P.fs.executableCheck d f.magicBuf = true
      · simp only [check, if_true]
        rfl
      · simp only [check, Bool.false_eq_true, if_false]
        cases k.tasksPidNew with
        | none => rfl
        | some new =>
            obtain ⟨pid, k₁⟩ := new
            simp only [Option.bind_eq_bind]
            cases ((k₁.pagingAllocate P pid).pagingUpdateControl pid).storeUser P 0x8048000
              (P.fs.loader parse₂.fname f.entryPoint).program with
            | none => rfl
            | some k₂ =>
                by_cases failed : (P.fs.loader parse₂.fname f.entryPoint).value = 0xFFFFFFFF
                · simp only [Option.bind_some, if_pos failed]
                · simp only [Option.bind_some, if_neg failed]
                  exact congrArg (fun k => some (Outcome.entered pid, k)) (enter_congr args)

/-- What is asked of a command: the arguments of the new process do not depend on what
`fargs` held, and there are none without a space. -/
structure ArgsFromCommand (P : Platform) (k : Kernel) (c : CStr) (f : Frame) : Prop where
  same : ∀ a₁ a₂ pid₁ pid₂ k₁ k₂,
    P.syscallExecute k (some c) { f with fargs := a₁ } = some (.entered pid₁, k₁) →
    P.syscallExecute k (some c) { f with fargs := a₂ } = some (.entered pid₂, k₂) →
    CStr.chars (pcbArgs k₁.mem (getPcb pid₁)) = CStr.chars (pcbArgs k₂.mem (getPcb pid₂)) ∧
      ∀ bufNull nbytes, k₁.syscallGetargs bufNull nbytes = k₂.syscallGetargs bufNull nbytes
  empty : 32 ∉ c.chars → ∀ a pid k₁,
    P.syscallExecute k (some c) { f with fargs := a } = some (.entered pid, k₁) →
    CStr.chars (pcbArgs k₁.mem (getPcb pid)) = []

/-- A name alone that is accepted has at most 32 characters. -/
theorem strlen_le_of_entered (noSpace : 32 ∉ c.chars)
    (exec : P.syscallExecute k (some c) f = some (.entered pid, k')) : strlen c ≤ 32 := by
  by_contra long
  have none : parseCommand c f = none :=
    parseCommand_long (List.append_nil _).symm noSpace (by rw [length_chars]; omega)
  rcases syscallExecute_outcome P k c f with ⟨-, k'', refused⟩ | ⟨-, -, parse, -, -, parsed, -⟩
  · cases exec.symm.trans refused
  · cases none.symm.trans parsed

/-- And it is accepted whatever `fargs` held. -/
theorem entered_of_noSpace {a : CStr} (noSpace : 32 ∉ c.chars)
    (exec : P.syscallExecute k (some c) { f with fargs := a } = some (.entered pid, k'))
    (b : CStr) : ∃ pid k', P.syscallExecute k (some c) { f with fargs := b } =
      some (.entered pid, k') := by
  have short := strlen_le_of_entered noSpace exec
  have started : P.StartsProgram k c { f with fargs := a } := by
    rcases syscallExecute_outcome P k c { f with fargs := a } with
      ⟨-, k'', refused⟩ | ⟨starts, -⟩
    · cases exec.symm.trans refused
    · exact starts
  rcases syscallExecute_outcome P k c { f with fargs := b } with
    ⟨refused, -⟩ | ⟨-, pid', -, k'', entered, -⟩
  · refine absurd ⟨started.1.of_name (parseCommand_noSpace noSpace short)
      (parseCommand_noSpace noSpace short) ?_ rfl rfl, started.2⟩ refused
    rfl
  · exact ⟨pid', k'', entered⟩

/-- The arguments of a name alone: what `fargs` held, up to the NUL. -/
theorem entered_args_noSpace {a : CStr} (ltr : r < 16) (here : k.curr = getPcb r)
    (noSpace : 32 ∉ c.chars) {l : List UInt8}
    (string : CStr.chars (Function.update a (uint32 ((strlen c : Int) - 1)) 0) = l)
    (short : l.length < 0x1000)
    (exec : P.syscallExecute k (some c) { f with fargs := a } = some (.entered pid, k')) :
    CStr.chars (pcbArgs k'.mem (getPcb pid)) = l := by
  have parsed := parseCommand_noSpace (f := { f with fargs := a }) noSpace
    (strlen_le_of_entered noSpace exec)
  refine (entered_args ltr here parsed ?_ exec).trans string
  rw [length_strcpyBytes, ← length_chars, string]
  omega

/-- The NUL of a name of one character is the first byte of `fargs`. -/
theorem strcpyBytes_single (single : strlen c = 1) (a : CStr) :
    strcpyBytes (Function.update a (uint32 ((strlen c : Int) - 1)) 0) = [0] := by
  have last : uint32 ((strlen c : Int) - 1) = 0 := by
    rw [single]
    rfl
  rw [last, strcpyBytes, chars_eq (n := 0) (Function.update_self _ _ _)
    (fun j lt => absurd lt (Nat.not_lt_zero j)) (by decide)]
  rfl

/-- With a space or a single character, a call does the same whatever `fargs` held. -/
theorem syscallExecute_fargs (safe : 32 ∈ c.chars ∨ strlen c = 1) (a₁ a₂ : CStr) :
    P.syscallExecute k (some c) { f with fargs := a₁ } =
      P.syscallExecute k (some c) { f with fargs := a₂ } := by
  rcases command_shape c with ⟨name, rest, chars, first⟩ | noSpace
  · by_cases long : 32 < name.length
    · have none : ∀ b, parseCommand c { f with fargs := b } = none :=
        fun b => parseCommand_long chars first long
      simp only [syscallExecute, loadProgram, none]
      rfl
    · refine syscallExecute_congr (parseCommand_space chars first (by omega))
        (parseCommand_space chars first (by omega)) rfl ?_
      rw [strcpyBytes_rest chars, strcpyBytes_rest chars]
  · have single := safe.resolve_left noSpace
    refine syscallExecute_congr (parseCommand_noSpace noSpace (by omega))
      (parseCommand_noSpace noSpace (by omega)) rfl ?_
    rw [strcpyBytes_single single, strcpyBytes_single single]

/-- An array whose first byte the NUL does not reach: the one of zeros is the empty string,
and one with a character first is that character. -/
theorem chars_unreached {last : Nat} (behind : last ≠ 0) :
    CStr.chars (Function.update (fun _ => 0) last 0) = [] ∧
      CStr.chars (Function.update (cLit [97]) last 0) = [97] := by
  constructor
  · have stop : Function.update (fun _ => (0 : UInt8)) last 0 0 = 0 :=
      Function.update_of_ne (Ne.symm behind) _ _
    exact chars_eq stop (fun j lt => absurd lt (Nat.not_lt_zero j)) (by decide)
  · have first : Function.update (cLit [97]) last 0 0 = 97 :=
      Function.update_of_ne (Ne.symm behind) _ _
    have stop : Function.update (cLit [97]) last 0 1 = 0 := by
      rw [Function.update_apply]
      split <;> rfl
    rw [chars_eq (n := 1) stop ?_ (by decide)]
    · simp [first]
    · intro j lt
      obtain rfl : j = 0 := by omega
      rw [first]
      decide

/-- **Stale stack contents.** The arguments of an accepted command do not depend on what
the array `fargs` held before exactly when the command has a space or is one character
long. -/
theorem arguments_from_command (ltr : r < 16) (here : k.curr = getPcb r)
    (accepted : ∃ a pid k', P.syscallExecute k (some c) { f with fargs := a } =
      some (.entered pid, k')) :
    ArgsFromCommand P k c f ↔ 32 ∈ c.chars ∨ strlen c = 1 := by
  obtain ⟨a, pid, k', exec⟩ := accepted
  constructor
  · intro fromCommand
    by_contra fails
    rw [not_or] at fails
    obtain ⟨noSpace, other⟩ := fails
    have short := strlen_le_of_entered noSpace exec
    have last : uint32 ((strlen c : Int) - 1) ≠ 0 := by
      unfold uint32
      omega
    obtain ⟨zeros, one⟩ := chars_unreached last
    obtain ⟨pid₁, k₁, exec₁⟩ := entered_of_noSpace noSpace exec fun _ => 0
    obtain ⟨pid₂, k₂, exec₂⟩ := entered_of_noSpace noSpace exec (cLit [97])
    obtain ⟨strings, -⟩ := fromCommand.same _ _ _ _ _ _ exec₁ exec₂
    rw [entered_args_noSpace ltr here noSpace zeros (by decide) exec₁,
      entered_args_noSpace ltr here noSpace one (by decide) exec₂] at strings
    cases strings
  · intro safe
    constructor
    · intro a₁ a₂ pid₁ pid₂ k₁ k₂ exec₁ exec₂
      rw [syscallExecute_fargs safe a₁ a₂] at exec₁
      cases exec₁.symm.trans exec₂
      exact ⟨rfl, fun _ _ => rfl⟩
    · intro noSpace a pid k₁ exec
      refine entered_args_noSpace ltr here noSpace ?_ (by decide) exec
      have bytes := strcpyBytes_single (safe.resolve_left noSpace) a
      exact List.append_cancel_right (bytes.trans (List.nil_append [0]).symm)

/-- The sample's shell with one argument. -/
def sampleCommand : CStr := cLit ([115, 104, 101, 108, 108] ++ 32 :: [97])

theorem sampleCommand_chars : sampleCommand.chars = [115, 104, 101, 108, 108] ++ 32 :: [97] :=
  chars_cLit (by decide) (by decide)

theorem arguments_from_command_shell :
    ArgsFromCommand Platform.sample Kernel.sampleBoot sampleCommand (.sample 1) := by
  apply (arguments_from_command (by decide : 1 < 16) (by decide +kernel)
    ⟨fun _ => 0, sample_entered sampleCommand_chars _⟩).mpr
  left
  rw [sampleCommand_chars]
  decide

/-- The name alone, started over a stack that holds `a` where `fargs` is. -/
theorem arguments_hold_stale_byte :
    ∃ pid k', Platform.sample.syscallExecute Kernel.sampleBoot (some shellCommand)
        { Frame.sample 1 with fargs := cLit [97] } = some (.entered pid, k') ∧
      32 ∉ shellCommand.chars ∧ CStr.chars (pcbArgs k'.mem (getPcb pid)) = [97] := by
  have shell : shellCommand.chars = [115, 104, 101, 108, 108] := chars_cLit (by decide) (by decide)
  have noSpace : 32 ∉ shellCommand.chars := by
    rw [shell]
    decide
  have length : strlen shellCommand = 5 := by rw [← length_chars, shell]; rfl
  have ends : (Platform.sample.syscallExecute Kernel.sampleBoot (some shellCommand)
      (.sample 1)).map (·.1) = some (.entered 2) := by decide +kernel
  obtain ⟨⟨_, k'⟩, exec, rfl⟩ := Option.map_eq_some_iff.mp ends
  obtain ⟨pid, k₁, entered⟩ := entered_of_noSpace (f := .sample 1) noSpace exec (cLit [97])
  refine ⟨pid, k₁, entered, noSpace, ?_⟩
  refine entered_args_noSpace (by decide : 1 < 16) (by decide +kernel) noSpace ?_ (by decide)
    entered
  rw [length]
  exact (chars_unreached (by decide)).2

/-! ### The life of a process -/

/-- Runs in which process `p` does not halt. -/
inductive LivesOn (P : Platform) (p : Nat) : Kernel → Kernel → Prop where
  | refl (k : Kernel) : LivesOn P p k k
  | step {k k₁ k₂ : Kernel} {e : Event} {outcome : Outcome} : LivesOn P p k k₁ → e.Defined k₁ →
      ¬ (k₁.running = p ∧ e.IsHalt) → P.step k₁ e = some (outcome, k₂) → LivesOn P p k k₂

theorem LivesOn.after {k₁ : Kernel} (run : LivesOn P p k k₁) (e : Event) (outcome : Outcome)
    (defined : e.Defined k₁) (on : ¬ (k₁.running = p ∧ e.IsHalt))
    (ends : (P.step k₁ e).map (·.1) = some outcome) : LivesOn P p k (k₁.after P e) :=
  run.step defined on (Platform.step_after ends)

section Lives

variable {e : Event} {outcome : Outcome} {k₀ : Kernel}

/-- Readying a shell takes no other process its pid. -/
theorem Readied.lives (ready : Readied e k r k₀) (live : Live k p) (on : ¬ (r = p ∧ e.IsHalt)) :
    Live k₀ p := by
  refine ⟨live.pos, live.lt, ?_⟩
  rcases ready.usage with same | ⟨halt, freed⟩
  · rw [same]
    exact live.inUse
  · rw [freed, Function.update_of_ne fun same => on ⟨same.symm, halt⟩]
    exact live.inUse

/-- A program that is started leaves the others their pids and arguments. -/
theorem Platform.Started.lives {parent term : Nat}
    (started : Started P Identity k r pid parent term f k') (live : Live k p) :
    Live k' p ∧ SameArgs k.mem k'.mem p := by
  have other := started.ne_of_live live
  refine ⟨⟨live.pos, live.lt, ?_⟩, started.args p live.lt other⟩
  rw [started.usage, Function.update_of_ne other]
  exact live.inUse

/-- An event of another process, or other than a halt, leaves a process its pid and its
arguments. -/
theorem Effect.lives (effect : Effect P k r e outcome r' k') (live : Live k p)
    (on : ¬ (r = p ∧ e.IsHalt)) : Live k' p ∧ SameArgs k.mem k'.mem p := by
  cases effect with
  | kept same => exact ⟨⟨live.pos, live.lt, same.usage ▸ live.inUse⟩, same.args p live.lt⟩
  | mapped same => exact ⟨⟨live.pos, live.lt, same.usage ▸ live.inUse⟩, same.args p live.lt⟩
  | switched _ _ switched =>
      exact ⟨⟨live.pos, live.lt, switched.usage ▸ live.inUse⟩, switched.args p live.lt⟩
  | failed ready failed =>
      have live₀ := ready.lives live on
      obtain ⟨_, _, _, rfl, -⟩ := failed.unchanged
      refine ⟨⟨live.pos, live.lt, live₀.inUse⟩, ?_⟩
      rw [← ready.mem]
      exact .refl _ _
  | child _ _ started _ => exact started.lives live
  | shell _ _ ready started _ =>
      rw [← ready.mem]
      exact started.lives (ready.lives live on)
  | resumed _ _ same _ resumed =>
      have other : p ≠ r := fun same => on ⟨same.symm, trivial⟩
      refine ⟨⟨live.pos, live.lt, ?_⟩, (same.args p live.lt).trans (resumed.args p live.lt)⟩
      rw [resumed.usage, Function.update_of_ne other, same.usage]
      exact live.inUse

/-- Over a whole run. -/
theorem LivesOn.lives (run : LivesOn P p k k') (reachable : Reachable P k) (live : Live k p) :
    Reachable P k' ∧ Live k' p ∧ SameArgs k.mem k'.mem p := by
  induction run with
  | refl => exact ⟨reachable, live, .refl _ _⟩
  | @step k₁ k₂ e outcome _ defined on step ih =>
      obtain ⟨reachable₁, live₁, args₁⟩ := ih
      obtain ⟨G, r, h, stack⟩ := reachable₁.sound
      obtain ⟨r', effect⟩ := h.effect stack defined step
      rw [Kernel.running_eq (h.range r stack.mem).2 stack.curr] at on
      obtain ⟨live₂, args₂⟩ := effect.lives live₁ on
      exact ⟨reachable₁.step defined step, live₂, args₁.trans args₂⟩

end Lives

/-- Strings of fewer than 100 characters depend on the bytes of the array only. -/
theorem SameArgs.chars_eq {m m' : Mem} (same : SameArgs m m' p)
    (short : (CStr.chars (pcbArgs m (getPcb p))).length < 100) :
    CStr.chars (pcbArgs m' (getPcb p)) = CStr.chars (pcbArgs m (getPcb p)) := by
  rw [length_chars] at short
  apply chars_of_strcpyBytes (by omega)
  intro j lt
  rw [length_strcpyBytes] at lt
  rw [same j (by omega)]
  rcases Nat.lt_or_ge j (strlen (pcbArgs m (getPcb p))) with inside | last
  · rw [getD_strcpyBytes_of_lt inside]
  · obtain rfl : j = strlen (pcbArgs m (getPcb p)) := by omega
    rw [getD_strcpyBytes_strlen]
    exact strlen_stop_of_lt (by omega)

/-- A start leads to a state in which the new process lives. -/
theorem Starts.next {parse : Parse} (start : Starts P k c f pid parse k') :
    Reachable P k' ∧ Live k' pid := by
  obtain ⟨r, -, -, -, started⟩ := start.started
  constructor
  · refine start.reachable.step (e := .execute (some c) f) ⟨start.live, start.on, ?_⟩ start.exec
    intro c' parse' given parsed
    cases given
    cases start.parsed.symm.trans parsed
    exact start.inBounds
  · refine ⟨started.new.pos, started.new.lt, ?_⟩
    rw [started.usage, Function.update_self]
    decide

/-- The arguments of a command with a space are what follows it. -/
theorem entered_args_space {name rest : List UInt8} (ltr : r < 16)
    (here : k.curr = getPcb r) (command : c.chars = name ++ 32 :: rest) (noSpace : 32 ∉ name)
    (shortName : name.length ≤ 32) (shortRest : rest.length < 0x1000)
    (exec : P.syscallExecute k (some c) f = some (.entered pid, k')) :
    CStr.chars (pcbArgs k'.mem (getPcb pid)) = rest := by
  have copied := strcpyBytes_rest (m := f.fargs) command
  have short : (strcpyBytes (storeBytes f.fargs 0 (rest ++ [0]))).length ≤ 0x1000 := by
    rw [copied, List.length_append, List.length_singleton]
    omega
  rw [entered_args ltr here (parseCommand_space command noSpace shortName) short exec]
  exact List.append_cancel_right copied

/-- The process that runs in a reachable state finds the string in its own PCB, and a count
with room for it is met. -/
theorem Reachable.getargs (reachable : Reachable P k) (running : k.running = pid)
    {string : List UInt8} (args : CStr.chars (pcbArgs k.mem (getPcb pid)) = string) {n : Int}
    (room : string.length < n) (small : n < 2 ^ 31) :
    k.syscallGetargs false n = (0, string ++ [0]) := by
  obtain ⟨G, r, h, on⟩ := reachable.sound
  have own : r = pid := by
    rw [← running, Kernel.running_eq (h.range r on.mem).2 on.curr]
  have whole : k.argString = string := by
    rw [Kernel.argString, on.curr, own, args]
  have unsigned : (uint32 n : Int) = n := by
    unfold uint32
    omega
  rw [k.syscallGetargs_eq (by omega), whole, if_neg (by omega)]

/-- **Arguments round-trip.** A command of a name and, behind a space, a rest that fits is
started in a reachable state. The file looked up is that of the name, and its program is
what the process finds in memory. Whenever the process runs again before it halts,
`syscall_getargs` with room for it returns 0 and the rest with a NUL. -/
theorem arguments_round_trip {k₁ : Kernel} {name rest : List UInt8}
    (reachable : Reachable P k) (inUse : k.pidUsage k.running ≠ 0) (onStack : f.On k)
    (command : c.chars = name ++ 32 :: rest) (noSpace : 32 ∉ name) (shortName : name.length ≤ 31)
    (shortRest : rest.length ≤ 99)
    (exec : P.syscallExecute k (some c) f = some (.entered pid, k₁)) :
    (∃ parse d, parseCommand c f = some parse ∧ parse.fname.chars = name ∧
        P.fs.readDentryByName (cLit name) = some d ∧
        P.fs.executableCheck d f.magicBuf = false ∧
        k₁.frames = storeBytes k.frames ((pid + 1) * 2 ^ 22 + 0x48000)
          (P.fs.loader (cLit name) f.entryPoint).program) ∧
      ∀ k₂, LivesOn P pid k₁ k₂ → k₂.running = pid → ∀ n : Int, rest.length < n → n < 2 ^ 31 →
        k₂.syscallGetargs false n = (0, rest ++ [0]) := by
  have nulFree : 0 ∉ name := by
    intro mem
    exact zero_not_mem_chars c (by rw [command]; exact List.mem_append_left _ mem)
  have parsed := parseCommand_space (f := f) command noSpace (by omega)
  have inBounds : (decide (name.length < 32) && decide (rest.length < 128)) = true := by
    rw [Bool.and_eq_true, decide_eq_true_eq, decide_eq_true_eq]
    omega
  have fname : CStr.chars (storeBytes f.fname 0 (name ++ [0])) = (cLit name).chars := by
    rw [chars_storeBytes nulFree (by omega), chars_cLit nulFree (by omega)]
  constructor
  · have program := syscallExecute_program parsed exec
    obtain ⟨parse, d, parsed', found, passed, -⟩ := takesPid_of_entered exec
    cases parsed.symm.trans parsed'
    refine ⟨_, d, parsed, chars_storeBytes nulFree (by omega), ?_, passed, ?_⟩
    · rw [← Fs.readDentryByName_congr fname]
      exact found
    · rw [← loader_congr fname]
      exact program
  · intro k₂ run running n room small
    have start : Starts P k c f pid _ k₁ := ⟨reachable, inUse, onStack, parsed, inBounds, exec⟩
    obtain ⟨r, here, ltr, -⟩ := start.started
    obtain ⟨reachable₁, live₁⟩ := start.next
    have string := entered_args_space ltr here command noSpace (by omega) (by omega) exec
    -- the run keeps the array
    obtain ⟨reachable₂, -, args⟩ := run.lives reachable₁ live₁
    rw [← args.chars_eq (by rw [string]; omega)] at string
    exact reachable₂.getargs running string room small

/-- A shell started with the argument `a`. -/
def sampleArgued : Kernel :=
  Kernel.sampleBoot.after Platform.sample (.execute (some sampleCommand) (.sample 1))

/-- It starts a shell itself, -/
def sampleNested : Kernel :=
  sampleArgued.after Platform.sample (.execute (some shellCommand) (.sample 2))

/-- and runs again when that one has halted. -/
def sampleUnnested : Kernel :=
  sampleNested.after Platform.sample (.halt 0 (fun _ => .sample) (.sample 3))

theorem LivesOn.sampleUnnested :
    LivesOn Platform.sample 2 sampleArgued Linux391.sampleUnnested := by
  have nested : LivesOn Platform.sample 2 sampleArgued sampleNested :=
    (LivesOn.refl sampleArgued).after _ (.entered 3)
      ⟨by decide +kernel, by decide +kernel, inBounds_sample 2⟩ (fun halt => halt.2)
      (by decide +kernel)
  have other : sampleNested.running ≠ 2 := by decide +kernel
  exact nested.after _ (.resumed 0)
    ⟨by decide +kernel, by decide +kernel, fun _ => harmless_sample⟩
    (fun halt => other halt.1) (by decide +kernel)

/-- The shell finds its argument after its child has come and gone. -/
theorem arguments_round_trip_shell :
    sampleUnnested.running = 2 ∧ sampleUnnested.syscallGetargs false 2 = (0, [97, 0]) := by
  have ends : (Platform.sample.step Kernel.sampleBoot
      (.execute (some sampleCommand) (.sample 1))).map (·.1) = some (.entered 2) := by
    decide +kernel
  have exec : Platform.sample.syscallExecute Kernel.sampleBoot (some sampleCommand) (.sample 1) =
      some (.entered 2, sampleArgued) := Platform.step_after ends
  have running : sampleUnnested.running = 2 := by decide +kernel
  have later := (arguments_round_trip Reachable.sampleBoot (by decide +kernel)
    (by decide +kernel) sampleCommand_chars (by decide) (by decide) (by decide) exec).2
  exact ⟨running, later _ LivesOn.sampleUnnested running 2 (by decide) (by decide)⟩

end Linux391
