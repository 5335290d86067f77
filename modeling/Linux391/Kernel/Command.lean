import Linux391.Drivers.Directory
import Linux391.Drivers.Program
import Linux391.Kernel.Events

/-!
Commands: how `syscall_execute` takes one apart, and what it checks.

The parser runs over the command once, and what it leaves in `fname` and `fargs` has a
closed form for each shape of a command: one with a space, the first of which ends the
name (`parseCommand_space`), one without (`parseCommand_noSpace`), and one whose name is
too long (`parseCommand_long`). From these, `command_keeps_bounds` says which commands
keep inside the arrays `fname`, `fargs` and `args`, and `only_executables_start` which
ones take a pid although they name no executable.

A parse that leaves `fname` or `fargs` overwrites other variables of the call, and the name
that is looked up may be one of them. `Executes` allows such a call anything, so that a
command is only said to be harmless if it keeps inside both (`ParsesInside`).
-/

namespace Linux391

open Memory

/-! ### Strings in arrays -/

/-- A string written to an array reads back, whatever the array held. -/
theorem chars_storeBytes {m : Mem} {l : List UInt8} (nulFree : 0 ∉ l) (short : l.length < 2 ^ 32) :
    CStr.chars (storeBytes m 0 (l ++ [0])) = l := by
  have at_ : ∀ j < (l ++ [0]).length, storeBytes m 0 (l ++ [0]) j = (l ++ [0]).getD j 0 := by
    intro j lt
    have := storeBytes_apply (m := m) (a := 0) lt
    rwa [Nat.zero_add] at this
  have inside : ∀ j (lt : j < l.length), storeBytes m 0 (l ++ [0]) j = l[j] := by
    intro j lt
    rw [at_ j (by simp; omega), List.getD_eq_getElem?_getD, List.getElem?_append_left lt,
      List.getElem?_eq_getElem lt, Option.getD_some]
  have stop : storeBytes m 0 (l ++ [0]) l.length = 0 := by
    rw [at_ _ (by simp)]
    simp
  exact chars_of_text inside (fun c mem zero => nulFree (zero ▸ mem)) stop short

/-! ### The loop of the parser -/

namespace Parse

variable {s : Parse} {i : Nat}

/-- Characters of a name that fits. -/
theorem loop_name {name : List UInt8} (rest : List UInt8) (noSpace : 32 ∉ name)
    (flag : s.fileFlag = false) (short : i + name.length ≤ 32) :
    loop (name ++ rest) i s =
      loop rest (i + name.length) { s with fname := storeBytes s.fname i name } := by
  induction name generalizing i s with
  | nil => simp [storeBytes_nil]
  | cons c name ih =>
      rw [List.mem_cons, not_or] at noSpace
      rw [List.length_cons] at short
      have inside : decide (i < 32) = true := decide_eq_true (by omega)
      have step := ih (i := i + 1) (s := s.putName i c) noSpace.2 flag (by omega)
      rw [List.cons_append, loop, if_neg fun h => noSpace.1 h.1.symm, if_neg (by simp [flag]),
        if_neg (by omega), step, storeBytes_cons, List.length_cons,
        show i + 1 + name.length = i + (name.length + 1) by omega]
      simp only [putName, inside, Bool.and_true]

/-- A name that is too long. -/
theorem loop_long {name : List UInt8} (rest : List UInt8) (noSpace : 32 ∉ name)
    (flag : s.fileFlag = false) (start : i ≤ 32) (long : 32 < i + name.length) :
    loop (name ++ rest) i s = none := by
  induction name generalizing i s with
  | nil =>
      rw [List.length_nil] at long
      omega
  | cons c name ih =>
      rw [List.mem_cons, not_or] at noSpace
      rw [List.length_cons] at long
      rw [List.cons_append, loop, if_neg fun h => noSpace.1 h.1.symm, if_neg (by simp [flag])]
      split_ifs with full
      · rfl
      · exact ih noSpace.2 flag (by omega) (by omega)

/-- Everything after the first space is copied to `fargs`. -/
theorem loop_args {rest : List UInt8} (flag : s.fileFlag = true) (behind : s.fnameLength < i) :
    loop rest i s = some
      { s with
        fargs := storeBytes s.fargs (i - s.fnameLength - 1) rest
        inBounds := s.inBounds &&
          decide (rest = [] ∨ i - s.fnameLength - 1 + rest.length ≤ 128) } := by
  induction rest generalizing i s with
  | nil => simp [loop, storeBytes_nil]
  | cons c rest ih =>
      have step := ih (i := i + 1) (s := s.putArg (i - s.fnameLength - 1) c) flag
        (show s.fnameLength < i + 1 by omega)
      rw [loop, if_neg (by simp [flag]), if_pos flag, step]
      have next : i + 1 - s.fnameLength - 1 = i - s.fnameLength - 1 + 1 := by omega
      have bounds : (decide (i - s.fnameLength - 1 < 128) &&
          decide (rest = [] ∨ i - s.fnameLength - 1 + 1 + rest.length ≤ 128)) =
          decide (c :: rest = [] ∨ i - s.fnameLength - 1 + (rest.length + 1) ≤ 128) := by
        rw [← Bool.decide_and, decide_eq_decide]
        cases rest with
        | nil =>
            simp only [true_or, and_true, reduceCtorEq, false_or, List.length_nil]
            omega
        | cons d rest =>
            simp only [reduceCtorEq, false_or, List.length_cons]
            omega
      simp only [putArg, next, storeBytes_cons, List.length_cons, Bool.and_assoc, bounds]

end Parse

/-! ### The three shapes of a command -/

variable {c : CStr} {f : Frame}

/-- A command has a space, the first of which ends its name, or none. -/
theorem command_shape (c : CStr) :
    (∃ name rest, c.chars = name ++ 32 :: rest ∧ 32 ∉ name) ∨ 32 ∉ c.chars := by
  by_cases space : (32 : UInt8) ∈ c.chars
  · obtain ⟨name, rest, eq, first⟩ := List.eq_append_cons_of_mem space
    exact .inl ⟨name, rest, eq, first⟩
  · exact .inr space

theorem parseCommand_space {name rest : List UInt8} (chars : c.chars = name ++ 32 :: rest)
    (noSpace : 32 ∉ name) (short : name.length ≤ 32) :
    parseCommand c f = some
      { fileFlag := true
        fnameLength := name.length
        fname := storeBytes f.fname 0 (name ++ [0])
        fargs := storeBytes f.fargs 0 (rest ++ [0])
        inBounds := decide (name.length < 32) && decide (rest.length < 128) } := by
  have length : strlen c = name.length + (rest.length + 1) := by
    rw [← length_chars, chars, List.length_append, List.length_cons]
  have most := strlen_le_max c
  have last : uint32 ((strlen c : Int) - name.length - 1) = rest.length := by
    unfold uint32
    omega
  rw [parseCommand, chars, Parse.loop_name _ noSpace rfl (by simpa using short), Parse.loop,
    if_pos ⟨rfl, rfl⟩, Parse.loop_args (i := 0 + name.length + 1) rfl (Nat.lt_succ_self _)]
  have bounds : (decide (name.length < 32) && (decide (rest = [] ∨ rest.length ≤ 128) &&
      decide (rest.length < 128))) = (decide (name.length < 32) && decide (rest.length < 128)) := by
    rw [← Bool.decide_and]
    congr 1
    rw [decide_eq_decide]
    omega
  simp only [Option.map_some, Parse.putName, Parse.putArg, last, Nat.zero_add, if_true,
    Nat.add_sub_cancel_left, Nat.sub_self, Bool.true_and, Bool.and_assoc, bounds,
    storeBytes_append, storeBytes_cons, storeBytes_nil]

theorem parseCommand_noSpace (noSpace : 32 ∉ c.chars) (short : strlen c ≤ 32) :
    parseCommand c f = some
      { fileFlag := false
        fnameLength := 0
        fname := storeBytes f.fname 0 (c.chars ++ [0])
        fargs := Function.update f.fargs (uint32 ((strlen c : Int) - 1)) 0
        inBounds := decide (uint32 ((strlen c : Int) - 1) < 128) && decide (strlen c < 32) } := by
  have loop := Parse.loop_name (s := ⟨false, 0, f.fname, f.fargs, true⟩) (i := 0) [] noSpace rfl
    (by rw [length_chars]; omega)
  rw [List.append_nil] at loop
  rw [parseCommand, loop, Parse.loop, Option.map_some]
  simp [Parse.putName, Parse.putArg, storeBytes_append, storeBytes_cons, storeBytes_nil,
    length_chars]

theorem parseCommand_long {name rest : List UInt8} (chars : c.chars = name ++ rest)
    (noSpace : 32 ∉ name) (long : 32 < name.length) : parseCommand c f = none := by
  rw [parseCommand, chars, Parse.loop_long rest noSpace rfl (by decide) (by omega)]
  rfl

/-- The arguments of a command with a space are what follows it. -/
theorem strcpyBytes_rest {m : Mem} {name rest : List UInt8}
    (chars : c.chars = name ++ 32 :: rest) :
    strcpyBytes (storeBytes m 0 (rest ++ [0])) = rest ++ [0] := by
  have nulFree := zero_not_mem_chars c
  have most := strlen_le_max c
  rw [← length_chars, chars, List.length_append, List.length_cons] at most
  rw [chars, List.mem_append, List.mem_cons, not_or, not_or] at nulFree
  rw [strcpyBytes, chars_storeBytes nulFree.2.2 (by omega)]

namespace Platform

variable {P : Platform} {k : Kernel}

/-! ### Keeping inside the arrays -/

/-- The command starts a program: it loads, and a pid is free. -/
def StartsProgram (P : Platform) (k : Kernel) (c : CStr) (f : Frame) : Prop :=
  P.Loads c f ∧ ∃ p, 1 ≤ p ∧ p < 16 ∧ k.pidUsage p = 0

/-- Every call of `syscall_execute` returns -1 or enters the program, and it enters those
that start. -/
theorem syscallExecute_outcome (P : Platform) (k : Kernel) (c : CStr) (f : Frame) :
    (¬ P.StartsProgram k c f ∧ ∃ k', P.syscallExecute k (some c) f = some (.returned (-1), k')) ∨
    P.StartsProgram k c f ∧ ∃ pid parse k',
      P.syscallExecute k (some c) f = some (.entered pid, k') ∧
      parseCommand c f = some parse ∧ k.NewPid pid := by
  rcases loadProgram_cases P k c f with ⟨k', load, -, full⟩ | ⟨pid, parse, loaded, load, done⟩
  · refine .inl ⟨?_, k', ?_⟩
    · rintro ⟨loads, p, pos, lt, free⟩
      exact full loads p pos lt free
    · simp only [syscallExecute, load, Option.bind_eq_bind, Option.bind_some]
  · refine .inr ⟨⟨done.loads, pid, done.new.pos, done.new.lt, done.new.free⟩, pid, parse, ?_⟩
    simp only [syscallExecute, load, Option.bind_eq_bind, Option.bind_some]
    exact ⟨_, rfl, done.parsed, done.new⟩

/-- What a call may do. Nothing is known of one whose parse has left the arrays. -/
inductive Executes (P : Platform) (k : Kernel) (c : CStr) (f : Frame) :
    Outcome → Kernel → Prop where
  | inside {outcome : Outcome} {k' : Kernel} : InBounds (some c) f →
      P.syscallExecute k (some c) f = some (outcome, k') → Executes P k c f outcome k'
  | overrun (outcome : Outcome) (k' : Kernel) : ¬ InBounds (some c) f →
      Executes P k c f outcome k'

/-- What is asked of a command: the call ends, and however it does, the command is refused, or
every array was filled inside its bounds and the arguments change no field of the new PCB. -/
def KeepsBounds (P : Platform) (k : Kernel) (c : CStr) (f : Frame) : Prop :=
  (∃ outcome k', P.Executes k c f outcome k') ∧
    ∀ outcome k', P.Executes k c f outcome k' →
      outcome = .returned (-1) ∨ ∃ pid parse, outcome = .entered pid ∧
        parseCommand c f = some parse ∧ parse.inBounds = true ∧
        (strcpyBytes parse.fargs).length ≤ 100 ∧
        ∀ m g, get (setArgs m (getPcb pid) (strcpyBytes parse.fargs)) (getPcb pid) g =
          get m (getPcb pid) g

/-- A command whose parse keeps inside `fname` and `fargs`: a name over 32 characters, which is
refused before anything is stored behind it, a name of at most 31 with at most 127 characters
behind the first space, or a name alone of 1 to 31. -/
inductive ParsesInside (c : CStr) : Prop where
  | long {name rest : List UInt8} : c.chars = name ++ rest → 32 ∉ name → 32 < name.length →
      ParsesInside c
  | space {name rest : List UInt8} : c.chars = name ++ 32 :: rest → 32 ∉ name →
      name.length ≤ 31 → rest.length ≤ 127 → ParsesInside c
  | noSpace : 32 ∉ c.chars → 1 ≤ strlen c → strlen c ≤ 31 → ParsesInside c

/-- Whatever the locals held. -/
theorem inBounds_iff (c : CStr) (f : Frame) : InBounds (some c) f ↔ ParsesInside c := by
  constructor
  · intro inBounds
    rcases command_shape c with ⟨name, rest, chars, first⟩ | noSpace
    · by_cases long : 32 < name.length
      · exact .long chars first long
      · have inside := inBounds c _ rfl (parseCommand_space chars first (by omega))
        simp only [Bool.and_eq_true, decide_eq_true_eq] at inside
        exact .space chars first (by omega) (by omega)
    · by_cases long : 32 < strlen c
      · exact .long (List.append_nil _).symm noSpace (by rwa [length_chars])
      · have inside := inBounds c _ rfl (parseCommand_noSpace noSpace (by omega))
        simp only [Bool.and_eq_true, decide_eq_true_eq] at inside
        unfold uint32 at inside
        exact .noSpace noSpace (by omega) (by omega)
  · rintro inside _ parse ⟨⟩ parsed
    cases inside with
    | long chars noSpace long =>
        rw [parseCommand_long chars noSpace long] at parsed
        cases parsed
    | space chars noSpace short fit =>
        rw [parseCommand_space chars noSpace (by omega)] at parsed
        obtain rfl := Option.some.inj parsed
        simp only [Bool.and_eq_true, decide_eq_true_eq]
        omega
    | noSpace noSpace pos short =>
        rw [parseCommand_noSpace noSpace (by omega)] at parsed
        obtain rfl := Option.some.inj parsed
        simp only [Bool.and_eq_true, decide_eq_true_eq]
        unfold uint32
        omega

/-- A command that fits: a name of at most 31 characters with at most 99 characters
behind the first space, or a name alone of 1 to 31 characters. -/
inductive FitsArrays (c : CStr) : Prop where
  | space {name rest : List UInt8} : c.chars = name ++ 32 :: rest → 32 ∉ name →
      name.length ≤ 31 → rest.length ≤ 99 → FitsArrays c
  | noSpace : 32 ∉ c.chars → 1 ≤ strlen c → strlen c ≤ 31 → FitsArrays c

/-- A command that fits is parsed inside the arrays. -/
theorem FitsArrays.parsed (fits : FitsArrays c) (f : Frame) :
    ∃ parse, parseCommand c f = some parse ∧ parse.inBounds = true ∧
      (strcpyBytes parse.fargs).length ≤ 100 := by
  cases fits with
  | space chars noSpace short fit =>
      refine ⟨_, parseCommand_space chars noSpace (by omega), ?_, ?_⟩
      · simp only [Bool.and_eq_true, decide_eq_true_eq]
        omega
      · rw [strcpyBytes_rest chars, List.length_append]
        exact Nat.succ_le_succ fit
  | noSpace noSpace pos short =>
      have last : uint32 ((strlen c : Int) - 1) = strlen c - 1 := by
        unfold uint32
        omega
      refine ⟨_, parseCommand_noSpace noSpace (by omega), ?_, ?_⟩
      · simp only [last, Bool.and_eq_true, decide_eq_true_eq]
        omega
      · simp only [length_strcpyBytes, last]
        have stop : Function.update f.fargs (strlen c - 1) 0 (strlen c - 1) = 0 :=
          Function.update_self _ _ _
        have := strlen_le stop
        omega

/-- A command that is parsed inside the arrays fits if its arguments do. -/
theorem FitsArrays.of_parsed (inside : ParsesInside c) {parse : Parse}
    (parsed : parseCommand c f = some parse) (fit : (strcpyBytes parse.fargs).length ≤ 100) :
    FitsArrays c := by
  cases inside with
  | long chars noSpace long =>
      rw [parseCommand_long chars noSpace long] at parsed
      cases parsed
  | space chars noSpace short _ =>
      rw [parseCommand_space chars noSpace (by omega)] at parsed
      obtain rfl := Option.some.inj parsed
      rw [strcpyBytes_rest chars, List.length_append, List.length_singleton] at fit
      exact .space chars noSpace short (by omega)
  | noSpace noSpace pos short => exact .noSpace noSpace pos short

/-- **Commands in bounds.** A command is refused, or parsed and copied inside the arrays, exactly
when its parse keeps inside `fname` and `fargs` and, if it starts a program, its arguments keep
inside `args`. -/
theorem command_keeps_bounds (P : Platform) (k : Kernel) (c : CStr) (f : Frame) :
    P.KeepsBounds k c f ↔ ParsesInside c ∧ (P.StartsProgram k c f → FitsArrays c) := by
  rw [← inBounds_iff c f]
  by_cases inBounds : InBounds (some c) f
  · rcases syscallExecute_outcome P k c f with
      ⟨refused, k', exec⟩ | ⟨starts, pid, parse, k', exec, parsed, new⟩
    · refine iff_of_true ⟨⟨_, k', .inside inBounds exec⟩, ?_⟩
        ⟨inBounds, fun starts => absurd starts refused⟩
      rintro outcome k'' (⟨-, exec'⟩ | left)
      · cases exec.symm.trans exec'
        exact .inl rfl
      · exact absurd inBounds left
    · constructor
      · rintro ⟨-, all⟩
        refine ⟨inBounds, fun _ => ?_⟩
        rcases all _ _ (.inside inBounds exec) with returned | ⟨_, parse', -, parsed', -, fit, -⟩
        · cases returned
        · exact .of_parsed ((inBounds_iff c f).mp inBounds) parsed' fit
      · rintro ⟨-, fits⟩
        obtain ⟨parse', parsed', inside, fit⟩ := (fits starts).parsed f
        refine ⟨⟨_, k', .inside inBounds exec⟩, ?_⟩
        rintro outcome k'' (⟨-, exec'⟩ | left)
        · cases exec.symm.trans exec'
          refine .inr ⟨pid, parse', rfl, parsed', inside, fit, fun m g => ?_⟩
          exact get_setArgs new.lt new.lt (unreached_of_fit fit g)
        · exact absurd inBounds left
  · -- a call that may do anything may return 0
    refine iff_of_false ?_ fun both => inBounds both.1
    rintro ⟨-, all⟩
    rcases all _ _ (.overrun (.returned 0) k inBounds) with returned | ⟨_, _, entered, -⟩
    · cases returned
    · cases entered

theorem loader_congr {name other : CStr} (same : name.chars = other.chars) (entryPoint : CStr) :
    P.fs.loader name entryPoint = P.fs.loader other entryPoint := by
  unfold Fs.loader
  rw [Fs.readDentryByName_congr same]

/-- Which program a command loads depends on its name only. -/
theorem Loads.of_name {c c' : CStr} {f f' : Frame} {parse parse' : Parse}
    (loads : P.Loads c f) (parsed : parseCommand c f = some parse)
    (parsed' : parseCommand c' f' = some parse') (name : parse.fname.chars = parse'.fname.chars)
    (magicBuf : f'.magicBuf = f.magicBuf) (entryPoint : f'.entryPoint = f.entryPoint) :
    P.Loads c' f' := by
  obtain ⟨parse₀, d, parsed₀, found, passed, entry⟩ := loads
  obtain rfl : parse = parse₀ := Option.some.inj (parsed.symm.trans parsed₀)
  refine ⟨parse', d, parsed', ?_, ?_, ?_⟩
  · rw [← Fs.readDentryByName_congr name, found]
  · rw [magicBuf, passed]
  · rw [entryPoint, ← loader_congr name]
    exact entry

/-- The first shell of the sample system starts another one with any arguments, whatever
its stack holds. -/
theorem sample_entered {rest : List UInt8}
    (chars : c.chars = [115, 104, 101, 108, 108] ++ 32 :: rest) (a : CStr) :
    ∃ pid k', sample.syscallExecute Kernel.sampleBoot (some c)
      { Frame.sample 1 with fargs := a } = some (.entered pid, k') := by
  have shell : shellCommand.chars = [115, 104, 101, 108, 108] := chars_cLit (by decide) (by decide)
  have parsedShell := parseCommand_noSpace (c := shellCommand) (f := .sample 1)
    (by rw [shell]; decide) (by rw [← length_chars, shell]; decide)
  have parsed := parseCommand_space (f := { Frame.sample 1 with fargs := a }) chars
    (by decide) (by decide)
  have loads : sample.Loads c { Frame.sample 1 with fargs := a } := by
    refine (loads_sample 1).of_name parsedShell parsed ?_ rfl rfl
    rw [chars_storeBytes (by rw [shell]; decide) (by rw [shell]; decide), shell]
    exact (chars_storeBytes (by decide) (by decide)).symm
  rcases syscallExecute_outcome sample Kernel.sampleBoot c { Frame.sample 1 with fargs := a } with
    ⟨refused, -⟩ | ⟨-, pid, -, k', exec, -⟩
  · exact absurd ⟨loads, 2, by decide, by decide, by decide +kernel⟩ refused
  · exact ⟨pid, k', exec⟩

/-- `shell` with 101 characters behind it. -/
def sampleLongCommand : CStr := cLit ([115, 104, 101, 108, 108] ++ 32 :: List.replicate 101 97)

/-- The last of them ends up in the field `vidmap` of the new process. -/
theorem command_overruns_args :
    ∃ pid k', sample.syscallExecute Kernel.sampleBoot (some sampleLongCommand) (.sample 1) =
        some (.entered pid, k') ∧ get k'.mem (getPcb pid) .vidmap = 97 := by
  have chars : sampleLongCommand.chars =
      [115, 104, 101, 108, 108] ++ 32 :: List.replicate 101 97 :=
    chars_cLit (by decide) (by decide)
  obtain ⟨pid, k', exec⟩ := sample_entered chars fun _ => 0
  refine ⟨pid, k', exec, ?_⟩
  have parsed := parseCommand_space (f := .sample 1) chars (by decide) (by decide)
  have copied := strcpyBytes_rest (m := (Frame.sample 1).fargs) chars
  have byte := syscallExecute_args (by decide : 1 < 16) (by decide +kernel) parsed
    (by rw [copied]; decide) exec (i := 100) (by rw [copied]; decide)
  rw [copied] at byte
  show (k'.mem (getPcb pid + 246)).toNat + 256 * 0 = 97
  rw [byte]
  decide

/-! ### Executables -/

/-- The command gets past the checks and takes a pid. -/
def TakesPid (P : Platform) (k : Kernel) (c : CStr) (f : Frame) : Prop :=
  ∃ parse d, parseCommand c f = some parse ∧ P.fs.readDentryByName parse.fname = some d ∧
    P.fs.executableCheck d f.magicBuf = false ∧ ∃ p, 1 ≤ p ∧ p < 16 ∧ k.pidUsage p = 0

/-- The command names an executable. -/
def NamesExecutable (P : Platform) (c : CStr) (f : Frame) : Prop :=
  ∃ parse d, parseCommand c f = some parse ∧ P.fs.readDentryByName parse.fname = some d ∧
    P.fs.IsExecutable d

/-- A command that takes no pid returns -1 and changes nothing. -/
theorem syscallExecute_of_not_takesPid (refused : ¬ P.TakesPid k c f) :
    P.syscallExecute k (some c) f = some (.returned (-1), k) := by
  have load : P.loadProgram k c f = some (.inl k) := by
    unfold loadProgram
    split
    · rfl
    rename_i parse parsed
    split
    · rfl
    rename_i d found
    split_ifs with check
    · rfl
    split
    · rfl
    rename_i pid k₁ taken
    obtain ⟨pos, lt, free, -, -⟩ := Kernel.tasksPidNew_eq_some taken
    exact absurd ⟨parse, d, parsed, found, by simpa using check, pid, pos, lt, free⟩ refused
  simp only [syscallExecute, load, Option.bind_eq_bind, Option.bind_some]

/-- And a program that is entered took one. -/
theorem takesPid_of_entered {pid : Nat} {k' : Kernel}
    (exec : P.syscallExecute k (some c) f = some (.entered pid, k')) : P.TakesPid k c f := by
  by_contra refused
  rw [syscallExecute_of_not_takesPid refused] at exec
  cases exec

/-- The entries for which a call may get past the checks and take a pid. -/
inductive Accepts (P : Platform) (k : Kernel) (c : CStr) (f : Frame) : Dentry → Prop where
  | inside {parse : Parse} {d : Dentry} : InBounds (some c) f → parseCommand c f = some parse →
      P.fs.readDentryByName parse.fname = some d → P.fs.executableCheck d f.magicBuf = false →
      (∃ p, 1 ≤ p ∧ p < 16 ∧ k.pidUsage p = 0) → Accepts P k c f d
  | overrun (d : Dentry) : ¬ InBounds (some c) f → Accepts P k c f d

/-- What is asked of a command, for every content of `magic_buf`: a pid is taken for executables
only, and a command that names none returns -1 and changes nothing. -/
def OnlyExecutables (P : Platform) (k : Kernel) (c : CStr) (f : Frame) : Prop :=
  ∀ magicBuf,
    (∀ d, P.Accepts k c { f with magicBuf := magicBuf } d → P.fs.IsExecutable d) ∧
    (¬ P.NamesExecutable c f → ∀ outcome k',
      P.Executes k c { f with magicBuf := magicBuf } outcome k' ↔
        outcome = .returned (-1) ∧ k' = k)

/-- **Only executables are executed.** This holds of a command exactly when its parse keeps inside
the arrays and, unless no pid is free, the file it names, if any, is an executable or is turned down
by its own bytes. -/
theorem only_executables_start (P : Platform) (k : Kernel) (c : CStr) (f : Frame) :
    P.OnlyExecutables k c f ↔ ParsesInside c ∧
      ((∀ p, 1 ≤ p → p < 16 → k.pidUsage p ≠ 0) ∨
        ∀ parse d, parseCommand c f = some parse →
          P.fs.readDentryByName parse.fname = some d →
          P.fs.IsExecutable d ∨ P.fs.TurnedDown d) := by
  constructor
  · intro only
    have inside : ParsesInside c := by
      by_contra left
      -- what was overwritten may name any entry, this one among them
      have accepted := (only f.magicBuf).1 ⟨fun _ => 0⟩ (.overrun _ (mt (inBounds_iff c _).mp left))
      exact absurd accepted.regular (by decide)
    refine ⟨inside, ?_⟩
    by_contra fails
    rw [not_or] at fails
    obtain ⟨notFull, notSafe⟩ := fails
    apply notSafe
    intro parse d parsed found
    by_contra neither
    rw [not_or, Fs.turnedDown_iff] at neither
    obtain ⟨notExecutable, passes⟩ := neither
    -- some content of the array lets the file pass, and some pid is free
    rw [not_forall] at passes
    obtain ⟨magicBuf, passed⟩ := passes
    have free : ∃ p, 1 ≤ p ∧ p < 16 ∧ k.pidUsage p = 0 := by
      by_contra none
      exact notFull fun p pos lt free => none ⟨p, pos, lt, free⟩
    have inBounds := (inBounds_iff c { f with magicBuf := magicBuf }).mpr inside
    exact notExecutable
      ((only magicBuf).1 d (.inside inBounds parsed found (by simpa using passed) free))
  · rintro ⟨inside, safe⟩ magicBuf
    have inBounds := (inBounds_iff c { f with magicBuf := magicBuf }).mpr inside
    have taken {parse : Parse} {d : Dentry} (parsed : parseCommand c f = some parse)
        (found : P.fs.readDentryByName parse.fname = some d)
        (passed : P.fs.executableCheck d magicBuf = false)
        (free : ∃ p, 1 ≤ p ∧ p < 16 ∧ k.pidUsage p = 0) : P.fs.IsExecutable d := by
      rcases safe with full | safe
      · obtain ⟨p, pos, lt, free⟩ := free
        exact absurd free (full p pos lt)
      · rcases safe parse d parsed found with executable | turnedDown
        · exact executable
        · rw [(P.fs.turnedDown_iff d).mp turnedDown magicBuf] at passed
          cases passed
    constructor
    · rintro d (⟨-, parsed, found, passed, free⟩ | ⟨_, left⟩)
      · exact taken parsed found passed free
      · exact absurd inBounds left
    · intro other outcome k'
      have refused : P.syscallExecute k (some c) { f with magicBuf := magicBuf } =
          some (.returned (-1), k) := by
        apply syscallExecute_of_not_takesPid
        rintro ⟨parse, d, parsed, found, passed, free⟩
        exact other ⟨parse, d, parsed, found, taken parsed found passed free⟩
      constructor
      · rintro (⟨-, exec⟩ | left)
        · cases refused.symm.trans exec
          exact ⟨rfl, rfl⟩
        · exact absurd inBounds left
      · rintro ⟨rfl, rfl⟩
        exact .inside inBounds refused

/-- The sample system over an image whose only file, `a`, is empty. -/
def sampleEmptyFile : Platform :=
  { sample with
    fs := ⟨fun x => if x = 0 then 1 else if x = 64 then 97 else if x = 96 then 2 else 0, 0⟩ }

/-- The empty file is started, and so is the clock when it shares the inode of a program. -/
theorem execute_starts_empty_file :
    sampleEmptyFile.fs.fileLength (sampleEmptyFile.fs.dentry 0).inodeIndex = 0 ∧
      (sampleEmptyFile.syscallExecute Kernel.sampleBoot (some (cLit [97])) (.sample 1)).map (·.1) =
        some (.entered 2) ∧
      (sample.fs.dentry 2).filetype = rtcType ∧
      (sample.syscallExecute Kernel.sampleBoot (some (cLit [114, 116, 99])) (.sample 1)).map (·.1) =
        some (.entered 2) := by
  decide +kernel

end Platform

end Linux391
