import Linux391.Drivers.Keyboard
import Linux391.Kernel.Command
import Linux391.Kernel.PidReuse

/-!
The flags of the keyboard driver that say which terminals have a shell.

Alt with F2 to F4 sets `shell_active` of the terminal and then calls `syscall_init_shell`,
without a look at what it returns. Nothing ever clears a flag. A run is kept here with the
terminals on which `syscall_init_shell` has succeeded so far. `shell_start_retriable_iff`
says that a flag without a shell comes from a failed start and from nothing else.
-/

namespace Linux391

open Memory Platform

/-! ### From the keyboard to the kernel -/

/-- The calls of `keyboard_handler` as events of the kernel, made on the stack `f`. -/
def KeyAction.event (f : Frame) : KeyAction → Event
  | .altFn t => .altFn t f
  | .inputProcessKey key scancode control alt => .key key scancode control alt

theorem event_altFn_mem_iff {f : Frame} {t : Fin 4} (actions : List KeyAction) :
    Event.altFn t f ∈ actions.map (KeyAction.event f) ↔ .altFn t ∈ actions := by
  rw [List.mem_map]
  constructor
  · rintro ⟨action, mem, eq⟩
    cases action with
    | altFn t' =>
        cases eq
        exact mem
    | inputProcessKey key scancode control alt => cases eq
  · intro mem
    exact ⟨_, mem, rfl⟩

theorem altFn_mem_handleSwitch_iff (kb : Keyboard) (code : UInt8) (t : Fin 4) :
    KeyAction.altFn t ∈ (kb.handleSwitch code).2 ↔
      kb.alt ≠ 0 ∧ code = keyF1 + UInt8.ofNat t.val := by
  have inj : ∀ t t' : Fin 4,
      keyF1 + UInt8.ofNat t'.val = keyF1 + UInt8.ofNat t.val ↔ t' = t := by decide
  by_cases isFn : ∃ t' : Fin 4, code = keyF1 + UInt8.ofNat t'.val
  · obtain ⟨t', rfl⟩ := isFn
    have pressed : (kb.handleSwitch (keyF1 + UInt8.ofNat t'.val)).2 =
        if kb.alt ≠ 0 then [.altFn t'] else [] := by
      fin_cases t' <;> rfl
    rw [pressed, inj]
    split_ifs with held
    · simp [held, eq_comm]
    · simp [held]
  · have none : (kb.handleSwitch code).2 = [] := by
      have f1 : code ≠ keyF1 := fun eq => isFn ⟨0, eq⟩
      have f2 : code ≠ keyF2 := fun eq => isFn ⟨1, eq⟩
      have f3 : code ≠ keyF3 := fun eq => isFn ⟨2, eq⟩
      have f4 : code ≠ keyF4 := fun eq => isFn ⟨3, eq⟩
      simp only [Keyboard.handleSwitch, if_neg f1, if_neg f2, if_neg f3, if_neg f4]
      split_ifs <;> rfl
    rw [none]
    exact iff_of_false List.not_mem_nil fun asked => isFn ⟨t, asked.2⟩

/-- The driver asks for a terminal exactly on one of F1 to F4, while it counts an alt key. -/
theorem altFn_mem_handler_iff (kb : Keyboard) (beyond code : UInt8) (t : Fin 4) (f : Frame) :
    Event.altFn t f ∈ (kb.handler beyond code).2.map (KeyAction.event f) ↔
      kb.alt ≠ 0 ∧ code = keyF1 + UInt8.ofNat t.val := by
  rw [event_altFn_mem_iff, ← altFn_mem_handleSwitch_iff]
  unfold Keyboard.handler
  split_ifs with caps down up
  · subst caps
    rfl
  · rcases down with rfl | rfl <;> rfl
  · rcases up with rfl | rfl <;> rfl
  · simp

/-! ### What events leave alone -/

section Flags

variable {P : Platform} {k k' : Kernel} {f : Frame} {outcome : Outcome}

theorem shellActive_onlyFiles (same : OnlyFiles k k') : k'.shellActive = k.shellActive := by
  obtain ⟨_, _, _, rfl⟩ := same
  rfl

theorem shellActive_loadFailed (failed : LoadFailed P k k') : k'.shellActive = k.shellActive := by
  obtain ⟨_, _, _, rfl, -⟩ := failed.unchanged
  rfl

theorem shellActive_loadDone {command : CStr} {pid : Nat} {parse : Parse}
    (done : LoadDone P k command f pid parse k') : k'.shellActive = k.shellActive := by
  obtain ⟨_, -, rfl⟩ := done.state
  rfl

theorem shellActive_syscallInitShell {termNum : Nat}
    (init : P.syscallInitShell k termNum f = some (outcome, k')) :
    k'.shellActive = k.shellActive := by
  simp only [syscallInitShell] at init
  rcases loadProgram_cases P k shellCommand f with
    ⟨failed, load, how, -⟩ | ⟨pid, parse, loaded, load, done⟩
  · rw [load] at init
    cases init
    exact shellActive_loadFailed how
  · simp only [load, Option.bind_eq_bind, Option.bind_some] at init
    cases opened : Kernel.terminal termNum with
    | none =>
        rw [opened] at init
        cases init
    | some t =>
        rw [opened] at init
        cases init
        have same := shellActive_loadDone done
        exact same

theorem shellActive_syscallExecute {command : Option CStr}
    (exec : P.syscallExecute k command f = some (outcome, k')) :
    k'.shellActive = k.shellActive := by
  cases command with
  | none =>
      cases exec
      rfl
  | some c =>
      simp only [syscallExecute] at exec
      rcases loadProgram_cases P k c f with
        ⟨failed, load, how, -⟩ | ⟨pid, parse, loaded, load, done⟩
      · rw [load] at exec
        cases exec
        exact shellActive_loadFailed how
      · simp only [load, Option.bind_eq_bind, Option.bind_some] at exec
        cases exec
        have same := shellActive_loadDone done
        exact same

theorem shellActive_resumeParent (k : Kernel) (parent : Nat) :
    (resumeParent k parent).2.shellActive = k.shellActive := by
  simp only [resumeParent]
  split_ifs
  · rfl
  · simp only [Kernel.pagingUpdateControl]
    split_ifs <;> rfl

theorem shellActive_syscallHalt (status : UInt8) {u : Fin 8 → Unspecified}
    (halt : P.syscallHalt k status u f = some (outcome, k')) : k'.shellActive = k.shellActive := by
  simp only [syscallHalt] at halt
  split_ifs at halt
  · have same := shellActive_syscallInitShell halt
    exact same
  · obtain ⟨k₁, closed, eq⟩ := Option.map_eq_some_iff.mp halt
    have resumed := shellActive_resumeParent k₁ (k.field .parentPcb)
    rw [eq] at resumed
    have steps : FileSteps _ (fun _ => True) k k₁ := .closeAll (fun _ => trivial) closed
    exact resumed.trans (shellActive_onlyFiles (.of_steps steps))

theorem shellActive_storeUser {va : Nat} {bytes : List UInt8}
    (stored : k.storeUser P va bytes = some k') : k'.shellActive = k.shellActive := by
  induction bytes generalizing k va with
  | nil =>
      cases stored
      rfl
  | cons b rest ih =>
      obtain ⟨pa, -, others⟩ := Option.bind_eq_some_iff.mp stored
      refine (ih others).trans ?_
      unfold Kernel.storePhysical
      split_ifs <;> rfl

theorem shellActive_syscallVidmap {screenStart : Nat}
    (call : P.syscallVidmap k screenStart = some (outcome, k')) :
    k'.shellActive = k.shellActive := by
  simp only [syscallVidmap] at call
  split_ifs at call
  · cases call
    rfl
  · obtain ⟨k₁, stored, eq⟩ := Option.bind_eq_some_iff.mp call
    cases eq
    have same := shellActive_storeUser stored
    exact same

theorem shellActive_schedulerTick (P : Platform) (k : Kernel) (esp ebp : Nat) :
    (k.schedulerTick P esp ebp).shellActive = k.shellActive := by
  simp only [Kernel.schedulerTick]
  split
  · rfl
  · simp only [Kernel.loadRegs, Kernel.pagingUpdateControl]
    split_ifs <;> rfl

/-- The events other than Alt+Fn. -/
def Event.IsAltFn : Event → Prop
  | .altFn _ _ => True
  | _ => False

/-- Only Alt+Fn touches the flags. -/
theorem shellActive_step {e : Event} (other : ¬ e.IsAltFn)
    (step : P.step k e = some (outcome, k')) : k'.shellActive = k.shellActive := by
  cases e with
  | tick f =>
      cases step
      exact shellActive_schedulerTick P k f.esp f.ebp
  | altFn t f => exact absurd trivial other
  | key key scancode control alt =>
      cases step
      rfl
  | execute command f => exact shellActive_syscallExecute step
  | halt status u f => exact shellActive_syscallHalt status step
  | vidmap screenStart => exact shellActive_syscallVidmap step
  | call c =>
      obtain ⟨⟨value, k₁⟩, call, eq⟩ := Option.map_eq_some_iff.mp step
      cases eq
      exact shellActive_onlyFiles (.fdCall call)

end Flags

/-! ### Runs with the shells started -/

/-- A state of a run, with the terminals on which a `syscall_init_shell` has succeeded. -/
structure Moment where
  started : Finset (Fin 4)
  kernel : Kernel

/-- The terminal for which an event called `syscall_init_shell` with success: that of
Alt+Fn, or that of a shell which replaces one that halts. -/
def Event.startedOn (e : Event) (outcome : Outcome) (k' : Kernel) : Option (Fin 4) :=
  match e, outcome with
  | .altFn t _, .entered _ => some t
  | .halt _ _ _, .entered _ => Kernel.terminal (k'.field .term)
  | _, _ => none

def Moment.next (m : Moment) (e : Event) (outcome : Outcome) (k' : Kernel) : Moment :=
  ⟨m.started ∪ (e.startedOn outcome k').toFinset, k'⟩

/-- Runs of the kernel from the start of the first shell, with the steps taken. -/
inductive ShellRun (P : Platform) : List (Moment × Event × Moment) → Moment → Prop where
  | boot {start k : Kernel} {f : Frame} {pid : Nat} : start.curr = getPcb 0 →
      f.On (start.boot P) → P.syscallInitShell (start.boot P) 0 f = some (.entered pid, k) →
      ShellRun P [] ⟨{0}, k⟩
  | step {steps : List (Moment × Event × Moment)} {m : Moment} {k' : Kernel} {e : Event}
      {outcome : Outcome} : ShellRun P steps m → e.Defined m.kernel →
      P.step m.kernel e = some (outcome, k') →
      ShellRun P (steps ++ [(m, e, m.next e outcome k')]) (m.next e outcome k')

/-- A terminal on which no shell has been started has no flag, and Alt+Fn starts a shell on it
once the program loads and a pid is free. -/
def Retriable (P : Platform) (m : Moment) : Prop :=
  ∀ t : Fin 4, t.val ≠ 0 →
    (m.kernel.shellActive t = 1 → t ∈ m.started) ∧
    (t ∉ m.started → ∀ f, P.StartsProgram m.kernel shellCommand f →
      ∃ pid k', P.altFn m.kernel t f = some (.entered pid, k'))

/-- The events that leave no flag without a shell: the first Alt+Fn for a terminal finds a
program that loads and a free pid. -/
def StartSafe (P : Platform) (m : Moment) : Event → Prop
  | .altFn t f => t.val ≠ 0 → t ∉ m.started → m.kernel.shellActive t ≠ 1 →
      P.StartsProgram m.kernel shellCommand f
  | _ => True

section Runs

variable {P : Platform} {k k' : Kernel} {m : Moment} {e : Event} {outcome : Outcome} {f : Frame}
  {t : Fin 4} {steps : List (Moment × Event × Moment)}

theorem ShellRun.reachable (run : ShellRun P steps m) : Reachable P m.kernel := by
  induction run with
  | boot here on init => exact .boot here on init
  | step _ defined step ih => exact ih.step defined step

/-- `syscall_init_shell` on a terminal returns -1 or enters the shell, and it enters one that
starts. -/
theorem syscallInitShell_outcome (P : Platform) (k : Kernel) (t : Fin 4) (f : Frame) :
    (¬ P.StartsProgram k shellCommand f ∧
      ∃ k', P.syscallInitShell k t.val f = some (.returned (-1), k')) ∨
    P.StartsProgram k shellCommand f ∧
      ∃ pid k', P.syscallInitShell k t.val f = some (.entered pid, k') := by
  rcases loadProgram_cases P k shellCommand f with
    ⟨k', load, -, full⟩ | ⟨pid, parse, loaded, load, done⟩
  · refine .inl ⟨?_, k', ?_⟩
    · rintro ⟨loads, p, pos, lt, free⟩
      exact full loads p pos lt free
    · simp only [syscallInitShell, load, Option.bind_eq_bind, Option.bind_some]
  · have named : Kernel.terminal t.val = some t := by simp [Kernel.terminal]
    refine .inr ⟨⟨done.loads, pid, done.new.pos, done.new.lt, done.new.free⟩, pid, ?_⟩
    simp only [syscallInitShell, load, Option.bind_eq_bind, Option.bind_some, named]
    exact ⟨_, rfl⟩

/-- Alt+Fn on a terminal that has its flag, or on the first one. -/
theorem altFn_flagged (flagged : t.val = 0 ∨ k.shellActive t = 1) :
    P.altFn k t f = some (.returned 0, { k with terms := k.terms.terminalSwitch t }) := by
  simp only [Platform.altFn, if_pos flagged]

/-- Alt+Fn on another one sets the flag, and starts a shell exactly if one starts. -/
theorem altFn_unflagged (other : t.val ≠ 0) (unflagged : k.shellActive t ≠ 1) :
    ∃ outcome k', P.altFn k t f = some (outcome, k') ∧
      k'.shellActive = Function.update k.shellActive t 1 ∧
      ((∃ pid, outcome = .entered pid) ↔ P.StartsProgram k shellCommand f) := by
  simp only [Platform.altFn, if_neg (not_or.mpr ⟨other, unflagged⟩)]
  rcases syscallInitShell_outcome P { k with
      terms := k.terms.terminalSwitch t, shellActive := Function.update k.shellActive t 1 } t f with
    ⟨not, k', init⟩ | ⟨starts, pid, k', init⟩
  · refine ⟨_, k', init, shellActive_syscallInitShell init, iff_of_false ?_ not⟩
    rintro ⟨pid, entered⟩
    cases entered
  · exact ⟨_, k', init, shellActive_syscallInitShell init, iff_of_true ⟨pid, rfl⟩ starts⟩

/-- Without a stray flag every start can be retried. -/
theorem retriable_iff (P : Platform) (m : Moment) :
    Retriable P m ↔ ∀ t : Fin 4, t.val ≠ 0 → m.kernel.shellActive t = 1 → t ∈ m.started := by
  constructor
  · intro retriable t other
    exact (retriable t other).1
  · intro flags t other
    refine ⟨flags t other, fun new f starts => ?_⟩
    obtain ⟨outcome, k', step, -, entered⟩ :=
      altFn_unflagged (P := P) (f := f) other (mt (flags t other) new)
    obtain ⟨pid, rfl⟩ := entered.mpr starts
    exact ⟨pid, k', step⟩

theorem mem_started_altFn {t' : Fin 4} :
    t' ∈ (m.next (.altFn t f) outcome k').started ↔
      t' ∈ m.started ∨ t' = t ∧ ∃ pid, outcome = .entered pid := by
  cases outcome <;> simp [Moment.next, Event.startedOn, or_comm]

/-- Alt+Fn for a terminal without a flag sets it, so it has to start the shell, unless there
was one before. -/
theorem Retriable.altFn_iff (before : Retriable P m)
    (step : P.altFn m.kernel t f = some (outcome, k')) :
    Retriable P (m.next (.altFn t f) outcome k') ↔ StartSafe P m (.altFn t f) := by
  rw [retriable_iff] at before ⊢
  by_cases flagged : t.val = 0 ∨ m.kernel.shellActive t = 1
  · rw [altFn_flagged flagged] at step
    cases step
    refine iff_of_true ?_ ?_
    · intro t' other active
      exact mem_started_altFn.mpr (.inl (before t' other active))
    · intro other _ unflagged
      exact absurd flagged (not_or.mpr ⟨other, unflagged⟩)
  · obtain ⟨other, unflagged⟩ := not_or.mp flagged
    obtain ⟨outcome', k₁, step', active, entered⟩ :=
      altFn_unflagged (P := P) (f := f) other unflagged
    cases step.symm.trans step'
    have reduce : StartSafe P m (.altFn t f) ↔
        t ∈ m.started ∨ P.StartsProgram m.kernel shellCommand f := by
      simp only [StartSafe, other, unflagged, ne_eq, not_false_eq_true, forall_const]
      exact Decidable.or_iff_not_imp_left.symm
    rw [reduce]
    constructor
    · intro after
      have own := after t other (by simp only [Moment.next, active, Function.update_self])
      rcases mem_started_altFn.mp own with old | ⟨-, new⟩
      · exact .inl old
      · exact .inr (entered.mp new)
    · intro safe t' other' flag
      rw [mem_started_altFn]
      rcases eq_or_ne t' t with rfl | ne
      · exact safe.imp id fun starts => ⟨rfl, entered.mpr starts⟩
      · simp only [Moment.next, active, Function.update_of_ne ne] at flag
        exact .inl (before t' other' flag)

/-- One event. -/
theorem Retriable.step_iff (before : Retriable P m) (step : P.step m.kernel e = some (outcome, k')) :
    Retriable P (m.next e outcome k') ↔ StartSafe P m e := by
  by_cases altFn : e.IsAltFn
  · cases e with
    | altFn t f => exact before.altFn_iff step
    | _ => exact altFn.elim
  · have safe : StartSafe P m e := by
      cases e with
      | altFn t f => exact absurd trivial altFn
      | _ => trivial
    refine iff_of_true ?_ safe
    rw [retriable_iff] at before ⊢
    intro t other active
    simp only [Moment.next, shellActive_step altFn step] at active
    exact Finset.mem_union_left _ (before t other active)

/-- The first shell is that of terminal 0, and no other terminal has a flag. -/
theorem retriable_boot {start : Kernel} {pid : Nat}
    (init : P.syscallInitShell (start.boot P) 0 f = some (.entered pid, k)) :
    Retriable P ⟨{0}, k⟩ := by
  rw [retriable_iff]
  intro t other active
  simp only [shellActive_syscallInitShell init, Kernel.boot, if_neg other] at active
  exact absurd active (by decide)

/-- Every run of the kernel, under all of its events: at each of its states a terminal without
a shell has no flag, and its start can be retried, exactly if the first Alt+Fn for each
terminal has found a program that loads and a free pid. -/
theorem shell_start_retriable_iff (run : ShellRun P steps m) :
    (∀ step ∈ steps, Retriable P step.2.2) ↔ ∀ step ∈ steps, StartSafe P step.1 step.2.1 := by
  suffices ((∀ step ∈ steps, Retriable P step.2.2) ↔ ∀ step ∈ steps, StartSafe P step.1 step.2.1) ∧
      ((∀ step ∈ steps, StartSafe P step.1 step.2.1) → Retriable P m) from this.1
  induction run with
  | boot here on init => exact ⟨by simp, fun _ => retriable_boot init⟩
  | @step steps m k' e outcome run defined step ih =>
      obtain ⟨iff_before, before⟩ := ih
      simp only [List.forall_mem_append, List.forall_mem_singleton]
      constructor
      · rw [iff_before]
        exact and_congr_right fun safe => (before safe).step_iff step
      · rintro ⟨safe, last⟩
        exact ((before safe).step_iff step).mpr last

end Runs

/-! ### Pids run out -/

/-- The pids that a program can still be given. -/
def Kernel.freePids (k : Kernel) : Finset Nat := (Finset.Ico 1 16).filter fun p => k.pidUsage p = 0

theorem freePids_started {P : Platform} {k k' : Kernel} {r pid parent term : Nat} {f : Frame}
    (started : Started P Identity k r pid parent term f k') :
    k'.freePids = k.freePids.erase pid := by
  ext p
  rcases eq_or_ne p pid with rfl | ne
  · simp [Kernel.freePids, started.usage]
  · simp [Kernel.freePids, started.usage, ne]

/-- The sample system after a shell has started a shell, again and again, until no pid is
left: the flags are as they were. -/
theorem ShellRun.exhausted {steps : List (Moment × Event × Moment)} {m : Moment}
    (run : ShellRun sample steps m) (live : m.kernel.pidUsage m.kernel.running ≠ 0) :
    ∃ steps' m', ShellRun sample steps' m' ∧ m'.started = m.started ∧
      m'.kernel.shellActive = m.kernel.shellActive ∧
      ∀ p, 1 ≤ p → p < 16 → m'.kernel.pidUsage p ≠ 0 := by
  induction free : m.kernel.freePids.card using Nat.strongRecOn generalizing steps m with
  | _ n ih =>
      rcases Nat.eq_zero_or_pos n with none | positive
      · refine ⟨steps, m, run, rfl, rfl, fun p pos lt zero => ?_⟩
        have mem : p ∈ m.kernel.freePids := by simp [Kernel.freePids, pos, lt, zero]
        rw [none, Finset.card_eq_zero] at free
        rw [free] at mem
        cases mem
      · obtain ⟨p, mem⟩ := Finset.card_pos.mp (free ▸ positive)
        simp only [Kernel.freePids, Finset.mem_filter, Finset.mem_Ico] at mem
        obtain ⟨G, r, h, on⟩ := run.reachable.sound
        have lt := (h.range r on.mem).2
        have running := Kernel.running_eq lt on.curr
        have onStack : (Frame.sample r).On m.kernel :=
          (pcbProcess_kernelStack lt).trans on.curr.symm
        rcases syscallExecute_outcome sample m.kernel shellCommand (.sample r) with
          ⟨not, -⟩ | ⟨-, pid, parse, k', exec, -, -⟩
        · exact absurd ⟨loads_sample r, p, mem.1.1, mem.1.2, mem.2⟩ not
        rw [running] at live
        have next := run.step (e := .execute (some shellCommand) (.sample r))
          ⟨by rwa [running], onStack, inBounds_sample r⟩ exec
        rcases syscallExecute_cases Identity lt on.curr live (by simp [Identity])
          (fun c parse given parsed g id =>
            unreached_of_inBounds parsed (inBounds_sample r c parse given parsed) id) exec with
          ⟨returned, -⟩ | ⟨_, entered, started, -, -⟩
        · cases returned
        cases entered
        have fewer : k'.freePids.card < n := by
          rw [← free, freePids_started started]
          apply Finset.card_erase_lt_of_mem
          simp [Kernel.freePids, started.new.pos, started.new.lt, started.new.free]
        obtain ⟨steps', m', run', same, flags, full⟩ := ih _ fewer next (by
          rw [Moment.next, Kernel.running_eq started.new.lt started.curr, started.usage]
          simp) rfl
        refine ⟨steps', m', run', same.trans ?_, flags.trans started.shellActive, full⟩
        simp [Moment.next, Event.startedOn]

/-- The first shell runs, and Alt+F2 starts a second one. -/
theorem shell_start_retriable_second :
    ∃ m, ShellRun sample [(⟨{0}, Kernel.sampleBoot⟩, .sampleAltF2 1, m)] m ∧
      m.started = {0, 1} ∧ Retriable sample m := by
  have boot : ShellRun sample [] ⟨{0}, Kernel.sampleBoot⟩ :=
    .boot (Kernel.blank_curr (by decide)) sampleBoot_on sampleBoot_init
  have ends : (sample.step Kernel.sampleBoot (.sampleAltF2 1)).map (·.1) = some (.entered 2) := by
    decide +kernel
  have on : (Event.sampleAltF2 1).Defined Kernel.sampleBoot := by
    show (Frame.sample 1).On Kernel.sampleBoot
    decide +kernel
  have run := boot.step (e := .sampleAltF2 1) on (step_after ends)
  rw [List.nil_append] at run
  have both : (Moment.next ⟨{0}, Kernel.sampleBoot⟩ (.sampleAltF2 1) (.entered 2)
      (Kernel.sampleBoot.after sample (.sampleAltF2 1))).started = {0, 1} := by
    simp only [Moment.next, Event.startedOn, Event.sampleAltF2]
    rfl
  generalize Moment.next _ _ _ _ = m at run both
  have safe : StartSafe sample ⟨{0}, Kernel.sampleBoot⟩ (.sampleAltF2 1) := by
    intro _ _ _
    exact ⟨loads_sample 1, 2, by decide, by decide, by decide +kernel⟩
  have all := (shell_start_retriable_iff run).mpr (List.forall_mem_singleton.mpr safe)
  exact ⟨m, run, both, all _ List.mem_cons_self⟩

/-- With every pid in use Alt+F2 sets the flag of the second terminal and starts nothing.
From then on Alt+F2 only switches, whatever pids are free. -/
theorem shell_start_lost :
    (∃ steps m, ShellRun sample steps m ∧ m.kernel.shellActive 1 = 1 ∧ 1 ∉ m.started) ∧
      ∀ k f, k.shellActive 1 = 1 → (sample.altFn k 1 f).map (·.1) = some (.returned 0) := by
  constructor
  · have boot : ShellRun sample [] ⟨{0}, Kernel.sampleBoot⟩ :=
      .boot (Kernel.blank_curr (by decide)) sampleBoot_on sampleBoot_init
    obtain ⟨steps, m, run, same, flags, full⟩ := boot.exhausted (by decide +kernel)
    have unflagged : m.kernel.shellActive 1 ≠ 1 := by
      rw [flags]
      decide +kernel
    obtain ⟨G, r, h, on⟩ := run.reachable.sound
    have onStack : (Frame.sample r).On m.kernel :=
      (pcbProcess_kernelStack (h.range r on.mem).2).trans on.curr.symm
    obtain ⟨outcome, k', step, active, entered⟩ :=
      altFn_unflagged (P := sample) (f := .sample r) (t := 1) (by decide) unflagged
    refine ⟨_, _, run.step (e := .altFn 1 (.sample r)) onStack step, ?_, ?_⟩
    · simp only [Moment.next, active, Function.update_self]
    · rw [mem_started_altFn, same]
      rintro (old | ⟨-, new⟩)
      · exact absurd old (by decide)
      · obtain ⟨-, p, pos, lt, free⟩ := entered.mp new
        exact full p pos lt free
  · intro k f flagged
    rw [altFn_flagged (.inr flagged)]
    rfl

end Linux391
