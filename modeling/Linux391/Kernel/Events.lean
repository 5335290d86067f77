import Linux391.Kernel.DescriptorTable
import Linux391.Kernel.ProcessEffects

/-!
The kernel as a system of events.

Between two events the running process computes in user mode. An event is a system
call it makes or an interrupt, each taken atomically. `boot` is the state in which
`entry` of `kernel.c` calls `syscall_init_shell(0)`.
-/

namespace Linux391

open Memory

inductive Event where
  /-- The timer interrupt, with the registers at the point where the tick saves them. -/
  | tick (f : Frame)
  /-- Alt with F1 to F4, up to the `input_process_key` every key ends with. -/
  | altFn (t : Fin 4) (f : Frame)
  /-- `input_process_key`. -/
  | key (key scancode control alt : UInt8)
  | execute (command : Option CStr) (f : Frame)
  | halt (status : UInt8) (u : Fin 8 → Unspecified) (f : Frame)
  | vidmap (screenStart : Nat)
  | call (c : Platform.FdCall)

/-- The frame lies on the kernel stack of the running process. -/
def Frame.On (f : Frame) (k : Kernel) : Prop := pcbProcess f.esp = k.curr

instance (f : Frame) (k : Kernel) : Decidable (f.On k) :=
  inferInstanceAs (Decidable (pcbProcess f.esp = k.curr))

/-- The state before `syscall_init_shell(0)`, over whatever memory held at power-on.
`scheduling_init` also clears the byte after `sched`. -/
def Kernel.boot (P : Platform) (start : Kernel) : Kernel :=
  { start with
    pidUsage := fun i => if 1 ≤ i ∧ i < 16 then 0 else start.pidUsage i
    sched := fun i => if i ≤ 16 then 0 else start.sched i
    paging := Paging.init P.pages Paging.zero
    cr3 := 0
    tss := ⟨0x18, 0x800000⟩
    terms := start.terms.booted
    shellActive := fun t => if t.val = 0 then 1 else 0 }

/-- The pid whose kernel stack is in use. -/
def Kernel.running (k : Kernel) : Nat := (0x7FE000 - k.curr) / 0x2000

theorem Kernel.running_eq {k : Kernel} {r : Nat} (lt : r < 16) (here : k.curr = getPcb r) :
    k.running = r := by
  rw [running, here, getPcb_eq lt]
  omega

namespace Platform

variable (P : Platform)

/-- The part of `keyboard_handler` for Alt+Fn: F1 never starts a shell. -/
def altFn (k : Kernel) (t : Fin 4) (f : Frame) : Option (Outcome × Kernel) :=
  let k := { k with terms := k.terms.terminalSwitch t }
  if t.val = 0 ∨ k.shellActive t = 1 then some (.returned 0, k)
  else P.syscallInitShell { k with shellActive := Function.update k.shellActive t 1 } t f

/-- One event; `none` if it never ends. An interrupt counts as a call that returns 0. -/
def step (k : Kernel) : Event → Option (Outcome × Kernel)
  | .tick f => some (.returned 0, k.schedulerTick P f.esp f.ebp)
  | .altFn t f => P.altFn k t f
  | .key key scancode control alt =>
      some (.returned 0, { k with terms := k.terms.inputProcessKey key scancode control alt })
  | .execute command f => P.syscallExecute k command f
  | .halt status u f => P.syscallHalt k status u f
  | .vidmap screenStart => P.syscallVidmap k screenStart
  | .call c => (P.fdCall k c).map fun result => (.returned result.1, result.2)

end Platform

/-- The processes alive after an event: the caller of halt is gone, a program that was
entered is new. -/
def Event.live (live : Finset Nat) (k : Kernel) (e : Event) (outcome : Outcome) : Finset Nat :=
  let rest := match e with
    | .halt _ _ _ => live.erase k.running
    | _ => live
  match outcome with
  | .entered pid => insert pid rest
  | _ => rest

/-! ### Arguments -/

/-- The arguments a command hands over fit `args[100]`. -/
def ArgsFit (command : Option CStr) (f : Frame) : Prop :=
  ∀ c parse, command = some c → parseCommand c f = some parse → strlen parse.fargs < 100

/-- What `syscall_init_shell` copies to `args` ends at index 4 at the latest. -/
theorem shell_args_fit {f : Frame} {parse : Parse}
    (parsed : parseCommand Platform.shellCommand f = some parse) :
    (strcpyBytes parse.fargs).length ≤ 100 := by
  have len : strlen Platform.shellCommand = 5 := strlen_eq rfl (by decide) (by decide)
  have chars : CStr.chars Platform.shellCommand = [115, 104, 101, 108, 108] := by
    rw [CStr.chars, len]
    rfl
  simp only [parseCommand, chars, len] at parsed
  have stop : parse.fargs 4 = 0 := by
    obtain ⟨s, looped, rfl⟩ := Option.map_eq_some_iff.mp parsed
    have looped' := Option.some.inj looped
    subst looped'
    rfl
  have short := strlen_le stop
  rw [length_strcpyBytes]
  omega

/-! ### Runs of the process table -/

/-- The events that start, end and switch processes. A root shell may halt only where
`restart` allows it. -/
def Event.OfProcesses (restart : Kernel → Frame → Prop) (k : Kernel) : Event → Prop
  | .tick f => f.On k
  | .altFn _ f => f.On k
  | .execute command f => f.On k ∧ ArgsFit command f
  | .halt _ _ f => f.On k ∧ (k.field .parentPcb = 0 → restart k f)
  | _ => False

/-- Runs from boot, with the processes alive. -/
inductive ProcessRun (P : Platform) (restart : Kernel → Frame → Prop) :
    Finset Nat → Kernel → Prop where
  | boot {start k : Kernel} {f : Frame} {pid : Nat} : start.curr = getPcb 0 →
      f.On (start.boot P) → P.syscallInitShell (start.boot P) 0 f = some (.entered pid, k) →
      ProcessRun P restart {pid} k
  | step {live : Finset Nat} {k k' : Kernel} {e : Event} {outcome : Outcome} :
      ProcessRun P restart live k → e.OfProcesses restart k →
      P.step k e = some (outcome, k') → ProcessRun P restart (e.live live k outcome) k'

/-! ### Evaluating runs -/

/-- The state after an event, for events that end. -/
def Kernel.after (P : Platform) (k : Kernel) (e : Event) : Kernel :=
  ((P.step k e).map (·.2)).getD k

theorem Platform.step_after {P : Platform} {k : Kernel} {e : Event} {outcome : Outcome}
    (ends : (P.step k e).map (·.1) = some outcome) : P.step k e = some (outcome, k.after P e) := by
  obtain ⟨⟨_, k'⟩, step, rfl⟩ := Option.map_eq_some_iff.mp ends
  simp [Kernel.after, step]

/-- An event with a known outcome extends a run by the state it leads to. -/
theorem ProcessRun.after {P : Platform} {restart : Kernel → Frame → Prop} {live : Finset Nat}
    {k : Kernel} (run : ProcessRun P restart live k) (e : Event) (outcome : Outcome)
    (allowed : e.OfProcesses restart k) (ends : (P.step k e).map (·.1) = some outcome) :
    ProcessRun P restart (e.live live k outcome) (k.after P e) :=
  run.step allowed (Platform.step_after ends)

/-- A call of process `p` that finds zeros on its stack. -/
def Frame.sample (p : Nat) : Frame :=
  ⟨kernelStack p, kernelStack p, fun _ => 0, fun _ => 0, fun _ => 0, fun _ => 0⟩

/-- Alt+F2 while process `p` runs. -/
def Event.sampleAltF2 (p : Nat) : Event := .altFn ⟨1, by decide⟩ (.sample p)

theorem argsFit_shell (f : Frame) : ArgsFit (some Platform.shellCommand) f := by
  intro c parse given parsed
  cases given
  have short := shell_args_fit parsed
  rw [length_strcpyBytes] at short
  omega

/-- The sample system with its first shell running. -/
def Kernel.sampleBoot : Kernel :=
  ((Platform.sample.syscallInitShell ((Kernel.blank 0).boot Platform.sample) 0
    (Frame.sample 0)).map (·.2)).getD (Kernel.blank 0)

theorem sampleBoot_init :
    Platform.sample.syscallInitShell ((Kernel.blank 0).boot Platform.sample) 0 (Frame.sample 0) =
      some (.entered 1, Kernel.sampleBoot) := by
  have ends : (Platform.sample.syscallInitShell ((Kernel.blank 0).boot Platform.sample) 0
      (Frame.sample 0)).map (·.1) = some (.entered 1) := by decide +kernel
  obtain ⟨⟨_, k⟩, init, rfl⟩ := Option.map_eq_some_iff.mp ends
  simp [Kernel.sampleBoot, init]

theorem sampleBoot_on : (Frame.sample 0).On ((Kernel.blank 0).boot Platform.sample) := by
  decide +kernel

theorem ProcessRun.sampleBoot (restart : Kernel → Frame → Prop) :
    ProcessRun Platform.sample restart {1} Kernel.sampleBoot :=
  .boot (Kernel.blank_curr (by decide)) sampleBoot_on sampleBoot_init

/-- The first shell starts a second one. -/
def sampleExecuted : Kernel :=
  Kernel.sampleBoot.after Platform.sample (.execute (some Platform.shellCommand) (.sample 1))

/-- The sample image has a shell that loads. -/
theorem loads_sample (p : Nat) : Platform.sample.Loads Platform.shellCommand (.sample p) := by
  have here : ((Kernel.blank 0).boot Platform.sample).curr = getPcb 0 :=
    Kernel.blank_curr (by decide)
  rcases Platform.syscallInitShell_cases (fun _ => True) (by decide) here trivial
      (fun _ parsed g _ => unreached_of_fit (shell_args_fit parsed) g) sampleBoot_init with
    ⟨returned, -⟩ | ⟨_, _, _, _, loads, _⟩
  · cases returned
  · exact loads

end Linux391
