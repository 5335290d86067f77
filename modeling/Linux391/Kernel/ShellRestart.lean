import Linux391.Kernel.ProcessTable

/-!
Root shells that halt.

`syscall_halt` of a process without a parent frees its pid and calls
`syscall_init_shell`, and does not unschedule the pid. Nothing goes wrong if the new
shell gets the same pid, that is, if no lower one is free and the shell can be loaded.
Otherwise the old pid stays scheduled and free, and a tick will run it.
-/

namespace Linux391

open Memory Platform

variable {P : Platform} {k k' : Kernel} {s : Stacks (Fin 4) Nat} {t : Fin 4} {r : Nat} {f : Frame}
  {live : Finset Nat} {status : UInt8} {u : Fin 8 → Unspecified} {outcome : Outcome}

/-- Every scheduled pid is in use and belongs to a live process. -/
def Consistent (live : Finset Nat) (k : Kernel) : Prop :=
  ∀ p < 16, k.sched p = 1 → k.pidUsage p = 1 ∧ p ∈ live

/-- When a root shell may halt: the shell loads, and every lower pid is in use. -/
def RestartSafe (P : Platform) (k : Kernel) (f : Frame) : Prop :=
  P.Loads shellCommand f ∧ ∀ q, 1 ≤ q → q < k.field .pid → k.pidUsage q = 1

/-- The state in which a root shell calls `syscall_init_shell`. -/
def Kernel.vacated (k : Kernel) (r : Nat) : Kernel :=
  { k.tasksPidFree r with esp := kernelStack r }

theorem Platform.LoadFailed.tables (failed : LoadFailed P k k') :
    k'.pidUsage = k.pidUsage ∧ k'.sched = k.sched := by
  obtain ⟨_, _, _, rfl, -⟩ := failed.unchanged
  exact ⟨rfl, rfl⟩

theorem Represented.consistent (h : Represented live k) : Consistent live k := by
  obtain ⟨s, t, r, table, -, same⟩ := h
  intro p lt runnable
  have mem := ((table.sched_iff same lt).mp runnable).1
  exact ⟨table.inUse p ((same p).mp mem), mem⟩

/-- The halt of the root shell `r` is the start of a shell from the vacated state. -/
theorem syscallHalt_root (table : Table s k) (running : Running s t r k)
    (root : k.field .parentPcb = 0) (on : f.On k)
    (halt : P.syscallHalt k status u f = some (outcome, k')) :
    (outcome = .returned (-1) ∧ k'.pidUsage = Function.update k.pidUsage r 0 ∧
      k'.sched = k.sched ∧ ¬ P.Loads shellCommand f) ∨
    ∃ pid, outcome = .entered pid ∧ P.Loads shellCommand f ∧
      Started P (fun _ => True) (k.vacated r) r pid 0 t.val f k' ∧
      k'.sched = Function.update k.sched pid 1 ∧
      f.On (k.vacated r) := by
  have lt := (running.range table).2
  have process := running.process table
  have here : (k.vacated r).curr = getPcb r := pcbProcess_kernelStack lt
  have pid : k.field .pid = r := (running.field _).trans process.pid
  have term : (k.vacated r).field .term % 256 = t.val := by
    show get k.mem (pcbProcess (kernelStack r)) .term % 256 = t.val
    rw [pcbProcess_kernelStack lt, process.term]
    omega
  have on' : f.On (k.vacated r) := on.trans (running.curr.trans here.symm)
  have init : P.syscallInitShell (k.vacated r) t.val f = some (outcome, k') := by
    rw [← term]
    simp only [syscallHalt, root, if_true, pid] at halt
    exact halt
  rcases syscallInitShell_cases (fun _ => True) lt here trivial
    (fun _ parsed g _ => unreached_of_fit (shell_args_fit parsed) g) init with
    ⟨returned, failed, why⟩ | ⟨new, -, entered, -, loads, started, sched, -⟩
  · refine .inl ⟨returned, failed.tables.1, failed.tables.2, fun loads => ?_⟩
    exact why loads r (running.range table).1 lt (Function.update_self _ _ _)
  · exact .inr ⟨new, entered, loads, started, sched, on'⟩

/-! ### The same pid -/

/-- A shell started anew on its own pid leaves every stack as it was. -/
theorem Table.restart (table : Table s k) (running : Running s t r k)
    (root : k.field .parentPcb = 0) (on : f.On (k.vacated r))
    (started : Started P (fun _ => True) (k.vacated r) r r 0 t.val f k')
    (sched : k'.sched = Function.update k.sched r 1) : Table s k' ∧ Running s t r k' := by
  have lt := (running.range table).2
  have here : (k.vacated r).curr = getPcb r := pcbProcess_kernelStack lt
  have value : ∀ g, g ≠ .espReg → g ≠ .ebpReg → get k'.mem (getPcb r) g =
      assigned (get k.mem (getPcb r) g) g (P.newPcb r 0 t.val) := by
    intro g esp ebp
    rw [started.fields r lt g trivial, if_neg fun h => esp h.2.symm, if_neg fun h => ebp h.2.symm,
      if_pos rfl]
    rfl
  have usage : k'.pidUsage = k.pidUsage := by
    rw [started.usage]
    show Function.update (Function.update k.pidUsage r 0) r 1 = k.pidUsage
    rw [Function.update_idem, ← table.inUse r running.top.mem, Function.update_eq_self]
  have sched' : k'.sched = k.sched := by
    rw [sched, ← table.top t r running.top, Function.update_eq_self]
  have renewed : IsProcess k' t r := by
    refine ⟨?_, ?_, ?_, fun fd ge => ?_⟩
    · rw [value _ (by simp) (by simp), assigned_newPcb_pid _ lt]
    · rw [value _ (by simp) (by simp), assigned_newPcb_term, Nat.mod_eq_of_lt (by omega)]
    · -- the registers are saved in the PCB that was just filled in
      rw [started.fields r lt _ trivial, if_pos ⟨rfl, rfl⟩, pcbProcess_mod, ← here]
      exact on
    · rw [value _ (by simp) (by simp), assigned_newPcb_flags, if_neg (by omega)]
  have old : ∀ p ∈ s, p ≠ r → Saved (k.vacated r) r f k' p := fun p mem ne =>
    started.saved (table.range p mem).2 ne.symm
  refine ⟨table.transfer usage sched' (fun i active => by rw [started.shellActive]; exact active)
    (fun i p mem process => ?_) fun p mem => ?_, running.top, started.curr, started.cr3,
    by rw [started.tss]⟩
  · rcases eq_or_ne p r with rfl | ne
    · obtain rfl := s.apart i t p mem running.top.mem_stack
      exact renewed
    · have process' : IsProcess (k.vacated r) i p :=
        ⟨process.pid, process.term, process.stack, process.closed⟩
      exact process'.saved here on (old p ⟨i, mem⟩ ne)
  · rcases eq_or_ne p r with rfl | ne
    · rw [value _ (by simp) (by simp), assigned_newPcb_parentPcb, Nat.zero_mod, ← running.field,
        root]
    · exact (old p mem ne).other (by simp) (by simp)

/-- The new shell gets the old pid iff every lower pid is in use. -/
theorem NewPid.eq_iff (table : Table s k) (running : Running s t r k) {pid : Nat}
    (new : (k.vacated r).NewPid pid) :
    pid = r ↔ ∀ q, 1 ≤ q → q < r → k.pidUsage q = 1 := by
  have vacated : ∀ q, q ≠ r → (k.vacated r).pidUsage q = k.pidUsage q := fun q ne =>
    Function.update_of_ne ne _ _
  constructor
  · rintro rfl q pos lt
    by_contra notUsed
    refine new.lowest q pos lt ((vacated q (by omega)).trans ?_)
    refine table.free q pos (by have := new.lt; omega) fun mem => notUsed (table.inUse q mem)
  · intro used
    rcases Nat.lt_trichotomy pid r with below | same | above
    · have free := new.free
      rw [vacated pid (by omega), used pid new.pos below] at free
      exact absurd free (by decide)
    · exact same
    · exact absurd (Function.update_self _ _ _)
        (new.lowest r (running.range table).1 above)

/-- Safe restarts keep the table. -/
theorem restartSafe_keeps (P : Platform) : RestartKeeps P (RestartSafe P) := by
  intro live k k' f status u outcome represented on root safe halt
  obtain ⟨s, t, r, table, running, same⟩ := represented
  have pid : k.field .pid = r := (running.field _).trans (running.process table).pid
  rcases syscallHalt_root table running root on halt with
    ⟨-, -, -, notLoads⟩ | ⟨new, rfl, -, started, sched, on'⟩
  · exact absurd safe.1 notLoads
  · obtain rfl : new = r :=
      (NewPid.eq_iff table running started.new).mpr fun q pos lt => safe.2 q pos (by omega)
    obtain ⟨table', running'⟩ := table.restart running root on' started sched
    refine ⟨s, t, new, table', running', fun p => ?_⟩
    have mem : new ∈ live := (same new).mpr running.top.mem
    simp only [Event.live, Kernel.running_eq (running.range table).2 running.curr,
      Finset.insert_erase mem, same]

/-- **Restarting a shell.** Along every run in which root shells halt only when it is
safe, each scheduled pid is in use by a live process, the one the tick picks included;
and at any state of such a run the halt of a root shell keeps it so iff it is safe. -/
theorem shell_restart_consistent (run : ProcessRun P (RestartSafe P) live k) :
    Consistent live k ∧
    (∀ next, Kernel.nextPid k.sched (k.field .pid) = some next →
      k.pidUsage next = 1 ∧ next ∈ live) ∧
    ∀ f status u outcome k', f.On k → k.field .parentPcb = 0 →
      P.syscallHalt k status u f = some (outcome, k') →
      (Consistent ((Event.halt status u f).live live k outcome) k' ↔ RestartSafe P k f) := by
  have represented := run.represented (restartSafe_keeps P)
  refine ⟨represented.consistent, fun next picked => ?_,
    fun f status u outcome k' on root halt => ⟨fun consistent => ?_, fun safe =>
      (restartSafe_keeps P represented on root safe halt).consistent⟩⟩
  · obtain ⟨s, t, r, table, running, same⟩ := represented
    have pid : k.field .pid = r := (running.field _).trans (running.process table).pid
    obtain ⟨q, lt, found, runnable⟩ :=
      Kernel.nextPid_eq_some (running.range table).2 (table.top t r running.top)
    rw [pid, found] at picked
    cases picked
    exact Represented.consistent ⟨s, t, r, table, running, same⟩ next lt runnable
  · obtain ⟨s, t, r, table, running, same⟩ := represented
    have lt := (running.range table).2
    have pid : k.field .pid = r := (running.field _).trans (running.process table).pid
    have runnable := table.top t r running.top
    rcases syscallHalt_root table running root on halt with
      ⟨-, usage, sched, -⟩ | ⟨new, -, loads, started, sched, -⟩
    · have used := (consistent r lt (by rw [sched, runnable])).1
      rw [usage, Function.update_self] at used
      exact absurd used (by decide)
    · refine ⟨loads, ?_⟩
      rw [pid]
      refine (NewPid.eq_iff table running started.new).mp ?_
      by_contra ne
      have still : k'.sched r = 1 := by rw [sched, Function.update_of_ne (Ne.symm ne), runnable]
      have used := (consistent r lt still).1
      rw [started.usage, Function.update_of_ne (Ne.symm ne)] at used
      exact absurd ((Function.update_self r 0 k.pidUsage).symm.trans used) (by decide)

/-- The only shell of the sample system may halt: it gets pid 1 again. -/
theorem shell_restart_consistent_first :
    RestartSafe Platform.sample Kernel.sampleBoot (.sample 1) ∧
      ∃ k', Platform.sample.syscallHalt Kernel.sampleBoot 0 (fun _ => .sample) (.sample 1) =
          some (.entered 1, k') ∧ Consistent {1} k' := by
  have pid : Kernel.sampleBoot.field .pid = 1 := by decide +kernel
  have safe : RestartSafe Platform.sample Kernel.sampleBoot (.sample 1) :=
    ⟨loads_sample 1, fun q pos lt => by omega⟩
  have ends : (Platform.sample.syscallHalt Kernel.sampleBoot 0 (fun _ => .sample)
      (.sample 1)).map (·.1) = some (.entered 1) := by decide +kernel
  obtain ⟨⟨_, k'⟩, halt, rfl⟩ := Option.map_eq_some_iff.mp ends
  have running : Kernel.sampleBoot.running = 1 := by decide +kernel
  have consistent := ((shell_restart_consistent (ProcessRun.sampleBoot _)).2.2 _ _ _ _ _
    (by decide +kernel) (by decide +kernel) halt).mpr safe
  simp only [Event.live, running] at consistent
  exact ⟨safe, k', halt, consistent⟩

/-- The tick goes on to the shell of terminal 1, which has pid 3 while pid 2 is free. -/
def sampleSwitched : Kernel := sampleHalted.after Platform.sample (.tick (.sample 1))

/-- That shell halts. -/
def sampleRestarted : Kernel :=
  sampleSwitched.after Platform.sample (.halt 0 (fun _ => .sample) (.sample 3))

/-- When it does, the new shell gets pid 2; pid 3 is free and stays scheduled, and the
next tick runs it. -/
theorem shell_restart_runs_freed_pid :
    (∃ live, ProcessRun Platform.sample (fun _ _ => False) live sampleSwitched) ∧
      sampleSwitched.running = 3 ∧ sampleSwitched.field .parentPcb = 0 ∧
      (Platform.sample.syscallHalt sampleSwitched 0 (fun _ => .sample) (.sample 3)).map (·.1) =
        some (.entered 2) ∧
      sampleRestarted.sched 3 = 1 ∧ sampleRestarted.pidUsage 3 = 0 ∧
      (sampleRestarted.after Platform.sample (.tick (.sample 2))).running = 3 := by
  have onShell : (Frame.sample 1).On sampleHalted := by decide +kernel
  obtain ⟨live, -, run⟩ := ProcessRun.sampleHalted fun _ _ => False
  have switched : ProcessRun Platform.sample (fun _ _ => False) _ sampleSwitched :=
    run.after _ (.returned 0) onShell (by decide +kernel)
  -- one evaluation for all of them: the states are computed once
  exact ⟨⟨_, switched⟩, by decide +kernel⟩

end Linux391
