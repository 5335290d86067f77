import Linux391.Kernel.Reachable

/-!
A `syscall_execute` that returns -1.

Five of its six failures come before anything was changed. The last comes after a pid was
taken, a page directory built, CR3 switched and the program copied to its frame. The undo
steps restore the first and the third, and the copy went to the frame of a pid that was
free, so not to the caller's.
-/

namespace Linux391

open Memory Platform

variable {P : Platform} {k k' : Kernel} {f : Frame}

/-- A call that returns has failed to load. -/
theorem syscallExecute_returned {command : Option CStr} {value : Int}
    (exec : P.syscallExecute k command f = some (.returned value, k')) : LoadFailed P k k' := by
  cases command with
  | none =>
      cases exec
      exact .early
  | some c =>
      simp only [syscallExecute] at exec
      rcases loadProgram_cases P k c f with ⟨failed, load, how, -⟩ | ⟨pid, parse, loaded, load, -⟩
      · rw [load] at exec
        cases exec
        exact how
      · rw [load] at exec
        cases exec

/-- **A failing execute changes nothing.** In every reachable state, if the call of a live
process returns -1 then the process tables, kernel memory with every PCB, the task state
segment, the terminals, CR3 and the caller's frame are as they were. -/
theorem failed_execute_changes_nothing (reachable : Reachable P k)
    (live : k.pidUsage k.running ≠ 0) :
    ∀ command f k', InBounds command f → f.On k →
      P.syscallExecute k command f = some (.returned (-1), k') →
      k'.pidUsage = k.pidUsage ∧ k'.sched = k.sched ∧ k'.mem = k.mem ∧ k'.tss = k.tss ∧
        k'.terms = k.terms ∧ k'.cr3 = k.cr3 ∧
        ∀ pa, Paging.InImage k.running pa → k'.frames pa = k.frames pa := by
  intro command f k' _ _ exec
  obtain ⟨G, r, sound, on⟩ := reachable.sound
  have lt := (sound.range r on.mem).2
  rw [Kernel.running_eq lt on.curr] at live ⊢
  cases syscallExecute_returned exec with
  | early => exact ⟨rfl, rfl, rfl, rfl, rfl, rfl, fun _ _ => rfl⟩
  | @late pid frames new outside =>
      have ne : pid ≠ r := fun same => live (same ▸ new.free)
      rw [on.field sound, Kernel.pagingUpdateControl, if_pos lt]
      exact ⟨rfl, rfl, rfl, rfl, rfl, on.cr3.symm,
        fun pa mine => outside pa fun theirs => ne (theirs.unique mine)⟩

/-- `"bad"`, a program whose entry point reads as -1. -/
def badCommand : CStr := cLit [98, 97, 100]

/-- The shell tries to run it: the load fails at the last step and leaves pid 2 free. -/
theorem failed_execute_changes_nothing_bad :
    ∃ k', Platform.sample.syscallExecute Kernel.sampleBoot (some badCommand) (.sample 1) =
        some (.returned (-1), k') ∧
      k'.pidUsage = Kernel.sampleBoot.pidUsage ∧ k'.cr3 = Kernel.sampleBoot.cr3 ∧
      k'.frames 0xC48000 = 0x7f ∧ Kernel.sampleBoot.frames 0xC48000 = 0 := by
  have ends : (Platform.sample.syscallExecute Kernel.sampleBoot (some badCommand)
      (.sample 1)).map (fun out => (out.1, out.2.frames 0xC48000)) =
        some (.returned (-1), 0x7f) := by decide +kernel
  have parsed : (parseCommand badCommand (.sample 1)).map (·.inBounds) = some true := by
    decide +kernel
  obtain ⟨⟨outcome, k'⟩, exec, eq⟩ := Option.map_eq_some_iff.mp ends
  obtain ⟨rfl, copied⟩ := Prod.mk.inj eq
  have inBounds : InBounds (some badCommand) (.sample 1) := by
    intro c parse given this
    cases given
    rw [this] at parsed
    exact Option.some.inj parsed
  have unchanged := failed_execute_changes_nothing Reachable.sampleBoot (by decide +kernel) _ _ _
    inBounds (by decide +kernel) exec
  exact ⟨k', exec, unchanged.1, unchanged.2.2.2.2.2.1, copied, by decide +kernel⟩

end Linux391
