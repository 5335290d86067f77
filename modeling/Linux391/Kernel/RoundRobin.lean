import Linux391.Kernel.Reachable
import Linux391.Library.RoundRobin

/-!
The order in which `scheduler_tick` runs the scheduled processes.

`tickLoops` are the two loops of the source with their loop variables: the check that
anything is scheduled, and the search upwards from the running pid. They end within 17
rounds and find the first scheduled pid after the running one (`tickLoops_eq`,
`nextPid_eq_next`), which is round-robin selection among the 16 pids. Along a run of
ticks in which the scheduled set does not change, every scheduled process therefore has
its turn once in as many ticks as there are scheduled processes.
-/

namespace Linux391

open Memory Platform

namespace Kernel

/-! ### The loops of the source -/

/-- The first loop from `i` on: `some false` is the return without a switch, `none` that
the fuel ran out. -/
def anyScheduled (sched : Nat → UInt8) : Nat → Nat → Option Bool
  | 0, _ => none
  | fuel + 1, i =>
      if i = 16 then some false
      else if sched i = 1 then some true
      else anyScheduled sched fuel (i + 1)

/-- The second loop, with the loop variable and `next_pid`, which is not set at first. -/
def searchNext (sched : Nat → UInt8) (pid : Nat) : Nat → Nat → Option Nat → Option (Option Nat)
  | 0, _, _ => none
  | fuel + 1, i, nextPid =>
      if i = pid then some nextPid
      else if sched i = 1 then some (some i)
      else searchNext sched pid fuel ((i + 1) % 16) (some pid)

/-- Both loops: the pid to switch to, if any. -/
def tickLoops (sched : Nat → UInt8) (pid fuel : Nat) : Option (Option Nat) := do
  if ← anyScheduled sched fuel 0 then searchNext sched pid fuel ((pid + 1) % 16) none
  else some none

variable {sched : Nat → UInt8} {pid : Nat}

theorem anyScheduled_eq (i fuel : Nat) (le : i ≤ 16) (enough : 17 ≤ i + fuel) :
    anyScheduled sched fuel i = some ((List.range' i (16 - i)).any fun j => sched j == 1) := by
  induction fuel generalizing i with
  | zero => omega
  | succ fuel ih =>
      by_cases last : i = 16
      · subst last
        rfl
      · have more : 16 - i = (16 - (i + 1)) + 1 := by omega
        rw [anyScheduled, if_neg last, more, List.range'_succ, List.any_cons]
        by_cases here : sched i = 1
        · simp [here]
        · rw [if_neg here, ih (i + 1) (by omega) (by omega)]
          simp [here]

/-- The search from the `j`th pid after the running one, when there are others to look
at. -/
theorem searchNext_eq (lt : pid < 16) (j fuel : Nat) (le : j ≤ 15) (enough : 16 ≤ j + fuel)
    (nextPid : Option Nat) (started : j = 15 → nextPid = some pid) :
    searchNext sched pid fuel ((pid + 1 + j) % 16) nextPid =
      some (some ((((List.range' j (15 - j)).map fun i => (pid + 1 + i) % 16).find?
        fun i => sched i == 1).getD pid)) := by
  induction fuel generalizing j nextPid with
  | zero => omega
  | succ fuel ih =>
      by_cases last : j = 15
      · have back : (pid + 1 + j) % 16 = pid := by omega
        rw [searchNext, if_pos back, started last, last]
        rfl
      · have other : (pid + 1 + j) % 16 ≠ pid := by omega
        have more : 15 - j = (15 - (j + 1)) + 1 := by omega
        rw [searchNext, if_neg other, more, List.range'_succ, List.map_cons]
        by_cases here : sched ((pid + 1 + j) % 16) = 1
        · simp [here]
        · have onward : ((pid + 1 + j) % 16 + 1) % 16 = (pid + 1 + (j + 1)) % 16 := by omega
          rw [if_neg here, onward, ih (j + 1) (by omega) (by omega) _ (fun _ => rfl),
            List.find?_cons_of_neg (by simp [here])]

/-- The loops end, and give what the tick uses. -/
theorem tickLoops_eq (lt : pid < 16) {fuel : Nat} (enough : 17 ≤ fuel) :
    tickLoops sched pid fuel = some (nextPid sched pid) := by
  have search : searchNext sched pid fuel ((pid + 1 + 0) % 16) none = _ :=
    searchNext_eq lt 0 fuel (by omega) (by omega) none (by omega)
  rw [Nat.add_zero] at search
  unfold tickLoops nextPid
  rw [anyScheduled_eq 0 fuel (by omega) (by omega), search, candidates, if_pos lt,
    List.range_eq_range', List.range_eq_range']
  simp only [Option.bind_eq_bind, Option.bind_some, Nat.sub_zero]
  split <;> rfl

/-! ### Round robin -/

/-- Whether a pid may run. -/
def scheduled (sched : Nat → UInt8) (i : Nat) : Bool := sched i == 1

theorem scheduled_iff {i : Nat} : scheduled sched i = true ↔ sched i = 1 := beq_iff_eq

/-- The candidates in order, with the running pid behind them. -/
theorem turn_eq (lt : pid < 16) : RoundRobin.turn 16 pid = candidates pid ++ [pid] := by
  apply List.ext_getElem
  · simp [RoundRobin.turn, candidates, lt]
  · intro j inside _
    have inside' : j < 16 := by simpa [RoundRobin.turn] using inside
    have left : (RoundRobin.turn 16 pid)[j] = (j + (pid + 1)) % 16 := by
      simp [RoundRobin.turn, List.getElem_rotate]
    rw [left]
    by_cases last : j = 15
    · subst last
      rw [List.getElem_append_right (by simp [candidates, lt])]
      simp [candidates, lt]
      omega
    · rw [List.getElem_append_left (by simp [candidates, lt]; omega)]
      simp [candidates, Nat.add_comm]

/-- The tick picks by round robin. -/
theorem nextPid_eq_next (lt : pid < 16) :
    nextPid sched pid = RoundRobin.next 16 (scheduled sched) pid := by
  unfold nextPid RoundRobin.next
  rw [turn_eq lt, List.find?_append]
  show (if _ then some (((candidates pid).find? (scheduled sched)).getD pid) else none) = _
  cases found : (candidates pid).find? (scheduled sched) with
  | some q =>
      have mem : q ∈ RoundRobin.turn 16 pid := by
        rw [turn_eq lt]
        exact List.mem_append_left _ (List.mem_of_find?_eq_some found)
      have ready : scheduled sched q = true := List.find?_some found
      have any : ((List.range 16).any fun i => sched i == 1) = true :=
        List.any_eq_true.mpr ⟨q, List.mem_range.mpr (RoundRobin.mem_turn.mp mem), ready⟩
      rw [if_pos any]
      rfl
  | none =>
      have others : ∀ q < 16, q ≠ pid → scheduled sched q ≠ true := by
        intro q small other
        have mem : q ∈ candidates pid ++ [pid] := by
          rw [← turn_eq lt]
          exact RoundRobin.mem_turn.mpr small
        have among : q ∈ candidates pid := by simpa [other] using mem
        exact List.find?_eq_none.mp found q among
      by_cases own : scheduled sched pid = true
      · have any : ((List.range 16).any fun i => sched i == 1) = true :=
          List.any_eq_true.mpr ⟨pid, List.mem_range.mpr lt, own⟩
        rw [if_pos any, List.find?_cons_of_pos own]
        rfl
      · have nobody : ¬ ((List.range 16).any fun i => sched i == 1) = true := by
          rw [List.any_eq_true]
          rintro ⟨q, mem, isOn⟩
          by_cases same : q = pid
          · exact own (same ▸ isOn)
          · exact others q (List.mem_range.mp mem) same isOn
        rw [if_neg nobody, List.find?_cons_of_neg own]
        rfl

/-- The pid picked is the first scheduled one strictly after the running one, in cyclic
order. -/
structure NextScheduled (sched : Nat → UInt8) (pid p : Nat) : Prop where
  lt : p < 16
  isOn : sched p = 1
  first : ∃ j < 16, p = (pid + 1 + j) % 16 ∧ ∀ i < j, sched ((pid + 1 + i) % 16) ≠ 1
  sole : p = pid → ∀ q < 16, sched q = 1 → q = pid

theorem nextPid_nextScheduled (lt : pid < 16) {p : Nat} (picked : nextPid sched pid = some p) :
    NextScheduled sched pid p := by
  rw [nextPid_eq_next lt] at picked
  obtain ⟨small, ready⟩ := RoundRobin.next_isReady picked
  obtain ⟨-, before, after, split, skipped⟩ := List.find?_eq_some_iff_append.mp picked
  have length : before.length + (after.length + 1) = 16 := by
    have := congrArg List.length split
    simpa [RoundRobin.turn] using this.symm
  have entry : ∀ j : Nat, (RoundRobin.turn 16 pid)[j]? = (before ++ p :: after)[j]? := by
    intro j
    rw [split]
  have place : ∀ j < 16, (RoundRobin.turn 16 pid)[j]? = some ((pid + 1 + j) % 16) := by
    intro j inside
    rw [List.getElem?_eq_getElem (by simpa [RoundRobin.turn] using inside)]
    simp [RoundRobin.turn, List.getElem_rotate, Nat.add_comm]
  have here : p = (pid + 1 + before.length) % 16 := by
    have at_p := entry before.length
    rw [place before.length (by omega)] at at_p
    simpa using at_p.symm
  have earlier : ∀ i < before.length, sched ((pid + 1 + i) % 16) ≠ 1 := by
    intro i inside isOn
    have at_i := entry i
    rw [place i (by omega), List.getElem?_append_left inside] at at_i
    have mem : (pid + 1 + i) % 16 ∈ before := List.mem_of_getElem? at_i.symm
    have off := skipped _ mem
    rw [scheduled_iff.mpr isOn] at off
    cases off
  refine ⟨small, scheduled_iff.mp ready, ⟨before.length, by omega, here, earlier⟩, ?_⟩
  intro same q ltq isOn
  by_contra other
  -- `q` stands before the running pid, which is last
  have distance : ∃ i < 15, q = (pid + 1 + i) % 16 := ⟨(q + 15 - pid) % 16, by omega, by omega⟩
  obtain ⟨i, inside, eq⟩ := distance
  apply earlier i (by omega)
  rw [← eq]
  exact isOn

theorem nextPid_eq_none : nextPid sched pid = none ↔ ∀ i < 16, sched i ≠ 1 := by
  unfold nextPid
  rw [ite_eq_right_iff]
  simp

end Kernel

/-! ### Runs of ticks -/

/-- The processor is handed to `p`. -/
structure Dispatched (k' : Kernel) (p : Nat) : Prop where
  esp0 : k'.tss.esp0 = kernelStack p
  esp : k'.esp = get k'.mem (getPcb p) .espReg
  ebp : k'.ebp = get k'.mem (getPcb p) .ebpReg

theorem schedulerTick_dispatched {P : Platform} {k : Kernel} {esp ebp p : Nat}
    (picked : Kernel.nextPid k.sched (k.field .pid) = some p) :
    Dispatched (k.schedulerTick P esp ebp) p := by
  simp only [Kernel.schedulerTick, picked]
  constructor
  · simp only [Kernel.loadRegs, Kernel.pagingUpdateControl]
    split_ifs <;> rfl
  · simp only [Kernel.loadRegs]
  · simp only [Kernel.loadRegs]

/-- Ticks, with the pids they dispatch, and between them any events that change neither
the scheduled set nor the running process. -/
inductive TickRun (P : Platform) (k : Kernel) : List Nat → Kernel → Prop where
  | nil : TickRun P k [] k
  | tick {pids : List Nat} {k₁ : Kernel} {f : Frame} : TickRun P k pids k₁ → f.On k₁ →
      TickRun P k (pids ++ [(k₁.schedulerTick P f.esp f.ebp).running])
        (k₁.schedulerTick P f.esp f.ebp)
  | other {pids : List Nat} {k₁ k₂ : Kernel} {e : Event} {outcome : Outcome} :
      TickRun P k pids k₁ → (∀ f, e ≠ .tick f) → e.Defined k₁ →
      P.step k₁ e = some (outcome, k₂) → k₂.sched = k₁.sched → k₂.running = k₁.running →
      TickRun P k pids k₂

variable {P : Platform} {k k' : Kernel} {G : Nat → Prop} {r q : Nat} {f : Frame}

/-- The tick hands over to the pid it picks. -/
theorem Sound.running_tick (h : Sound P G k) (on : Sound.On G r k) (onStack : f.On k)
    (picked : Kernel.nextPid k.sched (k.field .pid) = some q) :
    (k.schedulerTick P f.esp f.ebp).running = q := by
  have mem : G q := h.nextPid_mem on picked
  obtain ⟨h', on'⟩ := h.switched on onStack mem (schedulerTick_switched (P := P)
    (h.range r on.mem).2 (h.range q mem).2 on.curr picked (h.pid q mem))
  exact Kernel.running_eq (h'.range q on'.mem).2 on'.curr

/-- A reachable state runs one of the 16 pids, and its PCB says so. -/
theorem Reachable.running_pid (reachable : Reachable P k) :
    k.running < 16 ∧ k.field .pid = k.running := by
  obtain ⟨G, r, h, on⟩ := reachable.sound
  have lt := (h.range r on.mem).2
  rw [Kernel.running_eq lt on.curr]
  exact ⟨lt, on.field h⟩

theorem TickRun.reachable {pids : List Nat} (run : TickRun P k pids k')
    (start : Reachable P k) : Reachable P k' := by
  induction run with
  | nil => exact start
  | @tick _ k₁ f _ onStack ih => exact ih.step (e := .tick f) onStack rfl
  | other _ _ defined step _ _ ih => exact ih.step defined step

theorem TickRun.sched_eq {pids : List Nat} (run : TickRun P k pids k') :
    k'.sched = k.sched := by
  induction run with
  | nil => rfl
  | @tick _ k₁ f _ _ ih =>
      rw [← ih]
      exact (Kernel.schedulerTick_tables P k₁ f.esp f.ebp).1
  | other _ _ _ _ same _ ih => rw [same, ih]

/-- The ticks of a run serve the scheduled set by round robin. -/
theorem TickRun.served {pids : List Nat} (run : TickRun P k pids k') (start : Reachable P k)
    (runnable : k.sched k.running = 1) :
    pids = RoundRobin.served 16 (Kernel.scheduled k.sched) pids.length k.running ∧
      k'.running = pids.getLastD k.running := by
  have lt := start.running_pid.1
  have ready : Kernel.scheduled k.sched k.running = true := Kernel.scheduled_iff.mpr runnable
  induction run with
  | nil => exact ⟨rfl, rfl⟩
  | @tick pids k₁ f run onStack ih =>
      obtain ⟨eq, last⟩ := ih
      have reachable := run.reachable start
      obtain ⟨lt₁, pid₁⟩ := reachable.running_pid
      obtain ⟨G, r, h, on⟩ := reachable.sound
      obtain ⟨_, ready₁⟩ := RoundRobin.last_served pids.length lt ready
      rw [← eq, ← last] at ready₁
      -- the running process is ready itself, so somebody is picked
      have on₁ : k₁.sched k₁.running = 1 := by
        rw [run.sched_eq]
        exact Kernel.scheduled_iff.mp ready₁
      obtain ⟨q, _, picked, _⟩ := Kernel.nextPid_eq_some lt₁ on₁
      rw [← pid₁] at picked
      have handed := h.running_tick on onStack picked
      have whose : RoundRobin.next 16 (Kernel.scheduled k.sched) (pids.getLastD k.running) =
          some q := by
        rw [← last, ← run.sched_eq, ← Kernel.nextPid_eq_next lt₁, ← pid₁, picked]
      rw [handed]
      refine ⟨?_, by simp⟩
      rw [List.length_append, List.length_singleton, RoundRobin.served_add _ 1 lt ready, ← eq]
      simp only [RoundRobin.served, whose]
  | other _ _ _ _ _ same ih =>
      obtain ⟨eq, last⟩ := ih
      exact ⟨eq, same.trans last⟩

/-- **Round robin.** Whatever is scheduled, the loops of the tick end; with nothing
scheduled the tick changes nothing, and otherwise it dispatches the first scheduled pid
after the running one. So in a run of ticks from a reachable state with a scheduled
process running, and the scheduled set unchanged, as many consecutive ticks as there are
scheduled processes dispatch each of them exactly once. -/
theorem round_robin (P : Platform) :
    (∀ (k : Kernel) (esp ebp : Nat), k.field .pid < 16 →
      (∀ fuel, 17 ≤ fuel → Kernel.tickLoops k.sched (k.field .pid) fuel =
        some (Kernel.nextPid k.sched (k.field .pid))) ∧
      ((∀ i < 16, k.sched i ≠ 1) → k.schedulerTick P esp ebp = k) ∧
      ((∃ i < 16, k.sched i = 1) → ∃ p, Kernel.NextScheduled k.sched (k.field .pid) p ∧
        Dispatched (k.schedulerTick P esp ebp) p)) ∧
    (∀ (k k' : Kernel) (pids : List Nat), Reachable P k → k.sched k.running = 1 →
      TickRun P k pids k' → ∀ before block after, pids = before ++ block ++ after →
        block.length = ((List.range 16).filter (Kernel.scheduled k.sched)).length →
        block.Nodup ∧ ∀ p, p ∈ block ↔ p < 16 ∧ k.sched p = 1) := by
  constructor
  · intro k esp ebp lt
    refine ⟨fun fuel enough => Kernel.tickLoops_eq lt enough, ?_, ?_⟩
    · intro nobody
      have idle : Kernel.nextPid k.sched (k.field .pid) = none :=
        Kernel.nextPid_eq_none.mpr nobody
      simp only [Kernel.schedulerTick, idle]
    · rintro ⟨i, small, isOn⟩
      cases picked : Kernel.nextPid k.sched (k.field .pid) with
      | none => exact absurd isOn (Kernel.nextPid_eq_none.mp picked i small)
      | some p =>
          exact ⟨p, Kernel.nextPid_nextScheduled lt picked, schedulerTick_dispatched picked⟩
  · intro k k' pids start runnable run before block after split whole
    obtain ⟨eq, _⟩ := run.served start runnable
    have ready : Kernel.scheduled k.sched k.running = true := Kernel.scheduled_iff.mpr runnable
    rw [eq] at split
    obtain ⟨nodup, mem⟩ := RoundRobin.served_block start.running_pid.1 ready split whole
    exact ⟨nodup, fun p => (mem p).trans (and_congr_right fun _ => Kernel.scheduled_iff)⟩

/-- The sample system with a shell on each of its first two terminals. -/
def sampleTwoShells : Kernel :=
  Kernel.sampleBoot.after Platform.sample (.sampleAltF2 1)

theorem Reachable.sampleTwoShells : Reachable Platform.sample Linux391.sampleTwoShells := by
  have on : (Frame.sample 1).On Kernel.sampleBoot := by decide +kernel
  exact Reachable.sampleBoot.after _ (.entered 2) on (by decide +kernel)

/-- Two ticks run the shell on the first terminal and then the one on the second again. -/
theorem round_robin_two_shells :
    ∃ k', TickRun Platform.sample sampleTwoShells [1, 2] k' ∧
      ∀ p, p = 1 ∨ p = 2 ↔ p < 16 ∧ sampleTwoShells.sched p = 1 := by
  have first := TickRun.tick (P := Platform.sample) (f := .sample 2)
    (TickRun.nil (k := sampleTwoShells)) (by decide +kernel)
  have second := first.tick (f := .sample 1) (by decide +kernel)
  have pids : ([] ++ [(sampleTwoShells.schedulerTick Platform.sample (Frame.sample 2).esp
      (Frame.sample 2).ebp).running]) ++ [((sampleTwoShells.schedulerTick Platform.sample
      (Frame.sample 2).esp (Frame.sample 2).ebp).schedulerTick Platform.sample
      (Frame.sample 1).esp (Frame.sample 1).ebp).running] = [1, 2] := by decide +kernel
  rw [pids] at second
  have fair := (round_robin Platform.sample).2 _ _ _ Reachable.sampleTwoShells
    (by decide +kernel) second [] [1, 2] [] rfl (by decide +kernel)
  refine ⟨_, second, fun p => ?_⟩
  rw [← fair.2 p]
  simp

end Linux391
