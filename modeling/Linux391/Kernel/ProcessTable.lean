import Linux391.Kernel.Events
import Linux391.Library.Stacks

/-!
The process table over whole runs.

On each terminal the live processes form a stack: the shell at the bottom, then the
program it started, and so on up to the one that may run. `Table` says how the four
stacks are laid out in `pid_usage`, `sched` and the PCBs, and `Running` which top the
processor is working for. Starting a program pushes, halting one pops, and the tick
moves to another top.
-/

namespace Linux391

open Memory Platform

/-- The PCB of a live process of terminal `t`. None of its files is open. -/
structure IsProcess (k : Kernel) (t : Fin 4) (p : Nat) : Prop where
  pid : get k.mem (getPcb p) .pid = p
  term : get k.mem (getPcb p) .term = t.val
  stack : pcbProcess (get k.mem (getPcb p) .espReg) = getPcb p
  closed : ∀ fd : Fin 8, 2 ≤ fd.val → get k.mem (getPcb p) (.flags fd) = 0

/-- The kernel's tables hold these stacks. -/
structure Table (s : Stacks (Fin 4) Nat) (k : Kernel) : Prop where
  range : ∀ p ∈ s, 1 ≤ p ∧ p < 16
  inUse : ∀ p ∈ s, k.pidUsage p = 1
  free : ∀ p, 1 ≤ p → p < 16 → p ∉ s → k.pidUsage p = 0
  top : ∀ t p, s.Top t p → k.sched p = 1
  notTop : ∀ p < 16, (∀ t, ¬ s.Top t p) → k.sched p = 0
  process : ∀ t, ∀ p ∈ s.stack t, IsProcess k t p
  above : ∀ p q, s.Above p q → get k.mem (getPcb p) .parentPcb = getPcb q
  bottom : ∀ p, s.Bottom p → get k.mem (getPcb p) .parentPcb = 0
  started : ∀ t, s.stack t ≠ [] → k.shellActive t = 1

/-- The processor works for `r`, on top of the stack of terminal `t`. -/
structure Running (s : Stacks (Fin 4) Nat) (t : Fin 4) (r : Nat) (k : Kernel) : Prop where
  top : s.Top t r
  curr : k.curr = getPcb r
  cr3 : k.cr3 = r
  esp0 : k.tss.esp0 = kernelStack r

/-! ### Saved registers -/

/-- Of the PCB of `p`, at most the saved registers changed, and only if `r` is `p`. -/
def Saved (k : Kernel) (r : Nat) (f : Frame) (k' : Kernel) (p : Nat) : Prop :=
  ∀ g, get k'.mem (getPcb p) g =
    if r = p ∧ .espReg = g then f.esp % 256 ^ 4
    else if r = p ∧ .ebpReg = g then f.ebp % 256 ^ 4
    else get k.mem (getPcb p) g

variable {P : Platform} {k k' : Kernel} {s : Stacks (Fin 4) Nat} {t i : Fin 4} {r p q : Nat}
  {f : Frame}

theorem Saved.other (saved : Saved k r f k' p) {g : PcbField} (esp : g ≠ .espReg)
    (ebp : g ≠ .ebpReg) : get k'.mem (getPcb p) g = get k.mem (getPcb p) g := by
  rw [saved g, if_neg fun h => esp h.2.symm, if_neg fun h => ebp h.2.symm]

theorem IsProcess.saved (h : IsProcess k t p) (here : k.curr = getPcb r) (on : f.On k)
    (saved : Saved k r f k' p) : IsProcess k' t p where
  pid := (saved.other (by simp) (by simp)).trans h.pid
  term := (saved.other (by simp) (by simp)).trans h.term
  stack := by
    rw [saved .espReg]
    split_ifs with own ebp
    · rw [pcbProcess_mod, ← own.1, ← here]
      exact on
    · simp at ebp
    · exact h.stack
  closed fd ge := (saved.other (by simp) (by simp)).trans (h.closed fd ge)

theorem Platform.Started.saved {pid parent term : Nat}
    (started : Started P (fun _ => True) k r pid parent term f k')
    (lt : p < 16) (ne : pid ≠ p) : Saved k r f k' p := by
  intro g
  rw [started.fields p lt g trivial, if_neg ne]

theorem Platform.Switched.saved (switched : Switched k r q f k') (lt : p < 16) :
    Saved k r f k' p := switched.fields p lt

/-! ### Starting a program -/

section Started

variable {pid parent : Nat}

/-- The new PCB is that of a process of its terminal. -/
theorem Platform.Started.isProcess
    (started : Started P (fun _ => True) k r pid parent i.val f k') (ne : r ≠ pid) :
    IsProcess k' i pid := by
  have value : ∀ g, get k'.mem (getPcb pid) g =
      assigned (get k.mem (getPcb pid) g) g (P.newPcb pid parent i.val) := by
    intro g
    rw [started.fields pid started.new.lt g trivial, if_neg fun h => ne h.1, if_neg fun h => ne h.1,
      if_pos rfl]
  refine ⟨?_, ?_, ?_, fun fd ge => ?_⟩
  · rw [value, assigned_newPcb_pid _ started.new.lt]
  · rw [value, assigned_newPcb_term, Nat.mod_eq_of_lt (by omega)]
  · rw [value, assigned_newPcb_espReg _ started.new.lt, pcbProcess_kernelStack started.new.lt]
  · rw [value, assigned_newPcb_flags, if_neg (by omega)]

theorem Platform.Started.parent_new {term : Nat}
    (started : Started P (fun _ => True) k r pid parent term f k')
    (ne : r ≠ pid) (small : parent < 2 ^ 32) :
    get k'.mem (getPcb pid) .parentPcb = parent := by
  rw [started.fields pid started.new.lt _ trivial, if_neg fun h => ne h.1,
    if_neg fun h => ne h.1, if_pos rfl,
    assigned_newPcb_parentPcb, Nat.mod_eq_of_lt (by omega)]

/-- A pid that was free belongs to no live process. -/
theorem Table.fresh (h : Table s k) (new : k.NewPid pid) : pid ∉ s := by
  intro mem
  have used := h.inUse pid mem
  rw [new.free] at used
  exact absurd used (by decide)

/-- Pushing a started program, given what it means for `sched` and for its parent. -/
theorem Table.push (h : Table s k) (started : Started P (fun _ => True) k r pid parent i.val f k')
    (here : k.curr = getPcb r) (on : f.On k) (ne : r ≠ pid) (small : parent < 2 ^ 32)
    (active : k.shellActive i = 1) (fresh : pid ∉ s)
    (child : ∀ q, s.Top i q → parent = getPcb q) (root : s.stack i = [] → parent = 0)
    (schedNew : k'.sched pid = 1) (schedTop : ∀ q, s.Top i q → k'.sched q = 0)
    (schedOld : ∀ p < 16, p ≠ pid → ¬ s.Top i p → k'.sched p = k.sched p) :
    Table (s.push i pid fresh) k' := by
  have old : ∀ p ∈ s, Saved k r f k' p := fun p mem =>
    started.saved (h.range p mem).2 fun same => fresh (same ▸ mem)
  have parentOld : ∀ p ∈ s, get k'.mem (getPcb p) .parentPcb = get k.mem (getPcb p) .parentPcb :=
    fun p mem => (old p mem).other (by simp) (by simp)
  have parentNew := started.parent_new ne small
  refine ⟨fun p mem => ?_, fun p mem => ?_, fun p pos lt out => ?_, fun j p top => ?_,
    fun p lt notTop => ?_, fun j p mem => ?_, fun p q above => ?_, fun p bottom => ?_,
    fun j nonempty => ?_⟩
  · rcases Stacks.mem_push.mp mem with rfl | mem
    · exact ⟨started.new.pos, started.new.lt⟩
    · exact h.range p mem
  · rw [started.usage]
    rcases Stacks.mem_push.mp mem with rfl | mem
    · exact Function.update_self _ _ _
    · have other : p ≠ pid := fun same => fresh (same ▸ mem)
      rw [Function.update_of_ne other]
      exact h.inUse p mem
  · rw [Stacks.mem_push, not_or] at out
    rw [started.usage, Function.update_of_ne out.1]
    exact h.free p pos lt out.2
  · rcases eq_or_ne j i with rfl | other
    · rw [Stacks.top_push_same.mp top]
      exact schedNew
    · rw [Stacks.top_push_other other] at top
      have notHere : ¬ s.Top i p := fun here =>
        other (s.apart j i p top.mem_stack here.mem_stack)
      rw [schedOld p (h.range p top.mem).2 (fun same => fresh (same ▸ top.mem)) notHere]
      exact h.top j p top
  · have other : p ≠ pid := fun same => notTop i (Stacks.top_push_same.mpr same)
    by_cases lowered : s.Top i p
    · exact schedTop p lowered
    · rw [schedOld p lt other lowered]
      refine h.notTop p lt fun j top => ?_
      rcases eq_or_ne j i with rfl | ne'
      · exact lowered top
      · exact notTop j ((Stacks.top_push_other ne').mpr top)
  · rcases eq_or_ne j i with rfl | other
    · rw [Stacks.stack_push_same] at mem
      rcases List.mem_cons.mp mem with rfl | mem
      · exact started.isProcess ne
      · exact (h.process j p mem).saved here on (old p ⟨j, mem⟩)
    · rw [Stacks.stack_push_other other] at mem
      exact (h.process j p mem).saved here on (old p ⟨j, mem⟩)
  · rcases Stacks.above_push above with ⟨rfl, top⟩ | above
    · exact parentNew.trans (child q top)
    · exact (parentOld p above.mem_left).trans (h.above p q above)
  · rcases Stacks.bottom_push bottom with ⟨rfl, empty⟩ | bottom
    · exact parentNew.trans (root empty)
    · exact (parentOld p bottom.mem).trans (h.bottom p bottom)
  · rw [started.shellActive]
    rcases eq_or_ne j i with rfl | other
    · exact active
    · rw [Stacks.stack_push_other other] at nonempty
      exact h.started j nonempty

/-- The running process of a table. -/
theorem Running.range (h : Table s k) (run : Running s t r k) : 1 ≤ r ∧ r < 16 :=
  h.range r run.top.mem

theorem Running.process (h : Table s k) (run : Running s t r k) : IsProcess k t r :=
  h.process t r run.top.mem_stack

theorem Running.field (run : Running s t r k) (g : PcbField) :
    k.field g = get k.mem (getPcb r) g := by
  rw [Kernel.field, run.curr]

theorem Running.inUse (h : Table s k) (run : Running s t r k) : k.pidUsage r ≠ 0 := by
  rw [h.inUse r run.top.mem]
  decide

theorem getPcb_lt (lt : p < 16) : getPcb p < 2 ^ 32 := by
  rw [getPcb_eq lt]
  omega

/-- A child of the running process is pushed on its stack. -/
theorem Table.execute (h : Table s k) (run : Running s t r k) (on : f.On k)
    (started : Started P (fun _ => True) k r pid (getPcb r) (k.field .term) f k')
    (sched : k'.sched = Function.update (Function.update k.sched pid 1) (k.field .pid) 0) :
    Table (s.push t pid (h.fresh started.new)) k' ∧
      Running (s.push t pid (h.fresh started.new)) t pid k' := by
  have ltr := (run.range h).2
  have ne : r ≠ pid := fun same => run.inUse h (same ▸ started.new.free)
  have only : ∀ q, s.Top t q → q = r := fun q top => Option.some.inj (top.symm.trans run.top)
  rw [run.field, (run.process h).term] at started
  rw [run.field, (run.process h).pid] at sched
  constructor
  · refine h.push started run.curr on ne (getPcb_lt ltr) (h.started t ?_) _
      (fun q top => by rw [only q top]) (fun empty => ?_) ?_ (fun q top => ?_)
      (fun p _ other notTop => ?_)
    · intro empty
      simpa [empty] using run.top.mem_stack
    · simpa [empty] using run.top.mem_stack
    · rw [sched, Function.update_of_ne ne.symm, Function.update_self]
    · rw [sched, only q top, Function.update_self]
    · have notRunning : p ≠ r := fun same => notTop (same ▸ run.top)
      rw [sched, Function.update_of_ne notRunning, Function.update_of_ne other]
  · exact ⟨Stacks.top_push_same.mpr rfl, started.curr, started.cr3, by rw [started.tss]⟩

/-- A shell is the first process of its terminal. Nothing is asked of the process that
was running but its stack, so that this covers boot. -/
theorem Table.start (h : Table s k) (here : k.curr = getPcb r) (on : f.On k) (ne : r ≠ pid)
    (started : Started P (fun _ => True) k r pid 0 i.val f k') (empty : s.stack i = [])
    (active : k.shellActive i = 1) (sched : k'.sched = Function.update k.sched pid 1) :
    Table (s.push i pid (h.fresh started.new)) k' ∧
      Running (s.push i pid (h.fresh started.new)) i pid k' := by
  have noTop : ∀ q, ¬ s.Top i q := fun q top => by simpa [empty] using top.mem_stack
  constructor
  · refine h.push started here on ne (by decide) active _ (fun q top => absurd top (noTop q))
      (fun _ => rfl) ?_ (fun q top => absurd top (noTop q)) (fun p _ other _ => ?_)
    · rw [sched, Function.update_self]
    · rw [sched, Function.update_of_ne other]
  · exact ⟨Stacks.top_push_same.mpr rfl, started.curr, started.cr3, by rw [started.tss]⟩

end Started

/-! ### Steps that start nothing -/

/-- The table depends on `pid_usage`, `sched`, `shell_active` and the PCBs of the live
processes. -/
theorem Table.transfer (h : Table s k) (usage : k'.pidUsage = k.pidUsage)
    (sched : k'.sched = k.sched) (active : ∀ t, k.shellActive t = 1 → k'.shellActive t = 1)
    (process : ∀ t, ∀ p ∈ s.stack t, IsProcess k t p → IsProcess k' t p)
    (parent : ∀ p ∈ s, get k'.mem (getPcb p) .parentPcb = get k.mem (getPcb p) .parentPcb) :
    Table s k' where
  range := h.range
  inUse p mem := by rw [usage, h.inUse p mem]
  free p pos lt out := by rw [usage, h.free p pos lt out]
  top t p top := by rw [sched, h.top t p top]
  notTop p lt notTop := by rw [sched, h.notTop p lt notTop]
  process t p mem := process t p mem (h.process t p mem)
  above p q above := (parent p above.mem_left).trans (h.above p q above)
  bottom p bottom := (parent p bottom.mem).trans (h.bottom p bottom)
  started t nonempty := active t (h.started t nonempty)

/-- The same kernel memory gives the same processes. -/
theorem Table.same_mem (h : Table s k) (usage : k'.pidUsage = k.pidUsage)
    (sched : k'.sched = k.sched) (active : ∀ t, k.shellActive t = 1 → k'.shellActive t = 1)
    (mem : k'.mem = k.mem) : Table s k' := by
  refine h.transfer usage sched active (fun t p _ process => ?_) fun p _ => by rw [mem]
  exact ⟨by rw [mem]; exact process.pid, by rw [mem]; exact process.term,
    by rw [mem]; exact process.stack, fun fd ge => by rw [mem]; exact process.closed fd ge⟩

/-- A failed load changes page tables and frames only, and puts CR3 back. -/
theorem Table.loadFailed (h : Table s k) (run : Running s t r k) (failed : LoadFailed P k k') :
    Table s k' ∧ Running s t r k' := by
  cases failed with
  | early => exact ⟨h, run⟩
  | late new outside =>
      have pid : k.field .pid = r := (run.field .pid).trans (run.process h).pid
      rw [pid, Kernel.pagingUpdateControl, if_pos (run.range h).2]
      exact ⟨h.same_mem rfl rfl (fun _ active => active) rfl, ⟨run.top, run.curr, rfl, run.esp0⟩⟩

/-- The tick moves to a top. -/
theorem Table.tick (h : Table s k) (run : Running s t r k) (on : f.On k) :
    ∃ i q, Table s (k.schedulerTick P f.esp f.ebp) ∧
      Running s i q (k.schedulerTick P f.esp f.ebp) := by
  have pid : k.field .pid = r := (run.field .pid).trans (run.process h).pid
  obtain ⟨q, ltq, next, runnable⟩ :=
    Kernel.nextPid_eq_some (run.range h).2 (h.top t r run.top)
  have isTop : ∃ i, s.Top i q := by
    by_contra notTop
    rw [h.notTop q ltq (not_exists.mp notTop)] at runnable
    exact absurd runnable (by decide)
  obtain ⟨i, top⟩ := isTop
  have switched : Switched k r q f (k.schedulerTick P f.esp f.ebp) :=
    schedulerTick_switched (run.range h).2 ltq run.curr (pid.symm ▸ next)
      (h.process i q top.mem_stack).pid
  have table : Table s (k.schedulerTick P f.esp f.ebp) := by
    refine h.transfer switched.usage switched.sched
      (fun t active => by rw [switched.shellActive, active])
      (fun t p mem process => process.saved run.curr on (switched.saved (h.range p ⟨t, mem⟩).2))
      fun p mem => (switched.saved (h.range p mem).2).other (by simp) (by simp)
  refine ⟨i, q, table, top, ?_, switched.cr3, by rw [switched.tss]⟩
  rw [switched.curr]
  exact (table.process i q top.mem_stack).stack

/-! ### Halting -/

/-- Popping a process whose parent lies below it. -/
theorem Table.resume (h : Table s k) (run : Running s t r k) (above : s.Above r q)
    (resumed : Resumed k r q k') : Table (s.pop t) k' ∧ Running (s.pop t) t q k' := by
  have fields : ∀ p ∈ s, ∀ g, g ≠ .child →
      get k'.mem (getPcb p) g = get k.mem (getPcb p) g := by
    intro p mem g other
    rw [resumed.fields p (h.range p mem).2, if_neg fun child => other child.2.symm]
  have process : ∀ j, ∀ p ∈ s.stack j, IsProcess k' j p := by
    intro j p mem
    have old := h.process j p mem
    exact ⟨(fields p ⟨j, mem⟩ _ (by simp)).trans old.pid,
      (fields p ⟨j, mem⟩ _ (by simp)).trans old.term,
      by rw [fields p ⟨j, mem⟩ _ (by simp)]; exact old.stack,
      fun fd ge => (fields p ⟨j, mem⟩ _ (by simp)).trans (old.closed fd ge)⟩
  have topq : (s.pop t).Top t q := run.top.top_pop above
  have subset : ∀ p ∈ s.pop t, p ∈ s := fun p mem => ((Stacks.mem_pop run.top).mp mem).1
  constructor
  · refine ⟨fun p mem => h.range p (subset p mem), fun p mem => ?_, fun p pos lt out => ?_,
      fun j p top => ?_, fun p lt notTop => ?_,
      fun j p mem => process j p (Stacks.mem_stack_of_pop mem), fun p x above' => ?_,
      fun p bottom => ?_, fun j nonempty => ?_⟩
    · rw [resumed.usage, Function.update_of_ne ((Stacks.mem_pop run.top).mp mem).2]
      exact h.inUse p (subset p mem)
    · rw [resumed.usage]
      rcases eq_or_ne p r with rfl | other
      · exact Function.update_self _ _ _
      · rw [Function.update_of_ne other]
        exact h.free p pos lt fun mem => out ((Stacks.mem_pop run.top).mpr ⟨mem, other⟩)
    · have notRunning : p ≠ r := ((Stacks.mem_pop run.top).mp top.mem).2
      rw [resumed.sched, Function.update_of_ne notRunning]
      rcases eq_or_ne p q with rfl | other
      · exact Function.update_self _ _ _
      · rw [Function.update_of_ne other]
        rcases eq_or_ne j t with rfl | ne'
        · exact absurd (Option.some.inj (top.symm.trans topq)) other
        · exact h.top j p ((Stacks.top_pop_other ne').mp top)
    · rw [resumed.sched]
      rcases eq_or_ne p r with rfl | notRunning
      · exact Function.update_self _ _ _
      · have other : p ≠ q := fun same => notTop t (same ▸ topq)
        rw [Function.update_of_ne notRunning, Function.update_of_ne other]
        refine h.notTop p lt fun j top => ?_
        rcases eq_or_ne j t with rfl | ne'
        · exact notRunning (Option.some.inj (top.symm.trans run.top))
        · exact notTop j ((Stacks.top_pop_other ne').mpr top)
    · have above'' := Stacks.above_pop above'
      exact (fields p above''.mem_left _ (by simp)).trans (h.above p x above'')
    · have bottom' := Stacks.bottom_pop bottom
      exact (fields p bottom'.mem _ (by simp)).trans (h.bottom p bottom')
    · rw [resumed.shellActive]
      refine h.started j fun empty => nonempty ?_
      rcases eq_or_ne j t with rfl | ne'
      · rw [Stacks.stack_pop_same, empty]
        rfl
      · rw [Stacks.stack_pop_other ne', empty]
  · refine ⟨topq, ?_, resumed.cr3, by rw [resumed.tss]⟩
    rw [resumed.curr]
    obtain ⟨j, mem⟩ := above.mem_right
    exact (h.process j q mem).stack

/-! ### Runs -/

/-- The live processes form stacks laid out in the kernel's tables. -/
def Represented (live : Finset Nat) (k : Kernel) : Prop :=
  ∃ s t r, Table s k ∧ Running s t r k ∧ ∀ p, p ∈ live ↔ p ∈ s

variable {live : Finset Nat} {restart : Kernel → Frame → Prop} {outcome : Outcome}

/-- Every halt of a root shell that `restart` allows keeps the representation. -/
def RestartKeeps (P : Platform) (restart : Kernel → Frame → Prop) : Prop :=
  ∀ {live k k' f status u outcome}, Represented live k → f.On k → k.field .parentPcb = 0 →
    restart k f → P.syscallHalt k status u f = some (outcome, k') →
    Represented ((Event.halt status u f).live live k outcome) k'

theorem table_boot (P : Platform) (start : Kernel) : Table Stacks.empty (start.boot P) where
  range _ mem := absurd mem Stacks.notMem_empty
  inUse _ mem := absurd mem Stacks.notMem_empty
  free _ pos lt _ := if_pos ⟨pos, lt⟩
  top _ _ top := absurd top.mem Stacks.notMem_empty
  notTop _ lt _ := if_pos (Nat.le_of_lt lt)
  process _ _ mem := nomatch mem
  above _ _ above := absurd above.mem_left Stacks.notMem_empty
  bottom _ bottom := absurd bottom.mem Stacks.notMem_empty
  started _ nonempty := absurd rfl nonempty

/-- The boot-time shell. -/
theorem Represented.boot {start : Kernel} {pid : Nat} (here : start.curr = getPcb 0)
    (on : f.On (start.boot P))
    (init : P.syscallInitShell (start.boot P) 0 f = some (.entered pid, k)) :
    Represented {pid} k := by
  have here' : (start.boot P).curr = getPcb 0 := here
  rcases syscallInitShell_cases (fun _ => True) (r := 0) (by decide) here' trivial
    (fun _ parsed g _ => unreached_of_fit (shell_args_fit parsed) g) init with
    ⟨returned, -⟩ | ⟨pid', t, entered, -, -, started, sched, -⟩
  · cases returned
  · cases entered
    have ne : 0 ≠ pid := fun same => absurd started.new.pos (by omega)
    obtain ⟨table, running⟩ := (table_boot P start).start (i := 0) here' on ne started rfl rfl sched
    refine ⟨_, 0, pid, table, running, fun p => ?_⟩
    rw [Finset.mem_singleton, Stacks.mem_push]
    exact ⟨.inl, fun h => h.resolve_right Stacks.notMem_empty⟩

/-- A shell for a terminal that has none, or the visible terminal changes. -/
theorem Represented.altFn (h : Represented live k) (on : f.On k)
    (step : P.altFn k t f = some (outcome, k')) :
    Represented ((Event.altFn t f).live live k outcome) k' := by
  obtain ⟨s, i, r, table, running, same⟩ := h
  have running' : ∀ terms active, Running s i r { k with terms := terms, shellActive := active } :=
    fun _ _ => ⟨running.top, running.curr, running.cr3, running.esp0⟩
  simp only [Platform.altFn] at step
  split_ifs at step with hasShell
  · cases step
    exact ⟨s, i, r, table.same_mem rfl rfl (fun _ active => active) rfl, running' _ _, same⟩
  · have empty : s.stack t = [] := by
      by_contra nonempty
      exact hasShell (.inr (table.started t nonempty))
    have active' : ∀ j, k.shellActive j = 1 → Function.update k.shellActive t 1 j = 1 := by
      intro j active
      rcases eq_or_ne j t with rfl | other
      · exact Function.update_self _ _ _
      · rwa [Function.update_of_ne other]
    have table' : Table s { k with
        terms := k.terms.terminalSwitch t
        shellActive := Function.update k.shellActive t 1 } :=
      table.same_mem rfl rfl active' rfl
    have marked := running' (k.terms.terminalSwitch t) (Function.update k.shellActive t 1)
    rcases syscallInitShell_cases (fun _ => True) (running.range table).2 marked.curr trivial
      (fun _ parsed g _ => unreached_of_fit (shell_args_fit parsed) g) step with
      ⟨rfl, failed, -⟩ | ⟨pid, -, rfl, -, -, started, sched, -⟩
    · obtain ⟨table'', running''⟩ := table'.loadFailed marked failed
      exact ⟨s, i, r, table'', running'', same⟩
    · have ne : r ≠ pid := fun eq => marked.inUse table' (eq ▸ started.new.free)
      obtain ⟨table'', running''⟩ := table'.start marked.curr on ne started empty
        (Function.update_self _ _ _) sched
      refine ⟨_, t, pid, table'', running'', fun p => ?_⟩
      simp only [Event.live, Finset.mem_insert, Stacks.mem_push, same]

/-- A command, successful or not. -/
theorem Represented.execute {command : Option CStr} (h : Represented live k) (on : f.On k)
    (fit : ArgsFit command f) (step : P.syscallExecute k command f = some (outcome, k')) :
    Represented ((Event.execute command f).live live k outcome) k' := by
  obtain ⟨s, t, r, table, running, same⟩ := h
  have fit' : ∀ c parse, command = some c → parseCommand c f = some parse →
      ∀ g, True → Unreached (strcpyBytes parse.fargs) g := by
    intro c parse given parsed g _
    refine unreached_of_fit ?_ g
    rw [length_strcpyBytes]
    exact fit c parse given parsed
  rcases syscallExecute_cases (fun _ => True) (running.range table).2 running.curr
    (running.inUse table)
    trivial fit' step with ⟨rfl, failed⟩ | ⟨pid, rfl, started, sched, -⟩
  · obtain ⟨table', running'⟩ := table.loadFailed running failed
    exact ⟨s, t, r, table', running', same⟩
  · obtain ⟨table', running'⟩ := table.execute running on started sched
    refine ⟨_, t, pid, table', running', fun p => ?_⟩
    simp only [Event.live, Finset.mem_insert, Stacks.mem_push, same]

/-- The halt of a process that has a parent. -/
theorem Represented.halt {status : UInt8} {u : Fin 8 → Unspecified} (h : Represented live k)
    (child : k.field .parentPcb ≠ 0) (step : P.syscallHalt k status u f = some (outcome, k')) :
    Represented ((Event.halt status u f).live live k outcome) k' := by
  obtain ⟨s, t, r, table, running, same⟩ := h
  have process := running.process table
  rw [running.field] at child
  rcases Stacks.bottom_or_above running.top.mem_stack with bottom | ⟨q, above⟩
  · exact absurd (table.bottom r bottom) child
  · have ltr := (running.range table).2
    obtain ⟨j, memq⟩ := above.mem_right
    obtain ⟨rfl, resumed⟩ := syscallHalt_resumed ltr (table.range q above.mem_right).2 running.curr
      process.pid ((running.field _).trans (table.above r q above))
      (table.process j q memq).pid
      (fun fd ge => (running.field _).trans (process.closed fd ge)) step
    obtain ⟨table', running'⟩ := table.resume running above resumed
    refine ⟨_, t, q, table', running', fun p => ?_⟩
    simp only [Event.live, Kernel.running_eq ltr running.curr, Finset.mem_erase,
      Stacks.mem_pop running.top, same]
    exact and_comm

/-- One event. -/
theorem Represented.step {e : Event} (keeps : RestartKeeps P restart) (h : Represented live k)
    (allowed : e.OfProcesses restart k) (step : P.step k e = some (outcome, k')) :
    Represented (e.live live k outcome) k' := by
  cases e with
  | tick f =>
      cases step
      obtain ⟨s, t, r, table, running, same⟩ := h
      obtain ⟨i, q, table', running'⟩ := table.tick running allowed
      exact ⟨s, i, q, table', running', same⟩
  | altFn t f => exact h.altFn allowed step
  | execute command f => exact h.execute allowed.1 allowed.2 step
  | halt status u f =>
      by_cases root : k.field .parentPcb = 0
      · exact keeps h allowed.1 root (allowed.2 root) step
      · exact h.halt root step
  | key _ _ _ _ => exact allowed.elim
  | vidmap _ => exact allowed.elim
  | call _ => exact allowed.elim

/-- Whole runs. -/
theorem ProcessRun.represented (keeps : RestartKeeps P restart)
    (run : ProcessRun P restart live k) : Represented live k := by
  induction run with
  | boot here on init => exact .boot here on init
  | step _ allowed step ih => exact ih.step keeps allowed step

/-! ### The invariant in the kernel's own terms -/

/-- Following `parent_pcb` from `p` leads through live processes of terminal `term` to one
without a parent. -/
inductive ReachesShell (k : Kernel) (live : Finset Nat) (term : Nat) : Nat → Prop where
  | shell {p : Nat} : p ∈ live → get k.mem (getPcb p) .term = term →
      get k.mem (getPcb p) .parentPcb = 0 → ReachesShell k live term p
  | child {p q : Nat} : p ∈ live → get k.mem (getPcb p) .term = term →
      get k.mem (getPcb p) .parentPcb = getPcb q → ReachesShell k live term q →
      ReachesShell k live term p

section Reading

variable (h : Table s k) (same : ∀ p, p ∈ live ↔ p ∈ s)
include h same

theorem Table.reachesShell (mem : p ∈ s.stack t) : ReachesShell k live t.val p := by
  refine Stacks.bottom_induction (motive := ReachesShell k live t.val) ?_ ?_ p mem
  · intro p mem bottom
    exact .shell ((same p).mpr ⟨t, mem⟩) (h.process t p mem).term (h.bottom p bottom)
  · intro p q memp _ above reach
    exact .child ((same p).mpr ⟨t, memp⟩) (h.process t p memp).term (h.above p q above) reach

/-- The parent pointers between live processes are the stacks' neighbours. -/
theorem Table.above_of_parent (memq : q ∈ live) (memp : p ∈ live)
    (parent : get k.mem (getPcb q) .parentPcb = getPcb p) : s.Above q p := by
  have ltp := (h.range p ((same p).mp memp)).2
  obtain ⟨t, mem⟩ := (same q).mp memq
  rcases Stacks.bottom_or_above mem with bottom | ⟨x, above⟩
  · rw [h.bottom q bottom] at parent
    exact absurd parent.symm (getPcb_ne_zero ltp)
  · rw [h.above q x above] at parent
    rwa [← getPcb_inj (h.range x above.mem_right).2 ltp parent]

/-- The scheduled processes are the live ones without a live child. -/
theorem Table.sched_iff (lt : p < 16) :
    k.sched p = 1 ↔
      p ∈ live ∧ ∀ q ∈ live, get k.mem (getPcb q) .parentPcb ≠ getPcb p := by
  constructor
  · intro runnable
    by_cases isTop : ∃ t, s.Top t p
    · obtain ⟨t, top⟩ := isTop
      have mem := (same p).mpr top.mem
      exact ⟨mem, fun q memq parent =>
        top.not_above (h.above_of_parent same memq mem parent)⟩
    · rw [h.notTop p lt (not_exists.mp isTop)] at runnable
      exact absurd runnable (by decide)
  · rintro ⟨mem, childless⟩
    obtain ⟨t, mem⟩ := (same p).mp mem
    rcases Stacks.top_or_above mem with top | ⟨q, above⟩
    · exact h.top t p top
    · exact absurd (h.above q p above) (childless q ((same q).mpr above.mem_left))

end Reading

/-- In every state of every run, `pid_usage`, `sched`, the parent links, CR3 and `esp0`
describe the same set of processes. -/
theorem process_table_invariant (run : ProcessRun P (fun _ _ => False) live k) :
    (∀ p ∈ live, 1 ≤ p ∧ p < 16) ∧
    (∀ p, 1 ≤ p → p < 16 → (k.pidUsage p = 1 ↔ p ∈ live)) ∧
    (∀ p ∈ live, ReachesShell k live (get k.mem (getPcb p) .term) p) ∧
    (∀ p ∈ live, ∀ q ∈ live, ∀ q' ∈ live, get k.mem (getPcb q) .parentPcb = getPcb p →
      get k.mem (getPcb q') .parentPcb = getPcb p → q = q') ∧
    (∀ p < 16, k.sched p = 1 ↔
      p ∈ live ∧ ∀ q ∈ live, get k.mem (getPcb q) .parentPcb ≠ getPcb p) ∧
    (∀ p < 16, ∀ q < 16, k.sched p = 1 → k.sched q = 1 →
      get k.mem (getPcb p) .term = get k.mem (getPcb q) .term → p = q) ∧
    ∃ r ∈ live, k.curr = getPcb r ∧ k.field .pid = r ∧ k.sched r = 1 ∧ k.cr3 = r ∧
      k.tss.esp0 = kernelStack r := by
  obtain ⟨s, t, r, table, running, same⟩ := run.represented fun _ _ _ never => never.elim
  have isTop : ∀ p < 16, k.sched p = 1 → ∃ t, s.Top t p := by
    intro p lt runnable
    by_contra notTop
    rw [table.notTop p lt (not_exists.mp notTop)] at runnable
    exact absurd runnable (by decide)
  refine ⟨fun p mem => table.range p ((same p).mp mem), fun p pos lt => ⟨fun used => ?_, fun mem =>
    table.inUse p ((same p).mp mem)⟩, fun p mem => ?_, fun p mem q memq q' memq' one two => ?_,
    fun p lt => table.sched_iff same lt, fun p ltp q ltq one two terms => ?_, ?_⟩
  · by_contra dead
    rw [table.free p pos lt fun mem => dead ((same p).mpr mem)] at used
    exact absurd used (by decide)
  · obtain ⟨i, mem⟩ := (same p).mp mem
    rw [(table.process i p mem).term]
    exact table.reachesShell same mem
  · exact (table.above_of_parent same memq mem one).unique
      (table.above_of_parent same memq' mem two)
  · obtain ⟨i, topp⟩ := isTop p ltp one
    obtain ⟨j, topq⟩ := isTop q ltq two
    rw [(table.process i p topp.mem_stack).term, (table.process j q topq.mem_stack).term] at terms
    obtain rfl := Fin.ext terms
    exact Option.some.inj (topp.symm.trans topq)
  · exact ⟨r, (same r).mpr running.top.mem, running.curr,
      (running.field _).trans (running.process table).pid, table.top t r running.top, running.cr3,
      running.esp0⟩

/-! ### A run of the sample system -/

/-- A shell is started on terminal 1. -/
def sampleOpened : Kernel := sampleExecuted.after Platform.sample (.sampleAltF2 2)

/-- The tick goes from there to the second shell of terminal 0. -/
def sampleTicked : Kernel := sampleOpened.after Platform.sample (.tick (.sample 3))

/-- That shell halts. -/
def sampleHalted : Kernel :=
  sampleTicked.after Platform.sample (.halt 0 (fun _ => .sample) (.sample 2))

theorem ProcessRun.sampleHalted (restart : Kernel → Frame → Prop) :
    ∃ live : Finset Nat, (∀ p, p ∈ live ↔ p = 1 ∨ p = 3) ∧
      ProcessRun Platform.sample restart live Linux391.sampleHalted := by
  have executed : ProcessRun Platform.sample restart _ sampleExecuted :=
    (ProcessRun.sampleBoot restart).after _ (.entered 2) ⟨by decide +kernel, argsFit_shell _⟩
      (by decide +kernel)
  have onShell : (Frame.sample 2).On sampleExecuted := by decide +kernel
  have opened : ProcessRun Platform.sample restart _ sampleOpened :=
    executed.after _ (.entered 3) onShell (by decide +kernel)
  have onOther : (Frame.sample 3).On sampleOpened := by decide +kernel
  have ticked : ProcessRun Platform.sample restart _ sampleTicked :=
    opened.after _ (.returned 0) onOther (by decide +kernel)
  have child : sampleTicked.field .parentPcb ≠ 0 := by decide +kernel
  have halted : ProcessRun Platform.sample restart _ Linux391.sampleHalted :=
    ticked.after _ (.resumed 0) ⟨by decide +kernel, fun root => absurd root child⟩
      (by decide +kernel)
  have caller : sampleTicked.running = 2 := by decide +kernel
  refine ⟨_, fun p => ?_, halted⟩
  simp only [Event.live, Event.sampleAltF2, caller, Finset.mem_erase, Finset.mem_insert,
    Finset.mem_singleton]
  omega

/-- After the halt the first shell runs again, and the pids in use are its own and that of
the shell on terminal 1. -/
theorem process_table_invariant_sample :
    sampleHalted.running = 1 ∧ sampleHalted.sched 3 = 1 ∧
      ∀ p, 1 ≤ p → p < 16 → (sampleHalted.pidUsage p = 1 ↔ p = 1 ∨ p = 3) := by
  obtain ⟨live, members, run⟩ := ProcessRun.sampleHalted fun _ _ => False
  have entries : sampleHalted.running = 1 ∧ sampleHalted.sched 3 = 1 := by decide +kernel
  refine ⟨entries.1, entries.2, fun p pos lt => ?_⟩
  rw [← members]
  exact (process_table_invariant run).2.1 p pos lt

end Linux391
