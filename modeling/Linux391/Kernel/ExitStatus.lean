import Linux391.Kernel.PidReuse

/-!
The exit status of a process.

A process that called `syscall_execute` waits in that call until the child it started
halts: it is neither running nor scheduled, and its PCB holds the stack and frame
pointer of the call (`Pending`, kept by every event). So `syscall_halt` always goes back
to the call that started the process, if its files can be closed. The value the call
returns is 0 and not the status, which `return 0` overwrites.
-/

namespace Linux391

open Memory Platform

/-! ### Closing the files -/

/-- Each file that `syscall_halt` closes has the jump table of a driver. -/
def Platform.Closable (P : Platform) (k : Kernel) : Prop :=
  ∀ fd : Fin 8, 2 ≤ fd.val → k.field (.flags fd) ≠ 0 → (P.driver k fd).isSome

section Closing

variable {P : Platform} {k k' : Kernel} {r : Nat}

theorem descriptor_val (fd : Fin 8) : descriptor (fd.val : Int) = some fd := by
  simp [descriptor]

/-- The close of an open file ends if the file has a driver. -/
theorem isSome_syscallClose (here : k.curr = getPcb r) (lt : r < 16) (u : Unspecified) {fd : Fin 8}
    (user : 2 ≤ fd.val) (isOpen : k.field (.flags fd) ≠ 0) :
    (P.syscallClose k fd.val u).isSome = (P.driver k fd).isSome := by
  have accepted : ¬ (fd.val < 2 ∨ k.field (.flags fd) = 0) := by omega
  simp only [syscallClose, descriptor_val, if_neg accepted, driverClose, driver_close here lt]
  cases P.driver k fd with
  | none => rfl
  | some d => cases d <;> rfl

/-- Of the caller's own PCB it changes one flag. -/
theorem field_syscallClose (here : k.curr = getPcb r) (lt : r < 16) {u : Unspecified} {fd : Fin 8}
    {value : Int} (harmless : u.Harmless) {g : PcbField} (other : g ≠ .flags fd)
    (call : P.syscallClose k fd.val u = some (value, k')) : k'.field g = k.field g := by
  have same := SameIdentity.syscallClose here lt harmless call
  simp only [Kernel.field, same.curr, here]
  have own : get (k.close k.curr fd).mem (getPcb r) g = get k.mem (getPcb r) g := by
    rw [here]
    exact get_set_other lt lt (.inr (Ne.symm other))
  simp only [syscallClose, descriptor_val] at call
  split_ifs at call
  · cases call
    rfl
  · unfold driverClose at call
    split at call <;> cases call
    · exact own
    · exact (harmless.get_close lt other).trans own
    · exact own
    · exact (harmless.get_terminalClose lt g).trans own

/-- After one close the other entries are as they were. -/
theorem closable_syscallClose (here : k.curr = getPcb r) (lt : r < 16) {u : Unspecified}
    {fd i : Fin 8} {value : Int} (harmless : u.Harmless) (other : i ≠ fd)
    (call : P.syscallClose k fd.val u = some (value, k')) :
    k'.field (.flags i) = k.field (.flags i) ∧ P.driver k' i = P.driver k i := by
  constructor
  · exact field_syscallClose here lt harmless (by simpa using other) call
  · exact congrArg P.drivers.driverAt (field_syscallClose here lt harmless (by simp) call)

/-- The closing loop of `syscall_halt`, over any descriptors. -/
theorem isSome_closeLoop {u : Fin 8 → Unspecified} (lt : r < 16)
    (harmless : ∀ fd, (u fd).Harmless) (fds : List (Fin 8)) (nodup : fds.Nodup)
    (here : k.curr = getPcb r) :
    (fds.foldlM (fun k fd =>
        if 2 ≤ fd.val ∧ k.field (.flags fd) ≠ 0 then (P.syscallClose k fd.val (u fd)).map (·.2)
        else some k) k).isSome ↔
      ∀ fd ∈ fds, 2 ≤ fd.val → k.field (.flags fd) ≠ 0 → (P.driver k fd).isSome := by
  induction fds generalizing k with
  | nil => simp
  | cons fd rest ih =>
      obtain ⟨new, nodup'⟩ := List.nodup_cons.mp nodup
      rw [List.foldlM_cons, List.forall_mem_cons]
      by_cases isOpen : 2 ≤ fd.val ∧ k.field (.flags fd) ≠ 0
      · have ends := isSome_syscallClose (P := P) here lt (u fd) isOpen.1 isOpen.2
        rw [if_pos isOpen]
        cases call : P.syscallClose k fd.val (u fd) with
        | none =>
            rw [call] at ends
            simp [isOpen, ← ends]
        | some result =>
            rw [call] at ends
            have same := SameIdentity.syscallClose here lt (harmless fd) call
            have others : (∀ i ∈ rest, 2 ≤ i.val → result.2.field (.flags i) ≠ 0 →
                  (P.driver result.2 i).isSome) ↔
                ∀ i ∈ rest, 2 ≤ i.val → k.field (.flags i) ≠ 0 → (P.driver k i).isSome := by
              refine forall₂_congr fun i mem => ?_
              have other : i ≠ fd := fun eq => new (eq ▸ mem)
              obtain ⟨flags, driver⟩ := closable_syscallClose here lt (harmless fd) other call
              rw [flags, driver]
            simp only [Option.map_some, Option.bind_eq_bind, Option.bind_some]
            rw [ih nodup' (same.curr.trans here), others, ← ends]
            simp
      · rw [if_neg isOpen]
        simp only [Option.bind_eq_bind, Option.bind_some]
        rw [ih nodup' here]
        constructor
        · exact fun rest => ⟨fun user flag => absurd ⟨user, flag⟩ isOpen, rest⟩
        · exact fun all => all.2

theorem isSome_closeAll {u : Fin 8 → Unspecified} (here : k.curr = getPcb r) (lt : r < 16)
    (harmless : ∀ fd, (u fd).Harmless) : (P.closeAll k u).isSome ↔ P.Closable k := by
  rw [closeAll, isSome_closeLoop lt harmless _ (List.nodup_finRange 8) here]
  exact ⟨fun all fd => all fd (List.mem_finRange fd), fun all fd _ => all fd⟩

end Closing

/-! ### Pending calls -/

/-- For each pid, the call of `syscall_execute` that started it: the caller and what it
had on its stack; `none` for a shell of the kernel's own. -/
abbrev Starters := Nat → Option (Nat × Frame)

/-- The calls after an event. -/
def Event.starters (starters : Starters) (k : Kernel) (e : Event) (outcome : Outcome) : Starters :=
  match e, outcome with
  | .execute _ f, .entered pid => Function.update starters pid (some (k.running, f))
  | _, .entered pid => Function.update starters pid none
  | _, _ => starters

/-- Runs of the kernel from boot, under all of its events, with the calls that started the
processes. -/
inductive CallRun (P : Platform) : Starters → Kernel → Prop where
  | boot {start k : Kernel} {f : Frame} {pid : Nat} : start.curr = getPcb 0 →
      f.On (start.boot P) → P.syscallInitShell (start.boot P) 0 f = some (.entered pid, k) →
      CallRun P (fun _ => none) k
  | step {starters : Starters} {k k' : Kernel} {e : Event} {outcome : Outcome} :
      CallRun P starters k → e.Defined k → P.step k e = some (outcome, k') →
      CallRun P (e.starters starters k outcome) k'

section Runs

variable {P : Platform} {starters : Starters} {G : Nat → Prop} {k k' : Kernel} {r r' p q : Nat}
  {f : Frame} {e : Event} {outcome : Outcome}

theorem CallRun.reachable (run : CallRun P starters k) : Reachable P k := by
  induction run with
  | boot here on init => exact .boot here on init
  | step _ defined step ih => exact ih.step defined step

/-- A process that was started and has not halted. -/
structure Live (k : Kernel) (p : Nat) : Prop where
  pos : 1 ≤ p
  lt : p < 16
  inUse : k.pidUsage p ≠ 0

/-- Process `q` waits in the call it made with frame `f`, while `r` runs. -/
structure Waits (k : Kernel) (r q : Nat) (f : Frame) : Prop where
  live : Live k q
  unscheduled : k.sched q ≠ 1
  resting : q ≠ r
  esp : get k.mem (getPcb q) .espReg = f.esp % 2 ^ 32
  ebp : get k.mem (getPcb q) .ebpReg = f.ebp % 2 ^ 32

/-- Every live child has a parent that waits in the call that started it, and in no other. -/
structure Pending (starters : Starters) (r : Nat) (k : Kernel) : Prop where
  root : ∀ p, Live k p → starters p = none → get k.mem (getPcb p) .parentPcb = 0
  parent : ∀ p q f, Live k p → starters p = some (q, f) →
    get k.mem (getPcb p) .parentPcb = getPcb q
  waits : ∀ p q f, Live k p → starters p = some (q, f) → Waits k r q f
  unique : ∀ p p' q f f', Live k p → Live k p' → starters p = some (q, f) →
    starters p' = some (q, f') → p = p'

theorem Event.starters_returned (e : Event) (value : Int) :
    e.starters starters k (.returned value) = starters := by
  cases e <;> rfl

theorem Event.starters_shell (starts : e.StartsShell f) (pid : Nat) :
    e.starters starters k (.entered pid) = Function.update starters pid none := by
  cases e with
  | altFn t f => rfl
  | halt status u f => rfl
  | _ => exact starts.elim

/-! ### Every effect keeps calls pending -/

theorem Waits.transfer (h : Waits k r q f) (usage : k'.pidUsage q = k.pidUsage q)
    (sched : k'.sched q = k.sched q) (resting : q ≠ r')
    (fields : ∀ g, Identity g → get k'.mem (getPcb q) g = get k.mem (getPcb q) g) :
    Waits k' r' q f where
  live := ⟨h.live.pos, h.live.lt, usage ▸ h.live.inUse⟩
  unscheduled := sched ▸ h.unscheduled
  resting := resting
  esp := (fields _ (by simp [Identity])).trans h.esp
  ebp := (fields _ (by simp [Identity])).trans h.ebp

/-- Without a new process it is enough that the parents wait on. -/
theorem Pending.transfer (h : Pending starters r k) (live : ∀ p, Live k' p → Live k p)
    (parents : ∀ p, Live k' p →
      get k'.mem (getPcb p) .parentPcb = get k.mem (getPcb p) .parentPcb)
    (waits : ∀ p q f, Live k' p → starters p = some (q, f) → Waits k r q f → Waits k' r' q f) :
    Pending starters r' k' where
  root p mem none := (parents p mem).trans (h.root p (live p mem) none)
  parent p q f mem started := (parents p mem).trans (h.parent p q f (live p mem) started)
  waits p q f mem started := waits p q f mem started (h.waits p q f (live p mem) started)
  unique p p' q f f' mem mem' := h.unique p p' q f f' (live p mem) (live p' mem')

/-- With a new process on `pid`, the call that started it is pending too. -/
theorem Pending.enter {pid : Nat} {starter : Option (Nat × Frame)} (h : Pending starters r k)
    (live : ∀ p, p ≠ pid → Live k' p → Live k p)
    (parents : ∀ p, p ≠ pid → Live k' p →
      get k'.mem (getPcb p) .parentPcb = get k.mem (getPcb p) .parentPcb)
    (waits : ∀ q f, Waits k r q f → Waits k' pid q f)
    (root : starter = none → get k'.mem (getPcb pid) .parentPcb = 0)
    (parent : ∀ q f, starter = some (q, f) →
      get k'.mem (getPcb pid) .parentPcb = getPcb q ∧ Waits k' pid q f ∧ q = r) :
    Pending (Function.update starters pid starter) pid k' where
  root p mem started := by
    by_cases new : p = pid
    · subst new
      rw [Function.update_self] at started
      exact root started
    · rw [Function.update_of_ne new] at started
      exact (parents p new mem).trans (h.root p (live p new mem) started)
  parent p q f mem started := by
    by_cases new : p = pid
    · subst new
      rw [Function.update_self] at started
      exact (parent q f started).1
    · rw [Function.update_of_ne new] at started
      exact (parents p new mem).trans (h.parent p q f (live p new mem) started)
  waits p q f mem started := by
    by_cases new : p = pid
    · subst new
      rw [Function.update_self] at started
      exact (parent q f started).2.1
    · rw [Function.update_of_ne new] at started
      exact waits q f (h.waits p q f (live p new mem) started)
  unique p p' q f f' mem mem' started started' := by
    -- the caller of the new call was running, so it waited in no other
    have apart : ∀ p q f f', p ≠ pid → Live k' p → starters p = some (q, f) →
        starter ≠ some (q, f') := by
      intro p q f f' old mem started new
      have resting := (h.waits p q f (live p old mem) started).resting
      exact resting (parent q f' new).2.2
    by_cases new : p = pid
    · by_cases new' : p' = pid
      · rw [new, new']
      · subst new
        rw [Function.update_self] at started
        rw [Function.update_of_ne new'] at started'
        exact absurd started (apart p' q f' f new' mem' started')
    · by_cases new' : p' = pid
      · subst new'
        rw [Function.update_of_ne new] at started
        rw [Function.update_self] at started'
        exact absurd started' (apart p q f f' new mem started)
      · rw [Function.update_of_ne new] at started
        rw [Function.update_of_ne new'] at started'
        exact h.unique p p' q f f' (live p new mem) (live p' new' mem') started started'

/-- Tables and identities decide which calls are pending. -/
theorem Pending.congr (h : Pending starters r k) (usage : k'.pidUsage = k.pidUsage)
    (sched : k'.sched = k.sched)
    (fields : ∀ p < 16, ∀ g, Identity g → get k'.mem (getPcb p) g = get k.mem (getPcb p) g) :
    Pending starters r k' := by
  apply h.transfer
  · intro p mem
    exact ⟨mem.pos, mem.lt, usage ▸ mem.inUse⟩
  · intro p mem
    exact fields p mem.lt _ (by simp [Identity])
  · intro p q f _ _ waits
    exact waits.transfer (congrFun usage q) (congrFun sched q) waits.resting
      (fields q waits.live.lt)

/-- The tick picks a scheduled process or stays with the running one; neither waits. -/
theorem Pending.switched (h : Pending starters r k) (running : k.field .pid = r)
    (picked : Kernel.nextPid k.sched (k.field .pid) = some q) (switched : Switched k r q f k') :
    Pending starters q k' := by
  have kept : ∀ p < 16, ∀ g, p ≠ r ∨ (g ≠ .espReg ∧ g ≠ .ebpReg) →
      get k'.mem (getPcb p) g = get k.mem (getPcb p) g := by
    intro p lt g other
    rw [switched.fields p lt, if_neg, if_neg]
    · rintro ⟨rfl, rfl⟩
      simp at other
    · rintro ⟨rfl, rfl⟩
      simp at other
  apply h.transfer
  · intro p mem
    exact ⟨mem.pos, mem.lt, switched.usage ▸ mem.inUse⟩
  · intro p mem
    exact kept p mem.lt _ (.inr (by simp))
  · intro p q' f' _ _ waits
    have resting : q' ≠ q := by
      rintro rfl
      rcases Kernel.nextPid_cases picked with ⟨_, scheduled⟩ | same
      · exact waits.unscheduled scheduled
      · exact waits.resting (same.trans running)
    exact waits.transfer (congrFun switched.usage q') (congrFun switched.sched q') resting
      fun g _ => kept q' waits.live.lt g (.inl waits.resting)

theorem Readied.live {k₀ : Kernel} (ready : Readied e k r k₀) (mem : Live k₀ p) : Live k p := by
  refine ⟨mem.pos, mem.lt, fun free => mem.inUse ?_⟩
  rcases ready.usage with same | ⟨-, freed⟩
  · rw [same, free]
  · rw [freed, Function.update_apply, free]
    exact ite_self 0

/-- Only the running process gives its pid back, and it does not wait. -/
theorem Waits.readied {k₀ : Kernel} (h : Waits k r q f) (ready : Readied e k r k₀) :
    Waits k₀ r q f := by
  refine h.transfer ?_ (congrFun ready.sched q) h.resting fun g _ => by rw [ready.mem]
  rcases ready.usage with same | ⟨-, freed⟩
  · rw [same]
  · rw [freed, Function.update_of_ne h.resting]

theorem Pending.readied {k₀ : Kernel} (h : Pending starters r k) (ready : Readied e k r k₀) :
    Pending starters r k₀ :=
  h.transfer (fun _ mem => ready.live mem) (fun _ _ => by rw [ready.mem])
    fun _ _ _ _ _ waits => waits.readied ready

theorem Pending.loadFailed (h : Pending starters r k) (failed : LoadFailed P k k') :
    Pending starters r k' := by
  obtain ⟨_, _, _, rfl, -⟩ := failed.unchanged
  exact h.congr rfl rfl fun _ _ _ _ => rfl

section Started

variable {pid parent term : Nat} (started : Started P Identity k r pid parent term f k')

include started

/-- A pid in use before a program was started is not the new one. -/
theorem Platform.Started.ne_of_live (mem : Live k p) : p ≠ pid :=
  fun same => mem.inUse (same ▸ started.new.free)

theorem Platform.Started.live_old (other : p ≠ pid) (mem : Live k' p) : Live k p := by
  refine ⟨mem.pos, mem.lt, fun free => mem.inUse ?_⟩
  rw [started.usage, Function.update_of_ne other, free]

theorem Platform.Started.kept (lt : p < 16) (other : p ≠ pid) {g : PcbField} (id : Identity g)
    (unsaved : p ≠ r ∨ g = .parentPcb) :
    get k'.mem (getPcb p) g = get k.mem (getPcb p) g := by
  rw [started.fields p lt g id, if_neg, if_neg, if_neg (Ne.symm other)]
  · rintro ⟨rfl, rfl⟩
    simp at unsaved
  · rintro ⟨rfl, rfl⟩
    simp at unsaved

theorem Waits.beside {f' : Frame} (h : Waits k r q f') (sched : k'.sched q = k.sched q) :
    Waits k' pid q f' := by
  have other := started.ne_of_live h.live
  refine h.transfer ?_ sched other fun g id => started.kept h.live.lt other id (.inl h.resting)
  rw [started.usage, Function.update_of_ne other]

end Started

/-- A child is started: its parent was running, so it waited in no call before. -/
theorem Pending.child {pid term : Nat} (h : Pending starters r k) (range : 1 ≤ r ∧ r < 16)
    (inUse : k.pidUsage r ≠ 0) (started : Started P Identity k r pid (getPcb r) term f k')
    (sched : k'.sched = Function.update (Function.update k.sched pid 1) r 0) :
    Pending (Function.update starters pid (some (r, f))) pid k' := by
  have live : Live k r := ⟨range.1, range.2, inUse⟩
  have other := started.ne_of_live live
  apply h.enter
  · exact fun p old mem => started.live_old old mem
  · exact fun p old mem => started.kept mem.lt old (by simp [Identity]) (.inr rfl)
  · intro q f' waits
    apply waits.beside started
    rw [sched, Function.update_of_ne waits.resting,
      Function.update_of_ne (started.ne_of_live waits.live)]
  · intro none
    cases none
  · intro q f' eq
    cases eq
    refine ⟨?_, ⟨⟨range.1, range.2, ?_⟩, ?_, other, ?_, ?_⟩, rfl⟩
    · rw [started.fields pid started.new.lt _ (by simp [Identity]), if_neg (by simp),
        if_neg (by simp), if_pos rfl, assigned_newPcb_parentPcb,
        Nat.mod_eq_of_lt (by rw [getPcb_eq range.2]; omega)]
    · rw [started.usage, Function.update_of_ne other]
      exact inUse
    · rw [sched, Function.update_self]
      decide
    · rw [started.fields r range.2 _ (by simp [Identity]), if_pos ⟨rfl, rfl⟩]
      rfl
    · rw [started.fields r range.2 _ (by simp [Identity]), if_neg (by simp), if_pos ⟨rfl, rfl⟩]
      rfl

/-- A shell of the kernel's own has no parent. -/
theorem Pending.shell {pid term : Nat} (h : Pending starters r k)
    (started : Started P Identity k r pid 0 term f k')
    (sched : k'.sched = Function.update k.sched pid 1) :
    Pending (Function.update starters pid none) pid k' := by
  apply h.enter
  · exact fun p old mem => started.live_old old mem
  · exact fun p old mem => started.kept mem.lt old (by simp [Identity]) (.inr rfl)
  · intro q f' waits
    apply waits.beside started
    rw [sched, Function.update_of_ne (started.ne_of_live waits.live)]
  · intro _
    rw [started.fields pid started.new.lt _ (by simp [Identity]), if_neg (by simp),
      if_neg (by simp), if_pos rfl, assigned_newPcb_parentPcb]
    rfl
  · intro q f' eq
    cases eq

/-- The call that started a live process with a parent. -/
theorem Pending.starter (h : Pending starters r k) (mem : Live k p) (lt : q < 16)
    (parent : get k.mem (getPcb p) .parentPcb = getPcb q) :
    ∃ f, starters p = some (q, f) := by
  cases started : starters p with
  | none => exact absurd (parent.symm.trans (h.root p mem started)) (getPcb_ne_zero lt)
  | some call =>
      obtain ⟨q', f⟩ := call
      have same := (h.parent p q' f mem started).symm.trans parent
      exact ⟨f, by rw [getPcb_inj (h.waits p q' f mem started).live.lt lt same]⟩

/-- A child halts: its parent runs, and nobody else waited in the same call. -/
theorem Pending.resumed (h : Pending starters r k) (mem : Live k r) (ltq : q < 16)
    (parent : get k.mem (getPcb r) .parentPcb = getPcb q) (resumed : Resumed k r q k') :
    Pending starters q k' := by
  obtain ⟨f, started⟩ := h.starter mem ltq parent
  have kept : ∀ p < 16, ∀ g, Identity g → get k'.mem (getPcb p) g = get k.mem (getPcb p) g := by
    intro p lt g id
    rw [resumed.fields p lt, if_neg]
    rintro ⟨-, rfl⟩
    simp [Identity] at id
  have live : ∀ p, Live k' p → p ≠ r ∧ Live k p := by
    intro p mem
    have inUse := mem.inUse
    rw [resumed.usage] at inUse
    have other : p ≠ r := by
      rintro rfl
      exact inUse (Function.update_self _ _ _)
    rw [Function.update_of_ne other] at inUse
    exact ⟨other, mem.pos, mem.lt, inUse⟩
  apply h.transfer
  · exact fun p mem => (live p mem).2
  · exact fun p mem => kept p mem.lt _ (by simp [Identity])
  · intro p q' f' mem' started' waits
    have other : q' ≠ q := by
      rintro rfl
      exact (live p mem').1 (h.unique p r q' f' f (live p mem').2 mem started' started)
    refine waits.transfer ?_ ?_ other (kept q' waits.live.lt)
    · rw [resumed.usage, Function.update_of_ne waits.resting]
    · rw [resumed.sched, Function.update_of_ne waits.resting, Function.update_of_ne other]

theorem Effect.pending (effect : Effect P k r e outcome r' k') (h : Sound P G k)
    (on : Sound.On G r k) (pending : Pending starters r k) :
    Pending (e.starters starters k outcome) r' k' := by
  have range := h.range r on.mem
  cases effect with
  | kept same =>
      rw [Event.starters_returned]
      exact pending.congr same.usage same.sched same.fields
  | mapped same => exact pending.congr same.usage same.sched same.fields
  | switched _ picked switched => exact pending.switched (on.field h) picked switched
  | failed ready failed =>
      rw [Event.starters_returned]
      exact (pending.readied ready).loadFailed failed
  | child _ inUse started sched =>
      simp only [Event.starters, Kernel.running_eq range.2 on.curr]
      exact pending.child range inUse started sched
  | shell starts _ ready started sched =>
      rw [Event.starters_shell starts]
      exact (pending.readied ready).shell started (by rw [ready.sched]; exact sched)
  | resumed inUse ltq same parent resumed =>
      have pending₁ := pending.congr same.usage same.sched same.fields
      refine pending₁.resumed ⟨range.1, range.2, ?_⟩ ltq ?_ resumed
      · rw [same.usage]
        exact inUse
      · rw [same.fields r range.2 _ (by simp [Identity])]
        exact parent

/-- Before the first shell no pid is taken. -/
theorem pending_boot (P : Platform) (start : Kernel) (starters : Starters) :
    Pending starters r (start.boot P) := by
  have none : ∀ p, ¬ Live (start.boot P) p := by
    intro p mem
    exact mem.inUse (if_pos ⟨mem.pos, mem.lt⟩)
  exact ⟨fun p mem => absurd mem (none p), fun p _ _ mem => absurd mem (none p),
    fun p _ _ mem => absurd mem (none p), fun p _ _ _ _ mem => absurd mem (none p)⟩

/-- In every run the calls are pending that started the live processes. -/
theorem CallRun.pending (run : CallRun P starters k) : Pending starters k.running k := by
  induction run with
  | @boot start k f pid here on init =>
      obtain ⟨started, sched⟩ := booted_started here init
      have first := (pending_boot P start fun _ => none).shell started sched
      rw [Function.update_eq_self_iff.mpr rfl] at first
      rwa [Kernel.running_eq started.new.lt started.curr]
  | step run defined step ih =>
      obtain ⟨G, r, h, on⟩ := run.reachable.sound
      obtain ⟨r', effect⟩ := h.effect on defined step
      obtain ⟨G', h', on'⟩ := effect.sound h on
      rw [Kernel.running_eq (h.range r on.mem).2 on.curr] at ih
      rw [Kernel.running_eq (h'.range r' on'.mem).2 on'.curr]
      exact effect.pending h on ih

/-! ### The value of the call -/

/-- **Exit status.** In every run of the kernel, a process with a parent that halts was
started by a call of that parent. The call returns the status to the parent, on the stack
and frame it was made with, if the status is 0 and the files of the process can be
closed, and otherwise not. -/
theorem exit_status_returned (run : CallRun P starters k) (status : UInt8)
    (u : Fin 8 → Unspecified) (f : Frame) (defined : (Event.halt status u f).Defined k)
    (child : k.field .parentPcb ≠ 0) :
    ∃ q call, starters k.running = some (q, call) ∧
      ((∃ k', P.step k (.halt status u f) = some (.resumed status.toNat, k') ∧ k'.running = q ∧
          k'.esp = call.esp % 2 ^ 32 ∧ k'.ebp = call.ebp % 2 ^ 32) ↔
        status = 0 ∧ P.Closable k) := by
  obtain ⟨G, r, h, on⟩ := run.reachable.sound
  obtain ⟨inUse, onStack, harmless⟩ := defined
  have range := h.range r on.mem
  have running := Kernel.running_eq range.2 on.curr
  have pending := run.pending
  rw [running] at pending inUse ⊢
  have live : Live k r := ⟨range.1, range.2, inUse⟩
  have parentField : k.field .parentPcb = get k.mem (getPcb r) .parentPcb := by
    rw [Kernel.field, on.curr]
  obtain ⟨q, memq, parent⟩ := (h.parent r on.mem).resolve_left (parentField ▸ child)
  have ltq := (h.range q memq).2
  obtain ⟨call, started⟩ := pending.starter live ltq parent
  have waits := pending.waits r q call live started
  refine ⟨q, call, started, ?_⟩
  have halts : P.step k (.halt status u f) =
      (P.closeAll k u).map fun k => resumeParent k (getPcb q) := by
    simp only [Platform.step, syscallHalt, parentField, parent, getPcb_ne_zero ltq, if_false]
  rw [halts, ← isSome_closeAll on.curr range.2 harmless]
  cases closed : P.closeAll k u with
  | none => simp
  | some k₁ =>
      have same := SameIdentity.closeAll on.curr range.2 harmless closed
      have h₁ := h.sameIdentity same
      obtain ⟨k₂, resume, resumed⟩ := resumeParent_resumed range.2 ltq (same.curr.trans on.curr)
        (h₁.pid r on.mem) (h₁.pid q memq)
      have back := (h₁.resumed (on.sameIdentity same) memq resumed).2.curr
      have esp := resumed.esp.trans (same.fields q ltq _ (by simp [Identity]))
      have ebp := resumed.ebp.trans (same.fields q ltq _ (by simp [Identity]))
      simp only [Option.map_some, resume, Option.isSome_some, and_true]
      constructor
      · rintro ⟨k', eq, -⟩
        have value := (Outcome.resumed.inj (Prod.mk.inj (Option.some.inj eq)).1).symm
        exact UInt8.toNat_inj.mp (Int.natCast_eq_zero.mp value)
      · rintro rfl
        exact ⟨k₂, rfl, Kernel.running_eq ltq back, esp.trans waits.esp, ebp.trans waits.ebp⟩

end Runs

/-- The first shell of the sample system starts a program. -/
theorem CallRun.sampleExecuted :
    CallRun Platform.sample (Function.update (fun _ => none) 2 (some (1, .sample 1)))
      Linux391.sampleExecuted := by
  have boot : CallRun Platform.sample (fun _ => none) Kernel.sampleBoot :=
    .boot (Kernel.blank_curr (by decide)) sampleBoot_on sampleBoot_init
  have running : Kernel.sampleBoot.running = 1 := by decide +kernel
  have ends : (Platform.sample.step Kernel.sampleBoot
      (.execute (some shellCommand) (.sample 1))).map (·.1) = some (.entered 2) := by
    decide +kernel
  have run := boot.step (e := .execute (some shellCommand) (.sample 1))
    ⟨by decide +kernel, by decide +kernel, inBounds_sample 1⟩ (step_after ends)
  simp only [Event.starters, running] at run
  exact run

/-- It halts with status 0 and its shell gets 0. -/
theorem exit_status_returned_zero :
    ∃ k', Platform.sample.step sampleExecuted (.halt 0 (fun _ => .sample) (.sample 2)) =
      some (.resumed 0, k') ∧ k'.running = 1 ∧ k'.esp = kernelStack 1 := by
  have child : sampleExecuted.field .parentPcb ≠ 0 := by decide +kernel
  have running : sampleExecuted.running = 2 := by decide +kernel
  have closed : Platform.sample.Closable sampleExecuted := by
    have none : ∀ fd : Fin 8, 2 ≤ fd.val → sampleExecuted.field (.flags fd) = 0 := by
      decide +kernel
    exact fun fd user isOpen => absurd (none fd user) isOpen
  obtain ⟨q, call, started, returned⟩ := exit_status_returned CallRun.sampleExecuted 0
    (fun _ => .sample) (.sample 2) ⟨by decide +kernel, by decide +kernel, fun _ => harmless_sample⟩
    child
  rw [running, Function.update_self] at started
  cases started
  obtain ⟨k', step, back, esp, -⟩ := returned.mpr ⟨rfl, closed⟩
  exact ⟨k', step, back, esp⟩

/-- With status 1 its shell gets 0 as well. -/
theorem exit_status_lost :
    CallRun Platform.sample (Function.update (fun _ => none) 2 (some (1, .sample 1)))
      sampleExecuted ∧
    sampleExecuted.running = 2 ∧ sampleExecuted.field .parentPcb ≠ 0 ∧
    (Event.halt 1 (fun _ => .sample) (.sample 2)).Defined sampleExecuted ∧
    Platform.sample.step sampleExecuted (.halt 1 (fun _ => .sample) (.sample 2)) =
      some (.resumed 0, sampleExecuted.after Platform.sample
        (.halt 1 (fun _ => .sample) (.sample 2))) :=
  ⟨CallRun.sampleExecuted, by decide +kernel, by decide +kernel,
    ⟨by decide +kernel, by decide +kernel, fun _ => harmless_sample⟩,
    step_after (by decide +kernel)⟩

end Linux391
