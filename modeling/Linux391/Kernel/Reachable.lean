import Linux391.Kernel.Identity

/-!
What holds in every reachable state of the kernel, under all of its events.

Once a PCB was filled in it stays that of its pid: its `pid` field, a saved stack
pointer on its own stack and a parent that is such a PCB too. Only such pids are ever
scheduled, and CR3 is the directory of the one whose stack is in use. None of this
depends on `pid_usage`, so it survives shells that halt.

`Effect` says once what an event can do to the process table. The invariant here and
those of later modules are kept by every effect, hence by every event.
-/

namespace Linux391

open Memory Platform

variable {P : Platform} {k k' k'' : Kernel} {r r' p q : Nat} {f : Frame} {e : Event}
  {outcome : Outcome}

/-! ### The invariant -/

/-- The pids in `G` have a PCB of their own, and no other is scheduled. -/
structure Sound (P : Platform) (G : Nat → Prop) (k : Kernel) : Prop where
  range : ∀ p, G p → 1 ≤ p ∧ p < 16
  pid : ∀ p, G p → get k.mem (getPcb p) .pid = p
  stack : ∀ p, G p → pcbProcess (get k.mem (getPcb p) .espReg) = getPcb p
  parent : ∀ p, G p → get k.mem (getPcb p) .parentPcb = 0 ∨
    ∃ q, G q ∧ get k.mem (getPcb p) .parentPcb = getPcb q
  sched : ∀ p < 16, k.sched p = 1 → G p
  regular : Paging.Regular P.pages k.paging
  userTable : k.paging.userPageTable = (Paging.init P.pages Paging.zero).userPageTable

/-- The stack in use and CR3 are those of a pid in `G`. -/
structure Sound.On (G : Nat → Prop) (r : Nat) (k : Kernel) : Prop where
  mem : G r
  curr : k.curr = getPcb r
  cr3 : k.cr3 = r

variable {G : Nat → Prop}

theorem Sound.sameIdentity (h : Sound P G k) (same : SameIdentity k k') : Sound P G k' where
  range := h.range
  pid p mem := (same.fields p (h.range p mem).2 _ (by simp [Identity])).trans (h.pid p mem)
  stack p mem := by
    rw [same.fields p (h.range p mem).2 _ (by simp [Identity])]
    exact h.stack p mem
  parent p mem := by
    rw [same.fields p (h.range p mem).2 _ (by simp [Identity])]
    exact h.parent p mem
  sched p lt runnable := h.sched p lt (by rw [← same.sched, runnable])
  regular := by rw [same.paging]; exact h.regular
  userTable := by rw [same.paging]; exact h.userTable

theorem Sound.On.sameIdentity (on : Sound.On G r k) (same : SameIdentity k k') :
    Sound.On G r k' :=
  ⟨on.mem, same.curr.trans on.curr, same.cr3.trans on.cr3⟩

theorem Sound.On.field (h : Sound P G k) (on : Sound.On G r k) : k.field .pid = r := by
  rw [Kernel.field, on.curr, h.pid r on.mem]

theorem Paging.allocate_userPageTable (L : PageLayout) (T : Paging) (pid : Nat) :
    (T.allocate L pid).userPageTable = T.userPageTable := by
  unfold allocate
  split <;> rfl

theorem Paging.mapVideo_userPageTable (L : PageLayout) (T : Paging) (pid : Nat) :
    (T.mapVideo L pid).userPageTable = T.userPageTable := by
  unfold mapVideo
  split <;> rfl

/-- A program is started. Nothing is asked of the stack in use but that it is one, so
that this covers boot and a shell that halts. -/
theorem Sound.started {pid parent term : Nat} (h : Sound P G k) (here : k.curr = getPcb r)
    (on : f.On k) (started : Started P Identity k r pid parent term f k')
    (link : parent = 0 ∨ ∃ q, G q ∧ parent = getPcb q)
    (sched : ∀ p < 16, p ≠ pid → k'.sched p = 1 → k.sched p = 1) :
    Sound P (fun p => p = pid ∨ G p) k' ∧ Sound.On (fun p => p = pid ∨ G p) pid k' := by
  have lt := started.new.lt
  have range : ∀ p, p = pid ∨ G p → 1 ≤ p ∧ p < 16 := by
    rintro p (rfl | mem)
    · exact ⟨started.new.pos, lt⟩
    · exact h.range p mem
  have small : parent % 256 ^ 4 = parent := by
    rcases link with rfl | ⟨q, mem, rfl⟩
    · rfl
    · exact Nat.mod_eq_of_lt (by rw [getPcb_eq (h.range q mem).2]; omega)
  refine ⟨⟨range, fun p mem => ?_, fun p mem => ?_, fun p mem => ?_, fun p lt runnable => ?_,
    ?_, ?_⟩, ⟨.inl rfl, started.curr, started.cr3⟩⟩
  · rw [started.fields p (range p mem).2 _ (by simp [Identity]), if_neg (by simp), if_neg (by simp)]
    split_ifs with own
    · rw [assigned_newPcb_pid _ lt, own]
    · exact h.pid p (mem.resolve_left (Ne.symm own))
  · rw [started.fields p (range p mem).2 _ (by simp [Identity])]
    split_ifs with saved ebp own
    · rw [pcbProcess_mod, ← saved.1, ← here]
      exact on
    · simp at ebp
    · rw [assigned_newPcb_espReg _ lt, ← own, pcbProcess_kernelStack lt]
    · exact h.stack p (mem.resolve_left (Ne.symm own))
  · rw [started.fields p (range p mem).2 _ (by simp [Identity]), if_neg (by simp), if_neg (by simp)]
    split_ifs with own
    · rw [assigned_newPcb_parentPcb, small]
      exact link.imp_right (Exists.imp fun q => And.imp_left .inr)
    · exact (h.parent p (mem.resolve_left (Ne.symm own))).imp_right
        (Exists.imp fun q => And.imp_left .inr)
  · by_cases own : p = pid
    · exact .inl own
    · exact .inr (h.sched p lt (sched p lt own runnable))
  · rw [started.paging]
    exact h.regular.allocate lt
  · rw [started.paging, Paging.allocate_userPageTable]
    exact h.userTable

/-- A failed load leaves a page directory behind and puts CR3 back. -/
theorem Sound.loadFailed (h : Sound P G k) (on : Sound.On G r k) (failed : LoadFailed P k k') :
    Sound P G k' ∧ Sound.On G r k' := by
  cases failed with
  | early => exact ⟨h, on⟩
  | late new outside =>
      rw [on.field h, Kernel.pagingUpdateControl, if_pos (h.range r on.mem).2]
      refine ⟨⟨h.range, h.pid, h.stack, h.parent, h.sched, h.regular.allocate new.lt, ?_⟩,
        ⟨on.mem, on.curr, rfl⟩⟩
      exact (Paging.allocate_userPageTable _ _ _).trans h.userTable

/-! ### What an event does -/

/-- The calls of `syscall_halt`. -/
def Event.IsHalt : Event → Prop
  | .halt _ _ _ => True
  | _ => False

/-- The state in which a shell is started: as before the event but for the terminals, or
with the pid of the shell that halts given back and its stack emptied. -/
structure Readied (e : Event) (k : Kernel) (r : Nat) (k₀ : Kernel) : Prop where
  usage : k₀.pidUsage = k.pidUsage ∨
    e.IsHalt ∧ k₀.pidUsage = Function.update k.pidUsage r 0
  sched : k₀.sched = k.sched
  mem : k₀.mem = k.mem
  paging : k₀.paging = k.paging
  cr3 : k₀.cr3 = k.cr3
  curr : k₀.curr = k.curr

/-- The events that may start a shell, with their frame. -/
def Event.StartsShell (f : Frame) : Event → Prop
  | .altFn _ f' => f' = f
  | .halt _ _ f' => f' = f
  | _ => False

/-- What an event of process `r` did, and the process that runs after it. -/
inductive Effect (P : Platform) (k : Kernel) (r : Nat) : Event → Outcome → Nat → Kernel → Prop where
  /-- Files, terminals and frames at most. -/
  | kept {e : Event} {value : Int} {k' : Kernel} : SameIdentity k k' →
      Effect P k r e (.returned value) r k'
  | mapped {screenStart : Nat} {value : Int} {k' : Kernel} :
      SameIdentity { k with paging := k.paging.mapVideo P.pages r } k' →
      Effect P k r (.vidmap screenStart) (.returned value) r k'
  | switched {f : Frame} {q : Nat} {k' : Kernel} : f.On k →
      Kernel.nextPid k.sched (k.field .pid) = some q → Switched k r q f k' →
      Effect P k r (.tick f) (.returned 0) q k'
  | failed {e : Event} {k₀ k' : Kernel} : Readied e k r k₀ → LoadFailed P k₀ k' →
      Effect P k r e (.returned (-1)) r k'
  | child {command : Option CStr} {f : Frame} {pid term : Nat} {k' : Kernel} : f.On k →
      k.pidUsage r ≠ 0 → Started P Identity k r pid (getPcb r) term f k' →
      k'.sched = Function.update (Function.update k.sched pid 1) r 0 →
      Effect P k r (.execute command f) (.entered pid) pid k'
  | shell {e : Event} {f : Frame} {pid term : Nat} {k₀ k' : Kernel} : e.StartsShell f → f.On k →
      Readied e k r k₀ → Started P Identity k₀ r pid 0 term f k' →
      k'.sched = Function.update k.sched pid 1 → Effect P k r e (.entered pid) pid k'
  | resumed {status : UInt8} {u : Fin 8 → Unspecified} {f : Frame} {q : Nat} {k₁ k' : Kernel} :
      k.pidUsage r ≠ 0 → q < 16 → SameIdentity k k₁ →
      get k.mem (getPcb r) .parentPcb = getPcb q → Resumed k₁ r q k' →
      Effect P k r (.halt status u f) (.resumed 0) q k'

/-! ### Every effect keeps the invariant -/

theorem Sound.readied {k₀ : Kernel} (h : Sound P G k) (ready : Readied e k r k₀) :
    Sound P G k₀ where
  range := h.range
  pid p mem := by
    rw [ready.mem]
    exact h.pid p mem
  stack p mem := by
    rw [ready.mem]
    exact h.stack p mem
  parent p mem := by
    rw [ready.mem]
    exact h.parent p mem
  sched p lt runnable := h.sched p lt (by rw [← ready.sched, runnable])
  regular := by
    rw [ready.paging]
    exact h.regular
  userTable := by
    rw [ready.paging]
    exact h.userTable

theorem Sound.On.readied {k₀ : Kernel} (on : Sound.On G r k) (ready : Readied e k r k₀) :
    Sound.On G r k₀ :=
  ⟨on.mem, ready.curr.trans on.curr, ready.cr3.trans on.cr3⟩

theorem Sound.mapVideo (h : Sound P G k) (on : Sound.On G r k) :
    Sound P G { k with paging := k.paging.mapVideo P.pages r } :=
  ⟨h.range, h.pid, h.stack, h.parent, h.sched, h.regular.mapVideo (h.range r on.mem).2,
    (Paging.mapVideo_userPageTable _ _ _).trans h.userTable⟩

/-- The tick picks a pid with a PCB of its own. -/
theorem Sound.nextPid_mem (h : Sound P G k) (on : Sound.On G r k)
    (picked : Kernel.nextPid k.sched (k.field .pid) = some q) : G q := by
  rcases Kernel.nextPid_cases picked with ⟨lt, runnable⟩ | same
  · exact h.sched q lt runnable
  · rw [same, on.field h]
    exact on.mem

theorem Sound.switched (h : Sound P G k) (on : Sound.On G r k) (onStack : f.On k) (memq : G q)
    (switched : Switched k r q f k') : Sound P G k' ∧ Sound.On G q k' := by
  have stack : ∀ p, G p → pcbProcess (get k'.mem (getPcb p) .espReg) = getPcb p := by
    intro p mem
    rw [switched.fields p (h.range p mem).2]
    split_ifs with saved ebp
    · rw [pcbProcess_mod, ← saved.1, ← on.curr]
      exact onStack
    · simp at ebp
    · exact h.stack p mem
  have kept : ∀ p, G p → ∀ g, g ≠ .espReg → g ≠ .ebpReg →
      get k'.mem (getPcb p) g = get k.mem (getPcb p) g := by
    intro p mem g esp ebp
    rw [switched.fields p (h.range p mem).2, if_neg fun own => esp own.2.symm,
      if_neg fun own => ebp own.2.symm]
  refine ⟨⟨h.range, fun p mem => ?_, stack, fun p mem => ?_, fun p lt runnable => ?_, ?_, ?_⟩,
    ⟨memq, switched.curr.trans (stack q memq), switched.cr3⟩⟩
  · exact (kept p mem _ (by simp) (by simp)).trans (h.pid p mem)
  · rw [kept p mem _ (by simp) (by simp)]
    exact h.parent p mem
  · exact h.sched p lt (by rw [← switched.sched, runnable])
  · rcases switched.paging with same | ⟨addr, eq⟩
    · rw [same]
      exact h.regular
    · rw [eq]
      exact h.regular.updateVideo addr
  · rcases switched.paging with same | ⟨addr, eq⟩
    · rw [same]
      exact h.userTable
    · rw [eq]
      exact h.userTable

theorem Sound.resumed (h : Sound P G k) (on : Sound.On G r k) (mem : G q)
    (resumed : Resumed k r q k') : Sound P G k' ∧ Sound.On G q k' := by
  have kept : ∀ p, G p → ∀ g, g ≠ .child →
      get k'.mem (getPcb p) g = get k.mem (getPcb p) g := by
    intro p mem g other
    rw [resumed.fields p (h.range p mem).2, if_neg fun child => other child.2.symm]
  refine ⟨⟨h.range, fun p mem => (kept p mem _ (by simp)).trans (h.pid p mem), fun p mem => ?_,
    fun p mem => ?_, fun p lt runnable => ?_, ?_, ?_⟩, ⟨mem, ?_, resumed.cr3⟩⟩
  · rw [kept p mem _ (by simp)]
    exact h.stack p mem
  · rw [kept p mem _ (by simp)]
    exact h.parent p mem
  · rw [resumed.sched] at runnable
    rcases eq_or_ne p r with rfl | notRunning
    · exact on.mem
    · rw [Function.update_of_ne notRunning] at runnable
      rcases eq_or_ne p q with rfl | other
      · exact mem
      · rw [Function.update_of_ne other] at runnable
        exact h.sched p lt runnable
  · rw [resumed.paging]
    exact h.regular
  · rw [resumed.paging]
    exact h.userTable
  · rw [resumed.curr, h.stack q mem]

/-- An effect keeps the invariant, with one more pid if a program was entered, and its process
runs. -/
theorem Effect.sound_grown (effect : Effect P k r e outcome r' k') (h : Sound P G k)
    (on : Sound.On G r k) :
    ∃ G', Sound P G' k' ∧ Sound.On G' r' k' ∧ ∀ p, G' p → outcome = .entered p ∨ G p := by
  have entered : ∀ pid p, p = pid ∨ G p → Outcome.entered pid = .entered p ∨ G p := by
    rintro pid p (rfl | old)
    · exact .inl rfl
    · exact .inr old
  cases effect with
  | kept same => exact ⟨G, h.sameIdentity same, on.sameIdentity same, fun _ => .inr⟩
  | mapped same =>
      have mappedOn : Sound.On G r { k with paging := k.paging.mapVideo P.pages r } :=
        ⟨on.mem, on.curr, on.cr3⟩
      exact ⟨G, (h.mapVideo on).sameIdentity same, mappedOn.sameIdentity same, fun _ => .inr⟩
  | switched onStack picked switched =>
      obtain ⟨h', on'⟩ := h.switched on onStack (h.nextPid_mem on picked) switched
      exact ⟨G, h', on', fun _ => .inr⟩
  | failed ready failed =>
      obtain ⟨h', on'⟩ := (h.readied ready).loadFailed (on.readied ready) failed
      exact ⟨G, h', on', fun _ => .inr⟩
  | child onStack _ started sched =>
      obtain ⟨h', on'⟩ := h.started on.curr onStack started (.inr ⟨r, on.mem, rfl⟩) (by
        intro p _ other runnable
        rw [sched] at runnable
        rcases eq_or_ne p r with rfl | ne
        · rw [Function.update_self] at runnable
          exact absurd runnable (by decide)
        · rwa [Function.update_of_ne ne, Function.update_of_ne other] at runnable)
      exact ⟨_, h', on', entered _⟩
  | shell _ onStack ready started sched =>
      obtain ⟨h', on'⟩ := (h.readied ready).started (on.readied ready).curr
        (onStack.trans ready.curr.symm) started (.inl rfl) (by
          intro p _ other runnable
          rw [ready.sched]
          rwa [sched, Function.update_of_ne other] at runnable)
      exact ⟨_, h', on', entered _⟩
  | resumed _ ltq same parent resumed =>
      rcases h.parent r on.mem with none | ⟨q, mem, eq⟩
      · exact absurd (parent.symm.trans none) (getPcb_ne_zero ltq)
      · obtain rfl := getPcb_inj ltq (h.range q mem).2 (parent.symm.trans eq)
        obtain ⟨h', on'⟩ := (h.sameIdentity same).resumed (on.sameIdentity same) mem resumed
        exact ⟨G, h', on', fun _ => .inr⟩

theorem Effect.sound (effect : Effect P k r e outcome r' k') (h : Sound P G k)
    (on : Sound.On G r k) : ∃ G', Sound P G' k' ∧ Sound.On G' r' k' := by
  obtain ⟨G', h', on', -⟩ := effect.sound_grown h on
  exact ⟨G', h', on'⟩

/-! ### Every event has an effect -/

/-- The arguments of a command parsed in bounds may leave `args`, but end on its page. -/
theorem unreached_of_inBounds {c : CStr} {parse : Parse} (parsed : parseCommand c f = some parse)
    (inBounds : parse.inBounds = true) {g : PcbField} (id : Identity g) :
    Unreached (strcpyBytes parse.fargs) g := by
  have stop : ∃ i < 128, parse.fargs i = 0 := by
    obtain ⟨s, -, rfl⟩ := Option.map_eq_some_iff.mp parsed
    refine ⟨uint32 ((strlen c : Int) - s.fnameLength - 1), ?_⟩
    cases flag : s.fileFlag with
    | true =>
        simp only [Parse.putArg, flag, if_true, Bool.and_eq_true, decide_eq_true_eq] at inBounds ⊢
        exact ⟨inBounds.2, Function.update_self _ _ _⟩
    | false =>
        simp only [Parse.putArg, Parse.putName, flag, Bool.false_eq_true, if_false,
          Bool.and_eq_true, decide_eq_true_eq] at inBounds ⊢
        exact ⟨inBounds.1.2, Function.update_self _ _ _⟩
  obtain ⟨i, lt, stop⟩ := stop
  have short := strlen_le stop
  rw [Unreached, length_strcpyBytes]
  refine ⟨by omega, .inl ?_⟩
  rcases id with rfl | rfl | rfl | rfl <;> decide

/-- When the model's account of an event is all there is to it: a frame lies on the stack
in use, only a live process makes calls (a process that has halted has lost its stack), a
command is parsed in bounds, and unspecified pointers are harmless. -/
def Event.Defined (k : Kernel) : Event → Prop
  | .tick f => f.On k
  | .altFn _ f => f.On k
  | .key _ _ _ _ => True
  | .execute command f => k.pidUsage k.running ≠ 0 ∧ f.On k ∧ InBounds command f
  | .halt _ u f => k.pidUsage k.running ≠ 0 ∧ f.On k ∧ ∀ fd, (u fd).Harmless
  | .vidmap _ => k.pidUsage k.running ≠ 0
  | .call c => k.pidUsage k.running ≠ 0 ∧ c.Harmless

theorem Effect.execute {command : Option CStr} (h : Sound P G k) (on : Sound.On G r k)
    (onStack : f.On k) (inUse : k.pidUsage r ≠ 0) (inBounds : InBounds command f)
    (step : P.syscallExecute k command f = some (outcome, k')) :
    ∃ r', Effect P k r (.execute command f) outcome r' k' := by
  rcases syscallExecute_cases Identity (h.range r on.mem).2 on.curr inUse (by simp [Identity])
    (fun c parse given parsed g id =>
      unreached_of_inBounds parsed (inBounds c parse given parsed) id) step with
    ⟨rfl, failed⟩ | ⟨pid, rfl, started, sched, -⟩
  · exact ⟨r, .failed ⟨.inl rfl, rfl, rfl, rfl, rfl, rfl⟩ failed⟩
  · rw [on.field h] at sched
    exact ⟨pid, .child onStack inUse started sched⟩

/-- A shell is started beside the process whose stack is in use, or not at all. -/
theorem Effect.initShell {k₀ : Kernel} {termNum : Nat} (starts : e.StartsShell f) (ltr : r < 16)
    (here : k.curr = getPcb r) (onStack : f.On k) (ready : Readied e k r k₀)
    (step : P.syscallInitShell k₀ termNum f = some (outcome, k')) :
    ∃ r', Effect P k r e outcome r' k' := by
  rcases syscallInitShell_cases Identity ltr (ready.curr.trans here) (by simp [Identity])
    (fun _ parsed g _ => unreached_of_fit (shell_args_fit parsed) g) step with
    ⟨rfl, failed, -⟩ | ⟨pid, -, rfl, -, -, started, sched, -⟩
  · exact ⟨r, .failed ready failed⟩
  · rw [ready.sched] at sched
    exact ⟨pid, .shell starts onStack ready started sched⟩

theorem Effect.altFn {t : Fin 4} (h : Sound P G k) (on : Sound.On G r k) (onStack : f.On k)
    (step : P.altFn k t f = some (outcome, k')) :
    ∃ r', Effect P k r (.altFn t f) outcome r' k' := by
  simp only [Platform.altFn] at step
  split_ifs at step
  · cases step
    exact ⟨r, .kept (.terms _)⟩
  · refine Effect.initShell rfl (h.range r on.mem).2 on.curr onStack ?_ step
    exact ⟨.inl rfl, rfl, rfl, rfl, rfl, rfl⟩

theorem Effect.tick (h : Sound P G k) (on : Sound.On G r k) (onStack : f.On k) :
    ∃ r', Effect P k r (.tick f) (.returned 0) r' (k.schedulerTick P f.esp f.ebp) := by
  cases next : Kernel.nextPid k.sched (k.field .pid) with
  | none =>
      have idle : k.schedulerTick P f.esp f.ebp = k := by simp only [Kernel.schedulerTick, next]
      rw [idle]
      exact ⟨r, .kept (.refl k)⟩
  | some q =>
      have mem : G q := h.nextPid_mem on next
      exact ⟨q, .switched onStack next (schedulerTick_switched (h.range r on.mem).2
        (h.range q mem).2 on.curr next (h.pid q mem))⟩

theorem Effect.vidmap {screenStart : Nat} (h : Sound P G k) (on : Sound.On G r k)
    (step : P.syscallVidmap k screenStart = some (outcome, k')) :
    Effect P k r (.vidmap screenStart) outcome r k' := by
  have range := h.range r on.mem
  simp only [syscallVidmap, on.field h] at step
  split_ifs at step with refused
  · cases step
    exact .kept (.refl k)
  obtain ⟨k₁, stored, eq⟩ := Option.bind_eq_some_iff.mp step
  cases eq
  have mapped := h.mapVideo on
  have cr3 : Kernel.cr3 { k with paging := k.paging.mapVideo P.pages r } = r := on.cr3
  have same : SameIdentity { k with paging := k.paging.mapVideo P.pages r } k₁ :=
    .storeUser mapped.regular (by rw [cr3]; exact range.1) (by rw [cr3]; exact range.2)
      (by omega) stored
  have reloaded : SameIdentity k₁ { k₁ with cr3 := r } :=
    ⟨rfl, rfl, (same.cr3.trans cr3).symm, rfl, rfl, fun _ _ _ _ => rfl, fun _ _ => .refl _ _⟩
  have here : k₁.curr = getPcb r := same.curr.trans on.curr
  have flagged : SameIdentity { k₁ with cr3 := r } ({ k₁ with cr3 := r }.setField .vidmap 1) :=
    .setField (reloaded.curr.trans here) range.2 (by simp [Identity]) 1
  exact .mapped (same.trans (reloaded.trans flagged))

theorem Effect.halt (status : UInt8) {u : Fin 8 → Unspecified} (h : Sound P G k)
    (on : Sound.On G r k) (onStack : f.On k) (inUse : k.pidUsage r ≠ 0)
    (harmless : ∀ fd, (u fd).Harmless)
    (step : P.syscallHalt k status u f = some (outcome, k')) :
    ∃ r', Effect P k r (.halt status u f) outcome r' k' := by
  have lt := (h.range r on.mem).2
  have parentField : k.field .parentPcb = get k.mem (getPcb r) .parentPcb := by
    rw [Kernel.field, on.curr]
  simp only [syscallHalt, on.field h] at step
  split_ifs at step with root
  · -- the shell is started anew, on the same stack
    have here : Kernel.curr { k.tasksPidFree r with esp := kernelStack r } = k.curr :=
      (pcbProcess_kernelStack lt).trans on.curr.symm
    refine Effect.initShell rfl lt on.curr onStack ?_ step
    exact ⟨.inr ⟨trivial, rfl⟩, rfl, rfl, rfl, rfl, here⟩
  · obtain ⟨k₁, closed, eq⟩ := Option.map_eq_some_iff.mp step
    have same := SameIdentity.closeAll on.curr lt harmless closed
    have h₁ := h.sameIdentity same
    have on₁ := on.sameIdentity same
    rw [parentField] at root eq
    rcases h.parent r on.mem with none | ⟨q, mem, parent⟩
    · exact absurd none root
    · have ltq := (h.range q mem).2
      obtain ⟨k₂, resume, resumed⟩ :=
        resumeParent_resumed lt ltq on₁.curr (h₁.pid r on.mem) (h₁.pid q mem)
      rw [parent, resume] at eq
      cases eq
      exact ⟨q, .resumed inUse ltq same parent resumed⟩

/-- One event. -/
theorem Sound.effect (h : Sound P G k) (on : Sound.On G r k) (defined : e.Defined k)
    (step : P.step k e = some (outcome, k')) : ∃ r', Effect P k r e outcome r' k' := by
  have lt := (h.range r on.mem).2
  have running := Kernel.running_eq lt on.curr
  cases e with
  | tick f =>
      cases step
      exact Effect.tick h on defined
  | altFn t f => exact Effect.altFn h on defined step
  | key key scancode control alt =>
      cases step
      exact ⟨r, .kept (.terms _)⟩
  | execute command f =>
      obtain ⟨inUse, onStack, inBounds⟩ := defined
      exact Effect.execute h on onStack (by rwa [running] at inUse) inBounds step
  | halt status u f =>
      obtain ⟨inUse, onStack, harmless⟩ := defined
      exact Effect.halt status h on onStack (by rwa [running] at inUse) harmless step
  | vidmap screenStart => exact ⟨r, Effect.vidmap h on step⟩
  | call c =>
      obtain ⟨⟨value, k₁⟩, call, eq⟩ := Option.map_eq_some_iff.mp step
      cases eq
      exact ⟨r, .kept (SameIdentity.fdCall on.curr lt defined.2 call)⟩

/-! ### Reachable states -/

/-- The states the kernel can be in, from the start of the first shell on. -/
inductive Reachable (P : Platform) : Kernel → Prop where
  | boot {start k : Kernel} {f : Frame} {pid : Nat} : start.curr = getPcb 0 →
      f.On (start.boot P) → P.syscallInitShell (start.boot P) 0 f = some (.entered pid, k) →
      Reachable P k
  | step {k k' : Kernel} {e : Event} {outcome : Outcome} : Reachable P k → e.Defined k →
      P.step k e = some (outcome, k') → Reachable P k'

theorem sound_boot (P : Platform) (start : Kernel) : Sound P (fun _ => False) (start.boot P) where
  range _ never := never.elim
  pid _ never := never.elim
  stack _ never := never.elim
  parent _ never := never.elim
  sched p lt runnable := by
    have off : (start.boot P).sched p = 0 := if_pos (Nat.le_of_lt lt)
    rw [off] at runnable
    exact absurd runnable (by decide)
  regular := Paging.regular_init P.pages
  userTable := rfl

/-- The first shell. -/
theorem booted_started {start : Kernel} {pid : Nat} (here : start.curr = getPcb 0)
    (init : P.syscallInitShell (start.boot P) 0 f = some (.entered pid, k)) :
    Started P Identity (start.boot P) 0 pid 0 0 f k ∧
      k.sched = Function.update (start.boot P).sched pid 1 := by
  have here' : (start.boot P).curr = getPcb 0 := here
  rcases syscallInitShell_cases Identity (by decide) here' (by simp [Identity])
    (fun _ parsed g _ => unreached_of_fit (shell_args_fit parsed) g) init with
    ⟨returned, -⟩ | ⟨_, -, entered, -, -, started, sched, -⟩
  · cases returned
  · cases entered
    exact ⟨started, sched⟩

/-- Every reachable state. -/
theorem Reachable.sound (reachable : Reachable P k) :
    ∃ G r, Sound P G k ∧ Sound.On G r k := by
  induction reachable with
  | @boot start k f pid here on init =>
      obtain ⟨started, sched⟩ := booted_started here init
      refine ⟨_, pid, (sound_boot P start).started here on started (.inl rfl) ?_⟩
      intro p _ other runnable
      rwa [sched, Function.update_of_ne other] at runnable
  | step _ defined step ih =>
      obtain ⟨G, r, h, on⟩ := ih
      obtain ⟨r', effect⟩ := h.effect on defined step
      obtain ⟨G', kept⟩ := effect.sound h on
      exact ⟨G', r', kept⟩

/-- What the first shell starts with and every effect keeps holds in every reachable
state. -/
theorem Reachable.invariant {I : Kernel → Prop}
    (first : ∀ {start k : Kernel} {f : Frame} {pid : Nat},
      Started P Identity (start.boot P) 0 pid 0 0 f k →
      k.sched = Function.update (start.boot P).sched pid 1 → I k)
    (kept : ∀ {G : Nat → Prop} {k k' : Kernel} {r r' : Nat} {e : Event} {outcome : Outcome},
      Sound P G k → Sound.On G r k → Effect P k r e outcome r' k' → I k → I k')
    (reachable : Reachable P k) : I k := by
  induction reachable with
  | boot here _ init =>
      obtain ⟨started, sched⟩ := booted_started here init
      exact first started sched
  | step reachable defined step ih =>
      obtain ⟨G, r, h, on⟩ := reachable.sound
      obtain ⟨r', effect⟩ := h.effect on defined step
      exact kept h on effect ih

/-- An event with a known outcome leads to a reachable state. -/
theorem Reachable.after (reachable : Reachable P k) (e : Event) (outcome : Outcome)
    (defined : e.Defined k) (ends : (P.step k e).map (·.1) = some outcome) :
    Reachable P (k.after P e) :=
  reachable.step defined (step_after ends)

theorem Reachable.sampleBoot : Reachable Platform.sample Kernel.sampleBoot :=
  .boot (Kernel.blank_curr (by decide)) sampleBoot_on sampleBoot_init

end Linux391
