import Linux391.Drivers.FsRead
import Linux391.Kernel.Isolation
import Linux391.Kernel.Process

/-!
What starting and ending a program changes.

Each routine gets one description of the state it leaves. Loading a program touches
the page directory and the frame of the new pid and nothing else, a failed load
gives the pid back, and entering a program fills in one PCB and saves the registers
of another.
-/

namespace Linux391

open Memory

/-! ### Loading into a new page directory -/

/-- A directory that was just allocated maps the program window to the pid's frame. -/
theorem Paging.walk_allocate {L : PageLayout} {pid va : Nat} (lt : pid < 16) (T : Paging)
    (other : Nat → Nat → Pte) (user : Bool) (above : 0x8000000 ≤ va) (below : va < 0x8400000) :
    (T.allocate L pid).walk L other user pid va = some ((pid + 1) * 2 ^ 22 + va % 2 ^ 22) := by
  have window : va / 2 ^ 22 = 0x20 := by omega
  have frame : field20 ((pid + 1) * 1024) / 1024 = pid + 1 := by
    rw [field20_of_lt (by omega)]
    omega
  simp only [walk, allocate, Nat.not_le.mpr lt, if_false, window, setPde_apply, and_self, if_true,
    Bool.not_true, Bool.and_false, Bool.or_false, Bool.false_eq_true, frame]

/-- A stack pointer is stored in 32 bits, which `pcb_process` does not notice. -/
theorem pcbProcess_mod (esp : Nat) : pcbProcess (esp % 256 ^ 4) = pcbProcess esp := by
  have mod : esp % 256 ^ 4 = esp &&& 0xFFFFFFFF := (Nat.and_two_pow_sub_one_eq_mod esp 32).symm
  rw [pcbProcess, mod, Nat.and_assoc]
  rfl

namespace Kernel

variable {P : Platform} {k : Kernel} {pid : Nat}

/-- Bytes stored in the program window end up in the frame of the pid it maps. -/
theorem storeUser_window (pos : 1 ≤ pid) (lt : pid < 16) (bytes : List UInt8) {offset : Nat}
    (mapped : ∀ va, 0x8000000 ≤ va → va < 0x8400000 →
      k.paging.walk P.pages P.otherTables false k.cr3 va = some ((pid + 1) * 2 ^ 22 + va % 2 ^ 22))
    (below : offset + bytes.length ≤ 2 ^ 22) :
    k.storeUser P (0x8000000 + offset) bytes =
      some { k with frames := storeBytes k.frames ((pid + 1) * 2 ^ 22 + offset) bytes } := by
  induction bytes generalizing k offset with
  | nil => rw [storeBytes_nil]; rfl
  | cons b rest ih =>
      simp only [List.length_cons] at below
      have found := mapped (0x8000000 + offset) (by omega) (by omega)
      rw [show (0x8000000 + offset) % 2 ^ 22 = offset by omega] at found
      have stored : k.storePhysical ((pid + 1) * 2 ^ 22 + offset) b =
          { k with frames := Function.update k.frames ((pid + 1) * 2 ^ 22 + offset) b } := by
        rw [storePhysical, if_neg (by omega), if_neg (by omega)]
      have others := @ih
        { k with frames := Function.update k.frames ((pid + 1) * 2 ^ 22 + offset) b } (offset + 1)
        mapped (by omega)
      rw [← Nat.add_assoc, ← Nat.add_assoc] at others
      simp only [storeUser, found, Option.bind_eq_bind, Option.bind_some, stored, storeBytes_cons]
      exact others

/-- What `tasks_pid_new` found. -/
structure NewPid (k : Kernel) (pid : Nat) : Prop where
  pos : 1 ≤ pid
  lt : pid < 16
  free : k.pidUsage pid = 0
  lowest : ∀ q, 1 ≤ q → q < pid → k.pidUsage q ≠ 0

/-- The state with a program of `pid` in memory. -/
def withProgram (P : Platform) (k : Kernel) (pid : Nat) (frames : Mem) : Kernel :=
  { k with paging := k.paging.allocate P.pages pid, cr3 := pid, frames := frames }

/-- Where the loader puts a program in the frame of its pid. -/
theorem storeUser_program (pos : 1 ≤ pid) (lt : pid < 16) (k : Kernel)
    (filename entryPoint : CStr) :
    ((k.pagingAllocate P pid).pagingUpdateControl pid).storeUser P 0x8048000
        (P.fs.loader filename entryPoint).program =
      some (k.withProgram P pid (storeBytes k.frames ((pid + 1) * 2 ^ 22 + 0x48000)
        (P.fs.loader filename entryPoint).program)) := by
  have short := P.fs.length_loader_le filename entryPoint
  rw [pagingUpdateControl, if_pos lt, show 0x8048000 = 0x8000000 + 0x48000 from rfl]
  exact storeUser_window pos lt _ (fun va above below => Paging.walk_allocate lt _ _ _ above below)
    (by omega)

/-- It stays inside the frame. -/
theorem program_frames (k : Kernel) (filename entryPoint : CStr) {pa : Nat}
    (out : ¬ Paging.InImage pid pa) :
    storeBytes k.frames ((pid + 1) * 2 ^ 22 + 0x48000)
      (P.fs.loader filename entryPoint).program pa = k.frames pa := by
  have short := P.fs.length_loader_le filename entryPoint
  unfold Paging.InImage at out
  by_cases before : pa < (pid + 1) * 2 ^ 22 + 0x48000
  · exact storeBytes_of_lt before
  · exact storeBytes_of_ge (by omega)

end Kernel

namespace Platform

variable {P : Platform} {k k' : Kernel} {command : CStr} {f : Frame}

/-- The command names a program that passes every check up to the loader's. -/
def Loads (P : Platform) (command : CStr) (f : Frame) : Prop :=
  ∃ parse dentry, parseCommand command f = some parse ∧
    P.fs.readDentryByName parse.fname = some dentry ∧
    P.fs.executableCheck dentry f.magicBuf = false ∧
    (P.fs.loader parse.fname f.entryPoint).value ≠ 0xFFFFFFFF

/-- A load that failed. -/
inductive LoadFailed (P : Platform) (k : Kernel) : Kernel → Prop where
  /-- A check before the pid was taken. -/
  | early : LoadFailed P k k
  /-- The loader: the pid is free again, and CR3 is that of the caller's `pid` field. -/
  | late {pid : Nat} {frames : Mem} : k.NewPid pid →
      (∀ pa, ¬ Paging.InImage pid pa → frames pa = k.frames pa) →
      LoadFailed P k ((k.withProgram P pid frames).pagingUpdateControl (k.field .pid))

/-- A failed load changes frames, CR3 and one page directory at most. -/
theorem LoadFailed.unchanged (failed : LoadFailed P k k') :
    ∃ paging cr3 frames, k' = { k with paging := paging, cr3 := cr3, frames := frames } ∧
      (paging = k.paging ∨ ∃ pid, k.NewPid pid ∧ paging = k.paging.allocate P.pages pid) := by
  cases failed with
  | early => exact ⟨k.paging, k.cr3, k.frames, rfl, .inl rfl⟩
  | @late pid frames new outside =>
      unfold Kernel.pagingUpdateControl
      split
      · exact ⟨_, k.field .pid, frames, rfl, .inr ⟨pid, new, rfl⟩⟩
      · exact ⟨_, pid, frames, rfl, .inr ⟨pid, new, rfl⟩⟩

/-- A load that succeeded, on `pid`. -/
structure LoadDone (P : Platform) (k : Kernel) (command : CStr) (f : Frame) (pid : Nat)
    (parse : Parse) (k' : Kernel) : Prop where
  loads : P.Loads command f
  parsed : parseCommand command f = some parse
  new : k.NewPid pid
  state : ∃ frames, (∀ pa, ¬ Paging.InImage pid pa → frames pa = k.frames pa) ∧
    k' = { k.withProgram P pid frames with pidUsage := Function.update k.pidUsage pid 1 }
  program : k'.frames = storeBytes k.frames ((pid + 1) * 2 ^ 22 + 0x48000)
    (P.fs.loader parse.fname f.entryPoint).program

/-- Every load ends in one of the two ways, and fails only if the program does not load
or no pid is free. -/
theorem loadProgram_cases (P : Platform) (k : Kernel) (command : CStr) (f : Frame) :
    (∃ k', P.loadProgram k command f = some (.inl k') ∧ LoadFailed P k k' ∧
      (P.Loads command f → ∀ p, 1 ≤ p → p < 16 → k.pidUsage p ≠ 0)) ∨
    ∃ pid parse k', P.loadProgram k command f = some (.inr (pid, parse, k')) ∧
      LoadDone P k command f pid parse k' := by
  unfold loadProgram
  split
  · rename_i long
    refine .inl ⟨k, rfl, .early, ?_⟩
    rintro ⟨parse, dentry, parsed, -⟩
    simp [long] at parsed
  rename_i parse parsed
  split
  · rename_i missing
    refine .inl ⟨k, rfl, .early, ?_⟩
    rintro ⟨parse', dentry, parsed', found, -⟩
    cases parsed.symm.trans parsed'
    simp [missing] at found
  rename_i dentry found
  split_ifs with check
  · refine .inl ⟨k, rfl, .early, ?_⟩
    rintro ⟨parse', dentry', parsed', found', passed, -⟩
    cases parsed.symm.trans parsed'
    cases found.symm.trans found'
    simp [check] at passed
  split
  · rename_i full
    refine .inl ⟨k, rfl, .early, fun _ p pos lt free => ?_⟩
    have := Kernel.tasksPidNew_isSome pos lt free
    simp [full] at this
  rename_i pid k₁ taken
  obtain ⟨pos, lt, free, lowest, rfl⟩ := Kernel.tasksPidNew_eq_some taken
  have stored := Kernel.storeUser_program (P := P) pos lt
    { k with pidUsage := Function.update k.pidUsage pid 1 } parse.fname f.entryPoint
  have outside : ∀ pa, ¬ Paging.InImage pid pa → storeBytes k.frames
      ((pid + 1) * 2 ^ 22 + 0x48000) (P.fs.loader parse.fname f.entryPoint).program pa =
      k.frames pa := fun pa out => k.program_frames _ _ out
  have new : k.NewPid pid := ⟨pos, lt, free, lowest⟩
  simp only [stored, Option.bind_eq_bind, Option.bind_some]
  split_ifs with failed
  · refine .inl ⟨_, rfl, ?_, ?_⟩
    · -- freeing the pid restores the table it was taken from
      have restored : Function.update (Function.update k.pidUsage pid 1) pid 0 = k.pidUsage := by
        rw [Function.update_idem, ← free, Function.update_eq_self]
      have late := LoadFailed.late (P := P) new outside
      simp only [Kernel.withProgram, Kernel.tasksPidFree, restored] at late ⊢
      exact late
    · rintro ⟨parse', dentry', parsed', -, -, entry⟩
      cases parsed.symm.trans parsed'
      exact absurd failed entry
  · exact .inr ⟨pid, parse, _, rfl, ⟨⟨parse, dentry, parsed, found, by simpa using check, failed⟩,
      parsed, new, ⟨_, outside, rfl⟩, rfl⟩⟩

/-! ### Entering a program -/

/-- Everything assigned to the PCB of a new process, other than its arguments. -/
def newPcb (P : Platform) (pid parent term : Nat) : List (PcbField × Nat) :=
  pcbInitAssignments P.drivers ++
    [(.pid, pid), (.espReg, getPcb pid + 0x2000 - 4), (.term, term), (.parentPcb, parent)]

section Enter

variable {r pid parent t : Nat} {term : Kernel → Nat} {fargs : CStr}

/-- Kernel memory once a program was entered. -/
theorem enter_mem (termEq : term (k.withMem (pcbInit P.drivers k.mem (getPcb pid))) = t) :
    (P.enter k pid parent term fargs f).mem =
      set (set (setArgs (setAll k.mem (getPcb pid) (P.newPcb pid parent t)) (getPcb pid)
        (strcpyBytes fargs)) k.curr .ebpReg f.ebp) k.curr .espReg f.esp := by
  rw [newPcb, setAll_append, ← termEq, ← pcbInit]
  simp only [enter, Kernel.saveRegs, Kernel.setField, Kernel.setTss, Kernel.withMem, Kernel.curr]

/-- Every field of every PCB once a program was entered on `pid` while `r` was running. -/
theorem get_enter (termEq : term (k.withMem (pcbInit P.drivers k.mem (getPcb pid))) = t)
    (lt : pid < 16) (ltr : r < 16) (here : k.curr = getPcb r) {q : Nat} (ltq : q < 16)
    {g : PcbField} (fit : Unreached (strcpyBytes fargs) g) :
    get (P.enter k pid parent term fargs f).mem (getPcb q) g =
      if r = q ∧ .espReg = g then f.esp % 256 ^ 4
      else if r = q ∧ .ebpReg = g then f.ebp % 256 ^ 4
      else if pid = q then assigned (get k.mem (getPcb q) g) g (P.newPcb pid parent t)
      else get k.mem (getPcb q) g := by
  rw [enter_mem termEq, here, get_set ltr ltq, get_set ltr ltq, get_setArgs lt ltq fit]
  congr 2
  split_ifs with own
  · subst own
    exact get_setAll lt _
  · exact get_setAll_other lt ltq own _

/-- The argument bytes, wherever they end on the page. -/
theorem enter_args (lt : pid < 16) (ltr : r < 16) (here : k.curr = getPcb r)
    (short : (strcpyBytes fargs).length ≤ 0x1000) {i : Nat}
    (inside : i < (strcpyBytes fargs).length) :
    (P.enter k pid parent term fargs f).mem (getPcb pid + 146 + i) =
      (strcpyBytes fargs).getD i 0 := by
  have apart : ∀ g : PcbField, g.offset + g.size ≤ 146 →
      getPcb pid + 146 + i < getPcb r + g.offset ∨
        getPcb r + g.offset + g.size ≤ getPcb pid + 146 + i := by
    intro g low
    rw [getPcb_eq lt, getPcb_eq ltr]
    by_cases same : pid = r
    · subst same
      omega
    · omega
  have skip : ∀ (m : Mem) (g : PcbField) (v : Nat), g.offset + g.size ≤ 146 →
      set m (getPcb r) g v (getPcb pid + 146 + i) = m (getPcb pid + 146 + i) := by
    intro m g v low
    rcases apart g low with before | after
    · exact store_of_lt before
    · exact store_of_ge after
  rw [enter_mem rfl, here, skip _ _ _ (by decide), skip _ _ _ (by decide), setArgs]
  exact storeBytes_apply inside

/-- What a new PCB holds. -/
theorem assigned_newPcb_pid (old : Nat) (lt : pid < 16) :
    assigned old .pid (P.newPcb pid parent t) = pid := by
  have set : assigned old .pid (P.newPcb pid parent t) = pid % 256 ^ 2 := rfl
  rw [set, Nat.mod_eq_of_lt (by omega)]

theorem assigned_newPcb_espReg (old : Nat) (lt : pid < 16) :
    assigned old .espReg (P.newPcb pid parent t) = kernelStack pid := by
  have top : assigned old .espReg (P.newPcb pid parent t) =
      (getPcb pid + 0x2000 - 4) % 256 ^ 4 := rfl
  rw [top, getPcb_top lt, Nat.mod_eq_of_lt]
  unfold kernelStack
  omega

theorem assigned_newPcb_term (old : Nat) :
    assigned old .term (P.newPcb pid parent t) = t % 256 ^ 4 := rfl

theorem assigned_newPcb_parentPcb (old : Nat) :
    assigned old .parentPcb (P.newPcb pid parent t) = parent % 256 ^ 4 := rfl

theorem assigned_newPcb_flags (old : Nat) (fd : Fin 8) :
    assigned old (.flags fd) (P.newPcb pid parent t) = if fd.val < 2 then 1 else 0 := by
  fin_cases fd <;> rfl

/-- The fields that keep what the previous owner of the PCB left in them. -/
theorem assigned_newPcb_kept (old : Nat) {g : PcbField}
    (kept : g = .vidmap ∨ g = .rtc ∨ g = .rtcFd ∨ g = .rtcRate) :
    assigned old g (P.newPcb pid parent t) = old := by
  rcases kept with rfl | rfl | rfl | rfl <;> rfl

/-- Outside kernel memory, entering a program sets the stack registers only. -/
theorem enter_eq (parent : Nat) (f : Frame)
    (termEq : term (k.withMem (pcbInit P.drivers k.mem (getPcb pid))) = t)
    (lt : pid < 16) (fit : Unreached (strcpyBytes fargs) .espReg) :
    P.enter k pid parent term fargs f =
      { k with
        mem := (P.enter k pid parent term fargs f).mem
        tss := ⟨0x18, kernelStack pid⟩
        esp := kernelStack pid } := by
  have stack : get (setArgs (setAll (pcbInit P.drivers k.mem (getPcb pid)) (getPcb pid)
      [(.pid, pid), (.espReg, getPcb pid + 0x2000 - 4),
        (.term, term (k.withMem (pcbInit P.drivers k.mem (getPcb pid)))), (.parentPcb, parent)])
      (getPcb pid) (strcpyBytes fargs)) (getPcb pid) .espReg = kernelStack pid := by
    rw [termEq, get_setArgs lt lt fit, pcbInit, ← setAll_append, get_setAll lt]
    exact assigned_newPcb_espReg _ lt
  simp only [enter, Kernel.saveRegs, Kernel.setField, Kernel.setTss, Kernel.withMem] at stack ⊢
  simp only [stack]

end Enter

/-- The state after a program was started on `pid` while `r` was running, but for
`sched` and the terminals. Of the PCBs it describes the fields in `Known`, which the new
arguments do not reach. -/
structure Started (P : Platform) (Known : PcbField → Prop) (k : Kernel) (r pid parent term : Nat)
    (f : Frame) (k' : Kernel) : Prop where
  new : k.NewPid pid
  usage : k'.pidUsage = Function.update k.pidUsage pid 1
  cr3 : k'.cr3 = pid
  tss : k'.tss = ⟨0x18, kernelStack pid⟩
  curr : k'.curr = getPcb pid
  paging : k'.paging = k.paging.allocate P.pages pid
  frames : ∀ pa, ¬ Paging.InImage pid pa → k'.frames pa = k.frames pa
  shellActive : k'.shellActive = k.shellActive
  fields : ∀ q < 16, ∀ g, Known g → get k'.mem (getPcb q) g =
    if r = q ∧ .espReg = g then f.esp % 256 ^ 4
    else if r = q ∧ .ebpReg = g then f.ebp % 256 ^ 4
    else if pid = q then assigned (get k.mem (getPcb q) g) g (P.newPcb pid parent term)
    else get k.mem (getPcb q) g
  args : ∀ q < 16, q ≠ pid → SameArgs k.mem k'.mem q

section Start

variable {r : Nat} {outcome : Outcome} {Known : PcbField → Prop}

/-- From a loaded program to a started one; `ready` is the loaded state with `sched` and
the terminals brought up to date. -/
theorem LoadDone.started {pid t : Nat} {parse : Parse} {loaded : Kernel}
    (done : LoadDone P k command f pid parse loaded) (ready : Kernel) (parent : Nat)
    (term : Kernel → Nat)
    (readied : ready = { loaded with sched := ready.sched, terms := ready.terms })
    (termEq : term (ready.withMem (pcbInit P.drivers ready.mem (getPcb pid))) = t)
    (ltr : r < 16) (here : k.curr = getPcb r) (stack : Known .espReg)
    (fit : ∀ g, Known g → Unreached (strcpyBytes parse.fargs) g) :
    Started P Known k r pid parent t f (P.enter ready pid parent term parse.fargs f) := by
  obtain ⟨frames, outside, rfl⟩ := done.state
  have mem : ready.mem = k.mem := by rw [readied]; rfl
  have curr : ready.curr = k.curr := by rw [readied]; rfl
  have entered := enter_eq parent f termEq done.new.lt (fit _ stack)
  refine ⟨done.new, ?_, ?_, ?_, ?_, ?_, ?_, ?_, fun q ltq g known => ?_, fun q ltq other => ?_⟩
  · rw [entered, readied]
  · rw [entered, readied]; rfl
  · rw [entered]
  · rw [entered]; exact pcbProcess_kernelStack done.new.lt
  · rw [entered, readied]; rfl
  · intro pa out
    rw [entered, readied]
    exact outside pa out
  · rw [entered, readied]; rfl
  · rw [get_enter termEq done.new.lt ltr (curr.trans here) ltq (fit g known), mem]
  · rw [enter_mem termEq, curr.trans here, mem]
    exact (((SameArgs.setAll done.new.lt ltq _).trans
      (.setArgs done.new.lt ltq other (fit _ stack).1)).trans (.set ltr ltq _ _)).trans
      (.set ltr ltq _ _)

/-- What `syscall_execute` does: it fails and undoes the load, or starts a child in the
place of the caller. -/
theorem syscallExecute_cases (Known : PcbField → Prop) {command : Option CStr} (ltr : r < 16)
    (here : k.curr = getPcb r) (inUse : k.pidUsage r ≠ 0) (stack : Known .espReg)
    (fit : ∀ c parse, command = some c → parseCommand c f = some parse →
      ∀ g, Known g → Unreached (strcpyBytes parse.fargs) g)
    (exec : P.syscallExecute k command f = some (outcome, k')) :
    (outcome = .returned (-1) ∧ LoadFailed P k k') ∨
    ∃ pid, outcome = .entered pid ∧ Started P Known k r pid (getPcb r) (k.field .term) f k' ∧
      k'.sched = Function.update (Function.update k.sched pid 1) (k.field .pid) 0 ∧
      k'.terms = k.terms := by
  cases command with
  | none =>
      cases exec
      exact .inl ⟨rfl, .early⟩
  | some c =>
      simp only [syscallExecute] at exec
      rcases loadProgram_cases P k c f with
        ⟨failed, load, how, -⟩ | ⟨pid, parse, loaded, load, done⟩
      · rw [load] at exec
        cases exec
        exact .inl ⟨rfl, how⟩
      · rw [load] at exec
        cases exec
        have ne : pid ≠ r := fun same => inUse (same ▸ done.new.free)
        obtain ⟨frames, -, eq⟩ := done.state
        have mem : loaded.mem = k.mem := by rw [eq]; rfl
        have curr : loaded.curr = getPcb r := by rw [eq]; exact here
        have pidField : loaded.field .pid = k.field .pid := by rw [eq]; rfl
        refine .inr ⟨pid, rfl, ?_, ?_, ?_⟩
        · have started := done.started (t := k.field .term)
            ((loaded.scheduleTask pid).unscheduleTask (loaded.field .pid)) (getPcb r)
            (fun k => k.field .term) rfl ?_ ltr here stack (fit c parse rfl done.parsed)
          · have curr' : ((loaded.scheduleTask pid).unscheduleTask (loaded.field .pid)).curr =
                getPcb r := curr
            rw [curr']
            exact started
          · show get (pcbInit P.drivers loaded.mem (getPcb pid)) loaded.curr .term =
              get k.mem k.curr .term
            rw [curr, here, get_pcbInit_other done.new.lt ltr ne, mem]
        · show Function.update (Function.update loaded.sched pid 1) (loaded.field .pid) 0 = _
          rw [pidField, eq]
          rfl
        · show loaded.terms = k.terms
          rw [eq]
          rfl

/-- A call that entered a program has loaded it. -/
theorem syscallExecute_entered {c : CStr} {pid : Nat} {parse : Parse}
    (parsed : parseCommand c f = some parse)
    (exec : P.syscallExecute k (some c) f = some (.entered pid, k')) :
    ∃ loaded, LoadDone P k c f pid parse loaded ∧
      k' = P.enter ((loaded.scheduleTask pid).unscheduleTask (loaded.field .pid)) pid
        ((loaded.scheduleTask pid).unscheduleTask (loaded.field .pid)).curr
        (fun k => k.field .term) parse.fargs f := by
  simp only [syscallExecute] at exec
  rcases loadProgram_cases P k c f with ⟨failed, load, -, -⟩ | ⟨pid, parse', loaded, load, done⟩
  · rw [load] at exec
    cases exec
  · rw [load] at exec
    cases exec
    cases parsed.symm.trans done.parsed
    exact ⟨loaded, done, rfl⟩

/-- The program a started command finds in its frame. -/
theorem syscallExecute_program {c : CStr} {pid : Nat} {parse : Parse}
    (parsed : parseCommand c f = some parse)
    (exec : P.syscallExecute k (some c) f = some (.entered pid, k')) :
    k'.frames = storeBytes k.frames ((pid + 1) * 2 ^ 22 + 0x48000)
      (P.fs.loader parse.fname f.entryPoint).program := by
  obtain ⟨loaded, done, rfl⟩ := syscallExecute_entered parsed exec
  exact done.program

/-- The arguments a started command finds in its PCB. -/
theorem syscallExecute_args {c : CStr} {pid : Nat} {parse : Parse} (ltr : r < 16)
    (here : k.curr = getPcb r) (parsed : parseCommand c f = some parse)
    (short : (strcpyBytes parse.fargs).length ≤ 0x1000)
    (exec : P.syscallExecute k (some c) f = some (.entered pid, k')) {i : Nat}
    (inside : i < (strcpyBytes parse.fargs).length) :
    k'.mem (getPcb pid + 146 + i) = (strcpyBytes parse.fargs).getD i 0 := by
  obtain ⟨loaded, done, rfl⟩ := syscallExecute_entered parsed exec
  obtain ⟨frames, -, eq⟩ := done.state
  have curr : ((loaded.scheduleTask pid).unscheduleTask (loaded.field .pid)).curr = getPcb r := by
    rw [eq]
    exact here
  exact enter_args done.new.lt ltr curr short inside

/-- What `syscall_init_shell` does: it fails and undoes the load, or starts a shell
beside the running process. -/
theorem syscallInitShell_cases (Known : PcbField → Prop) {termNum : Nat} (ltr : r < 16)
    (here : k.curr = getPcb r) (stack : Known .espReg)
    (fit : ∀ parse, parseCommand shellCommand f = some parse →
      ∀ g, Known g → Unreached (strcpyBytes parse.fargs) g)
    (init : P.syscallInitShell k termNum f = some (outcome, k')) :
    (outcome = .returned (-1) ∧ LoadFailed P k k' ∧
      (P.Loads shellCommand f → ∀ p, 1 ≤ p → p < 16 → k.pidUsage p ≠ 0)) ∨
    ∃ pid t, outcome = .entered pid ∧ Kernel.terminal termNum = some t ∧
      P.Loads shellCommand f ∧ Started P Known k r pid 0 termNum f k' ∧
      k'.sched = Function.update k.sched pid 1 ∧ k'.terms = k.terms.terminalOpen t := by
  simp only [syscallInitShell] at init
  rcases loadProgram_cases P k shellCommand f with
    ⟨failed, load, how, why⟩ | ⟨pid, parse, loaded, load, done⟩
  · rw [load] at init
    cases init
    exact .inl ⟨rfl, how, why⟩
  · simp only [load, Option.bind_eq_bind, Option.bind_some] at init
    cases opened : Kernel.terminal termNum with
    | none =>
        rw [opened] at init
        cases init
    | some t =>
        rw [opened] at init
        cases init
        obtain ⟨frames, -, eq⟩ := done.state
        refine .inr ⟨pid, t, rfl, rfl, done.loads, ?_, ?_, ?_⟩
        · exact done.started
            ({ loaded with terms := loaded.terms.terminalOpen t }.scheduleTask pid) 0
            (fun _ => termNum) rfl rfl ltr here stack (fit parse done.parsed)
        · show Function.update loaded.sched pid 1 = _
          rw [eq]
          rfl
        · show loaded.terms.terminalOpen t = _
          rw [eq]
          rfl

end Start

/-! ### Ending a program -/

/-- With no file open there is nothing to close. -/
theorem closeAll_of_closed {u : Fin 8 → Unspecified}
    (closed : ∀ fd : Fin 8, 2 ≤ fd.val → k.field (.flags fd) = 0) : P.closeAll k u = some k := by
  unfold closeAll
  induction List.finRange 8 with
  | nil => rfl
  | cons fd rest ih =>
      rw [List.foldlM_cons, if_neg fun open_ => open_.2 (closed fd open_.1)]
      exact ih

/-- The state after a child of `q` halted and its files were closed. -/
structure Resumed (k : Kernel) (r q : Nat) (k' : Kernel) : Prop where
  usage : k'.pidUsage = Function.update k.pidUsage r 0
  sched : k'.sched = Function.update (Function.update k.sched q 1) r 0
  cr3 : k'.cr3 = q
  tss : k'.tss = ⟨0x18, kernelStack q⟩
  esp : k'.esp = get k.mem (getPcb q) .espReg
  ebp : k'.ebp = get k.mem (getPcb q) .ebpReg
  paging : k'.paging = k.paging
  frames : k'.frames = k.frames
  terms : k'.terms = k.terms
  shellActive : k'.shellActive = k.shellActive
  fields : ∀ p < 16, ∀ g, get k'.mem (getPcb p) g =
    if q = p ∧ .child = g then 0 else get k.mem (getPcb p) g
  args : ∀ p < 16, SameArgs k.mem k'.mem p

theorem Resumed.curr {r q : Nat} (h : Resumed k r q k') :
    k'.curr = pcbProcess (get k.mem (getPcb q) .espReg) :=
  congrArg pcbProcess h.esp

/-- Control goes back to the parent `q`. -/
theorem resumeParent_resumed {r q : Nat} (ltr : r < 16) (ltq : q < 16) (here : k.curr = getPcb r)
    (pid : get k.mem (getPcb r) .pid = r) (parentPid : get k.mem (getPcb q) .pid = q) :
    ∃ k', resumeParent k (getPcb q) = (.resumed 0, k') ∧ Resumed k r q k' := by
  have cleared : ∀ p < 16, ∀ g, get (set k.mem (getPcb q) .child 0) (getPcb p) g =
      if q = p ∧ .child = g then 0 else get k.mem (getPcb p) g := by
    intro p ltp g
    rw [get_set ltq ltp, Nat.zero_mod]
  have pid' : get (set k.mem (getPcb q) .child 0) (getPcb r) .pid = r := by
    rw [cleared r ltr, if_neg (by simp), pid]
  have parentPid' : get (set k.mem (getPcb q) .child 0) (getPcb q) .pid = q := by
    rw [cleared q ltq, if_neg (by simp), parentPid]
  have espReg : get (set k.mem (getPcb q) .child 0) (getPcb q) .espReg =
      get k.mem (getPcb q) .espReg := by
    rw [cleared q ltq, if_neg (by simp)]
  have ebpReg : get (set k.mem (getPcb q) .child 0) (getPcb q) .ebpReg =
      get k.mem (getPcb q) .ebpReg := by
    rw [cleared q ltq, if_neg (by simp)]
  have here' : pcbProcess k.esp = getPcb r := here
  simp only [resumeParent, Kernel.withMem, Kernel.tasksPidFree, Kernel.scheduleTask,
    Kernel.unscheduleTask, Kernel.field, Kernel.curr, here', pid', parentPid',
    Nat.not_le.mpr ltq, if_false, Kernel.pagingUpdateControl, ltq, if_true, Kernel.setTss,
    Kernel.loadRegs]
  exact ⟨_, rfl, ⟨rfl, rfl, rfl, rfl, espReg, ebpReg, rfl, rfl, rfl, rfl, cleared,
    fun p ltp => .set ltq ltp _ _⟩⟩

/-- The halt of a process without open files whose parent is `q`. -/
theorem syscallHalt_resumed {r q : Nat} {status : UInt8} {u : Fin 8 → Unspecified}
    {outcome : Outcome} (ltr : r < 16) (ltq : q < 16) (here : k.curr = getPcb r)
    (pid : get k.mem (getPcb r) .pid = r) (parent : k.field .parentPcb = getPcb q)
    (parentPid : get k.mem (getPcb q) .pid = q)
    (closed : ∀ fd : Fin 8, 2 ≤ fd.val → k.field (.flags fd) = 0)
    (halt : P.syscallHalt k status u f = some (outcome, k')) :
    outcome = .resumed 0 ∧ Resumed k r q k' := by
  obtain ⟨k₁, eq, resumed⟩ := resumeParent_resumed ltr ltq here pid parentPid
  simp only [syscallHalt, parent, getPcb_ne_zero ltq, if_false, closeAll_of_closed closed,
    Option.map_some, eq] at halt
  cases halt
  exact ⟨rfl, resumed⟩

/-! ### The tick -/

/-- The state after the tick switched from `r` to `q`. -/
structure Switched (k : Kernel) (r q : Nat) (f : Frame) (k' : Kernel) : Prop where
  usage : k'.pidUsage = k.pidUsage
  sched : k'.sched = k.sched
  cr3 : k'.cr3 = q
  tss : k'.tss = ⟨0x18, kernelStack q⟩
  curr : k'.curr = pcbProcess (get k'.mem (getPcb q) .espReg)
  paging : k'.paging = k.paging ∨ ∃ addr, k'.paging = k.paging.updateVideo q addr
  frames : k'.frames = k.frames
  terms : k'.terms = k.terms
  shellActive : k'.shellActive = k.shellActive
  fields : ∀ p < 16, ∀ g, get k'.mem (getPcb p) g =
    if r = p ∧ .espReg = g then f.esp % 256 ^ 4
    else if r = p ∧ .ebpReg = g then f.ebp % 256 ^ 4
    else get k.mem (getPcb p) g
  args : ∀ p < 16, SameArgs k.mem k'.mem p

/-- The tick with a process to switch to. -/
theorem schedulerTick_switched {r q : Nat} (ltr : r < 16) (ltq : q < 16)
    (here : k.curr = getPcb r) (next : Kernel.nextPid k.sched (k.field .pid) = some q)
    (nextPid : get k.mem (getPcb q) .pid = q) :
    Switched k r q f (k.schedulerTick P f.esp f.ebp) := by
  obtain ⟨m, regs, stored⟩ : ∃ m, k.saveRegs f.esp f.ebp = k.withMem m ∧
      m = set (set k.mem (getPcb r) .ebpReg f.ebp) (getPcb r) .espReg f.esp :=
    ⟨_, rfl, by rw [← here]; rfl⟩
  have saved : ∀ p < 16, ∀ g, get m (getPcb p) g =
      if r = p ∧ .espReg = g then f.esp % 256 ^ 4
      else if r = p ∧ .ebpReg = g then f.ebp % 256 ^ 4
      else get k.mem (getPcb p) g := by
    intro p ltp g
    rw [stored, get_set ltr ltp, get_set ltr ltp]
    rfl
  have args : ∀ p < 16, SameArgs k.mem m p := by
    intro p ltp
    rw [stored]
    exact (SameArgs.set ltr ltp _ _).trans (.set ltr ltp _ _)
  have nextPid' : get ((k.withMem m).setTss (kernelStack q)).mem (getPcb q) .pid = q := by
    refine (saved q ltq .pid).trans ?_
    rw [if_neg (by simp), if_neg (by simp)]
    exact nextPid
  -- from here on only what is in `m` matters
  clear stored
  simp only [Kernel.schedulerTick, next, regs, Kernel.pagingUpdateControl, ltq, if_true, nextPid']
  split
  · generalize Kernel.screenOf P _ _ = addr
    exact ⟨rfl, rfl, rfl, rfl, rfl, .inr ⟨addr, rfl⟩, rfl, rfl, rfl, saved, args⟩
  · exact ⟨rfl, rfl, rfl, rfl, rfl, .inl rfl, rfl, rfl, rfl, saved, args⟩

end Platform

end Linux391
