import Linux391.Drivers.ReadBounds
import Linux391.Kernel.DirectoryRead
import Linux391.Kernel.Meanwhile
import Linux391.Library.Interaction
import Linux391.Syscalls.Grep

/-!
User programs and the kernel they run on.

A program of `syscalls/` is a `Prog`: it makes system calls and computes with their replies. The
host of process `p` is the kernel with everything else in it: a call of the program is the kernel's
call, with any values where the source leaves one unspecified, and before each call there is a run
of the rest of the system (`Meanwhile`).

A program can see its own part of the kernel only, its `View`: the descriptors, the terminal, the
arguments, and what it has written to standard output. `Holds` relates it to the state of the
kernel. The rest of the system leaves it as it is (`Holds.between`), and each call has one rule here
that says what the caller sees of it. The programs are verified with these rules and nothing else.
-/

namespace Linux391.User

open Memory Platform Interaction

/-! ### Calls -/

/-- The system calls on files, with what the caller passes. -/
inductive SysCall where
  | getargs (nbytes : Int)
  | openFile (filename : CStr)
  | read (fd nbytes : Int)
  | write (fd : Int) (buf : CStr) (nbytes : Int)

/-- What a call returns, and what it stores from the start of the caller's buffer on. -/
structure Reply where
  value : Int
  stored : List UInt8

/-- The kernel, and what the program has written to descriptor 1. -/
structure Session where
  kernel : Kernel
  out : List UInt8

/-- A call, with the unspecified values it uses. -/
def answer (P : Platform) (u : Unspecified) (s : Session) : SysCall → Option (Reply × Session)
  | .getargs nbytes =>
      let result := s.kernel.syscallGetargs false nbytes
      some (⟨result.1, result.2⟩, s)
  | .openFile filename => do
      let (value, kernel) ← P.syscallOpen s.kernel (some filename) u
      return (⟨value, []⟩, { s with kernel })
  | .read fd nbytes => do
      let io ← P.syscallRead s.kernel fd false nbytes
      return (⟨io.value, io.stored⟩, { s with kernel := io.kernel })
  | .write fd buf nbytes => do
      let (value, kernel) ← P.syscallWrite s.kernel fd (some buf) nbytes
      let text := (List.range value.toNat).map buf
      return (⟨value, []⟩, ⟨kernel, if fd = 1 then s.out ++ text else s.out⟩)

/-- The system around process `p`. -/
def host (P : Platform) (p : Nat) : Host SysCall Reply Session where
  between s s' := Meanwhile P p s.kernel s'.kernel ∧ s'.kernel.running = p ∧ s'.out = s.out
  answers s c outcome := ∃ u : Unspecified, u.Harmless ∧ outcome = answer P u s c

abbrev Program := Prog SysCall Reply

def ece391Open (filename : CStr) : Program Int := do
  let reply ← .perform (.openFile filename)
  return reply.value

def ece391Read (fd nbytes : Int) : Program Reply := .perform (.read fd nbytes)

def ece391Write (fd : Int) (buf : CStr) (nbytes : Int) : Program Int := do
  let reply ← .perform (.write fd buf nbytes)
  return reply.value

/-- `ece391_fdputs`: the length is passed as a signed number. -/
def ece391Fdputs (fd : Int) (s : CStr) : Program Unit := do
  let _ ← ece391Write fd s (int32 (strlen s))

/-- A string of a program's own. -/
def text (s : String) : CStr := cLit (Grep.ascii s)

/-! ### What a program sees -/

structure View where
  elements : Fin 8 → Element
  term : Nat
  /-- The array `args[100]`. -/
  args : CStr
  out : List UInt8

/-- Process `p` is running, and sees `v`. -/
structure Holds (P : Platform) (p : Nat) (v : View) (s : Session) : Prop where
  reachable : Reachable P s.kernel
  running : s.kernel.running = p
  live : Live s.kernel p
  elements : s.kernel.elements = v.elements
  term : s.kernel.field .term = v.term
  args : ∀ i < 100, pcbArgs s.kernel.mem (getPcb p) i = v.args i
  out : s.out = v.out

variable {P : Platform} {p : Nat} {v : View} {s s' : Session} {k k' : Kernel}

theorem curr_of_running (reachable : Reachable P k) (running : k.running = p) :
    k.curr = getPcb p := by
  obtain ⟨G, r, h, on⟩ := reachable.sound
  rw [Kernel.running_eq (h.range r on.mem).2 on.curr] at running
  rw [on.curr, running]

theorem Holds.here (holds : Holds P p v s) : s.kernel.curr = getPcb p :=
  curr_of_running holds.reachable holds.running

theorem elements_congr (here : k.curr = getPcb p) (here' : k'.curr = getPcb p)
    (same : SameFields p k.mem k'.mem) : k'.elements = k.elements := by
  funext fd
  simp only [Kernel.elements, Kernel.field, here, here']
  congr 1 <;> exact same _ (by simp [PcbField.Private])

/-- The rest of the system leaves a process what it sees. -/
theorem Holds.between (holds : Holds P p v s) (between : (host P p).between s s') :
    Holds P p v s' := by
  obtain ⟨run, running, out⟩ := between
  obtain ⟨reachable, live, args, fields⟩ := run.undisturbed holds.reachable holds.live
  have here := curr_of_running reachable running
  refine ⟨reachable, running, live, ?_, ?_, ?_, out.trans holds.out⟩
  · exact (elements_congr holds.here here fields).trans holds.elements
  · rw [← holds.term, Kernel.field, Kernel.field, here, holds.here]
    exact fields .term (by simp [PcbField.Private])
  · exact fun i inside => (args i inside).trans (holds.args i inside)

/-! ### Calls in general -/

/-- The calls write the number of the terminal in no PCB. -/
theorem term_of_steps {r : Nat} (here : k.curr = getPcb r) (ltr : r < 16) (lt : p < 16)
    (steps : FileSteps (fun g => g.OfFiles ∨ g = .rtcRate) Unspecified.Harmless k k') :
    get k'.mem (getPcb p) .term = get k.mem (getPcb p) .term := by
  induction steps with
  | refl => rfl
  | @tail k₁ k₂ before step ih =>
      have curr :=
        (SameIdentity.of_steps here ltr (fun _ => not_identity) (fun _ => id) before).curr
      rw [← ih]
      cases step with
      | rtcRegA a => rfl
      | terms s => rfl
      | assign assignments allowed =>
          rw [curr, here]
          by_cases same : r = p
          · subst same
            refine (get_setAll lt assignments).trans (assigned_of_ne fun a mem eq => ?_)
            have forbidden := allowed a mem
            rw [eq] at forbidden
            simp [PcbField.OfFiles] at forbidden
          · exact get_setAll_other ltr lt same assignments
      | fileClose fd used => exact used.get_close lt (by simp)
      | terminalClose used => exact used.get_terminalClose lt _

/-- A call of the process changes its descriptors at most, and the bytes it has written. -/
theorem Holds.called (holds : Holds P p v s) {c : FdCall} (harmless : c.Harmless) {value : Int}
    (called : P.fdCall s.kernel c = some (value, k')) (out : List UInt8) :
    Holds P p { v with elements := k'.elements, out } ⟨k', out⟩ := by
  have lt := holds.live.lt
  have steps : FileSteps (fun g => g.OfFiles ∨ g = .rtcRate) Unspecified.Harmless s.kernel k' := by
    refine FileSteps.fdCall (fun _ => .inl) (.inr rfl) ?_ called
    rintro fd u rfl
    exact harmless
  have same := SameIdentity.fdCall holds.here lt harmless called
  have inUse : s.kernel.pidUsage s.kernel.running ≠ 0 := holds.running ▸ holds.live.inUse
  have here : k'.curr = getPcb p := same.curr.trans holds.here
  refine ⟨?_, Kernel.running_eq lt here, ⟨holds.live.pos, lt, same.usage ▸ holds.live.inUse⟩, rfl,
    ?_, ?_, rfl⟩
  · exact holds.reachable.step (e := .call c) ⟨inUse, harmless⟩
      (by rw [Platform.step, called]; rfl)
  · rw [← holds.term, Kernel.field, Kernel.field, here, holds.here]
    exact term_of_steps holds.here lt lt steps
  · exact fun i inside => (same.args p lt i inside).trans (holds.args i inside)

/-- The rule for a call: it is answered in every state that looks the same to the program. -/
theorem Holds.perform (holds : Holds P p v s) {c : SysCall} {post : Reply → Session → Prop}
    (answered : ∀ s' u, Holds P p v s' → Unspecified.Harmless u →
      ∃ reply s'', answer P u s' c = some (reply, s'') ∧ post reply s'') :
    Ensures (host P p) post (.perform c) s := by
  refine ensures_perform.mpr fun s' between => ?_
  have holds' := holds.between between
  refine ⟨⟨_, .sample, harmless_sample, rfl⟩, ?_⟩
  rintro outcome ⟨u, harmless, rfl⟩
  exact answered s' u holds' harmless

/-! ### The rules of the calls -/

/-- Standard output is open on a terminal that exists. -/
structure View.Prints (P : Platform) (v : View) : Prop where
  isOpen : (v.elements 1).flags ≠ 0
  driver : P.drivers.driverAt (v.elements 1).fileOperationJmpTbl = some .terminal
  term : v.term < 4

/-- The view after something was printed. -/
def View.print (v : View) (text : List UInt8) : View := { v with out := v.out ++ text }

theorem View.Prints.print (prints : v.Prints P) (text : List UInt8) : (v.print text).Prints P :=
  ⟨prints.isOpen, prints.driver, prints.term⟩

/-- The terminal driver behind descriptor 1 takes all that is written. -/
theorem driverWrite_terminal {k : Kernel} (driver : P.driver k 1 = some .terminal)
    (term : k.field .term < 4) (buf : CStr) (n : Nat) :
    ∃ terms, P.driverWrite k 1 buf n = some ((n : Int), { k with terms }) := by
  have exists_ : Kernel.terminal (k.field .term) = some ⟨k.field .term, term⟩ := dif_pos term
  refine ⟨k.terms.terminalWrite ⟨k.field .term, term⟩ ((List.range n).map buf), ?_⟩
  simp only [driverWrite, driver, exists_, Option.bind_eq_bind, Option.bind_some, Int.toNat_natCast,
    List.length_map, List.length_range]
  rfl

theorem syscallWrite_stdout (holds : Holds P p v s) (prints : v.Prints P) {n : Nat} (pos : 0 < n)
    (buf : CStr) :
    ∃ k', P.syscallWrite s.kernel 1 (some buf) n = some ((n : Int), k') ∧
      k'.elements = v.elements := by
  have lt := holds.live.lt
  have one : descriptor 1 = some 1 := descriptor_val 1
  have flags : s.kernel.field (.flags 1) ≠ 0 := by
    have open_ := prints.isOpen
    rw [← holds.elements] at open_
    exact open_
  have driver : P.drivers.driverAt (s.kernel.field (.fileOperationJmpTbl 1)) = some .terminal := by
    have driver := prints.driver
    rw [← holds.elements] at driver
    exact driver
  have term : s.kernel.field .term < 4 := holds.term ▸ prints.term
  have nonzero : ¬ ((n : Int) = 0 ∨ (1 : Fin 8).val = 0 ∨ s.kernel.field (.flags 1) = 0) := by
    simp only [flags, or_false, not_or]
    exact ⟨by omega, by decide⟩
  simp only [syscallWrite, one, if_neg nonzero]
  split_ifs with clock
  · -- the rate of the clock is recorded first
    have elements := elements_setScalar holds.here lt (load buf 0 4) (.inr rfl)
    have driver' : P.driver (s.kernel.setField .rtcRate (load buf 0 4)) 1 = some .terminal := by
      rw [Platform.driver, Kernel.field_setField holds.here lt, if_neg (by simp)]
      exact driver
    have term' : (s.kernel.setField .rtcRate (load buf 0 4)).field .term < 4 := by
      rw [Kernel.field_setField holds.here lt, if_neg (by simp)]
      exact term
    obtain ⟨terms, written⟩ := driverWrite_terminal driver' term' buf n
    exact ⟨_, written, elements.trans holds.elements⟩
  · obtain ⟨terms, written⟩ := driverWrite_terminal driver term buf n
    exact ⟨_, written, holds.elements⟩

theorem ensures_write (holds : Holds P p v s) (prints : v.Prints P) {n : Nat} (pos : 0 < n)
    (buf : CStr) :
    Ensures (host P p) (fun value s' => value = (n : Int) ∧
      Holds P p (v.print ((List.range n).map buf)) s') (ece391Write 1 buf n) s := by
  rw [ece391Write, ensures_bind]
  refine holds.perform fun s' u holds' _ => ?_
  obtain ⟨k', written, elements⟩ := syscallWrite_stdout holds' prints pos buf
  have after := holds'.called (c := .write 1 (some buf) n) trivial written
    (s'.out ++ (List.range n).map buf)
  rw [elements, holds'.out] at after
  refine ⟨⟨n, []⟩, ⟨k', v.out ++ (List.range n).map buf⟩, ?_, rfl, after⟩
  simp [answer, written, holds'.out]

/-- A directory open on a descriptor, with `count` entries read. -/
def dirElement (P : Platform) (count : Nat) : Element := ⟨P.drivers.addr .dir, 0, count, 1⟩

/-- The view with another entry. -/
def View.withElement (v : View) (fd : Fin 8) (e : Element) : View :=
  { v with elements := Function.update v.elements fd e }

theorem View.Prints.withElement (prints : v.Prints P) {fd : Fin 8} (ge : 2 ≤ fd.val) (e : Element) :
    (v.withElement fd e).Prints P := by
  have other : (v.withElement fd e).elements 1 = v.elements 1 := by
    refine Function.update_of_ne ?_ _ _
    rintro rfl
    exact absurd ge (by decide)
  exact ⟨other ▸ prints.isOpen, other ▸ prints.driver, prints.term⟩

/-- A read through an entry with driver `d` goes to that driver. -/
theorem Holds.syscallRead (holds : Holds P p v s) {fd : Fin 8} (ge : 2 ≤ fd.val) {d : Driver}
    (table : (v.elements fd).fileOperationJmpTbl = P.drivers.addr d)
    (isOpen : (v.elements fd).flags ≠ 0) {n : Int} (asked : n ≠ 0) :
    P.syscallRead s.kernel fd.val false n = P.driverRead s.kernel fd n ∧
      P.driver s.kernel fd = some d := by
  rw [← holds.elements] at table isOpen
  have accepted : ¬ (fd.val = 1 ∨ s.kernel.field (.flags fd) = 0 ∨ false = true) := by
    rintro (one | closed | null)
    · omega
    · exact isOpen closed
    · cases null
  constructor
  · simp only [Platform.syscallRead, if_neg asked, descriptor_val, if_neg accepted]
  · exact (congrArg P.drivers.driverAt table).trans (P.drivers.driverAt_addr d)

/-- A read that moves the position of its entry, or leaves everything as it is. -/
theorem Holds.answerRead (holds : Holds P p v s) (u : Unspecified) (v' : View) {fd n : Int}
    {io : Io} (called : P.syscallRead s.kernel fd false n = some io)
    (after : v' = { v with elements := io.kernel.elements }) :
    ∃ s', answer P u s (.read fd n) = some (⟨io.value, io.stored⟩, s') ∧ Holds P p v' s' := by
  have fdCalled : P.fdCall s.kernel (.read fd false n) = some (io.value, io.kernel) := by
    rw [fdCall, called, Option.map_some]
  have held := holds.called (c := .read fd false n) trivial fdCalled s.out
  refine ⟨⟨io.kernel, s.out⟩, by rw [answer, called]; rfl, ?_⟩
  rw [after]
  exact holds.out ▸ held

/-- The next name of a directory, or nothing behind the last. -/
theorem ensures_read_dir (holds : Holds P p v s) (listed : P.fs.ListedDirectory) {fd : Fin 8}
    {count : Nat} (ge : 2 ≤ fd.val) (element : v.elements fd = dirElement P count) {n : Nat}
    (pos : 0 < n) :
    Ensures (host P p) (fun reply s' =>
      if count < P.fs.dirEntryNum then
        reply = ⟨strlen (P.fs.dentry count).filename, strcpyBytes (P.fs.dentry count).filename⟩ ∧
          Holds P p (v.withElement fd (dirElement P (count + 1))) s'
      else reply = ⟨0, []⟩ ∧ Holds P p v s') (ece391Read fd.val n) s := by
  refine holds.perform fun s' u holds' _ => ?_
  have lt := holds'.live.lt
  have entry : s'.kernel.elements fd = dirElement P count := by rw [holds'.elements, element]
  have position : s'.kernel.field (.filePosition fd) = count := congrArg Element.filePosition entry
  have called : P.syscallRead s'.kernel fd.val false n = some (P.dirRead s'.kernel fd) := by
    obtain ⟨read, driver⟩ := holds'.syscallRead (n := n) (d := .dir) ge (by rw [element]; rfl)
      (by rw [element]; exact Nat.one_ne_zero) (by omega)
    rw [read, driverRead, driver]
  have small := listed.count_le
  split_ifs with more
  · have next : P.dirRead s'.kernel fd = ⟨strlen (P.fs.dentry count).filename,
        strcpyBytes (P.fs.dentry count).filename,
        s'.kernel.setField (.filePosition fd) (count + 1)⟩ := by
      simp only [dirRead, position, Fs.readDentryByIndex, if_pos more]
    rw [next] at called
    obtain ⟨s'', answered, held⟩ := holds'.answerRead u
      (v.withElement fd (dirElement P (count + 1))) called (by
        rw [elements_setPosition holds'.here lt, holds'.elements, element,
          Nat.mod_eq_of_lt (by omega)]
        rfl)
    exact ⟨_, s'', answered, rfl, held⟩
  · have last : P.dirRead s'.kernel fd = ⟨0, [], s'.kernel⟩ := by
      simp only [dirRead, position, Fs.readDentryByIndex, if_neg more]
    rw [last] at called
    obtain ⟨s'', answered, held⟩ := holds'.answerRead u v called (by
      rw [holds'.elements])
    exact ⟨_, s'', answered, rfl, held⟩

/-! ### Opening -/

/-- What a caller may rely on after an open: the new entry is `e`, on a descriptor that was closed,
and what was open is as before. The open of a regular file may have taken a second entry. -/
structure Opened (v v' : View) (fd : Fin 8) (e : Element) : Prop where
  ge : 2 ≤ fd.val
  closed : (v.elements fd).flags = 0
  new : v'.elements fd = e
  others : ∀ j, (v.elements j).flags ≠ 0 → v'.elements j = v.elements j
  term : v'.term = v.term
  args : v'.args = v.args
  out : v'.out = v.out

theorem Opened.prints {v' : View} {fd : Fin 8} {e : Element} (opened : Opened v v' fd e)
    (prints : v.Prints P) : v'.Prints P := by
  have stdout := opened.others 1 prints.isOpen
  exact ⟨stdout ▸ prints.isOpen, stdout ▸ prints.driver, opened.term ▸ prints.term⟩

theorem firstClosed_of_closed {j : Fin 8} (ge : 2 ≤ j.val)
    (closed : (k.elements j).flags = 0) : ∃ fd, firstClosed k.mem k.curr = some fd := by
  apply Option.ne_none_iff_exists'.mp
  intro none
  have all := List.find?_eq_none.mp none j (List.mem_finRange j)
  have flags : get k.mem k.curr (.flags j) = 0 := closed
  simp [ge, flags] at all

/-- The open routine of a new entry may take a second one, and changes none that is open. -/
theorem driverOpen_keeps {k₁ : Kernel} (here : k₁.curr = getPcb p) (lt : p < 16) {fd : Fin 8}
    {d : Driver} (driver : P.driver k₁ fd = some d) (ne : d ≠ .terminal) (u : Unspecified) :
    ∃ k₂, P.driverOpen k₁ fd u = some k₂ ∧
      ∀ j, (k₁.elements j).flags ≠ 0 → k₂.elements j = k₁.elements j := by
  cases d with
  | rtc =>
      refine ⟨{ k₁ with rtcRegA := rtcOpen k₁.rtcRegA }, ?_, fun j _ => rfl⟩
      simp only [driverOpen, driver]
  | dir => exact ⟨k₁, by simp only [driverOpen, driver], fun j _ => rfl⟩
  | file =>
      simp only [driverOpen, driver]
      cases second : P.fileOpen k₁ u.openName u.fileOpTbl' with
      | none => exact ⟨k₁, rfl, fun j _ => rfl⟩
      | some result =>
          obtain ⟨i, k₂⟩ := result
          obtain ⟨dentry, -, first, -, eq⟩ := elements_fileOpen here lt second
          refine ⟨k₂, rfl, fun j isOpen => ?_⟩
          rw [eq, Function.update_of_ne]
          rintro rfl
          exact isOpen (firstClosed_spec first).2
  | terminal => exact absurd rfl ne

theorem ensures_open (holds : Holds P p v s) {filename : CStr} {dentry : Dentry}
    (found : P.fs.readDentryByName filename = some dentry) {e : Element} {d : Driver}
    (new : ∀ fileOpTbl, P.newElement dentry fileOpTbl = e)
    (driver : P.drivers.driverAt e.fileOperationJmpTbl = some d) (ne : d ≠ .terminal)
    (isOpen : e.flags ≠ 0) (room : ∃ j : Fin 8, 2 ≤ j.val ∧ (v.elements j).flags = 0) :
    Ensures (host P p) (fun value s' => ∃ (fd : Fin 8) (v' : View), value = (fd.val : Int) ∧
      Opened v v' fd e ∧ Holds P p v' s') (ece391Open filename) s := by
  rw [ece391Open, ensures_bind]
  refine holds.perform fun s' u holds' _ => ?_
  have lt := holds'.live.lt
  obtain ⟨j, ge, free⟩ := room
  rw [← holds'.elements] at free
  obtain ⟨fd, first⟩ := firstClosed_of_closed ge free
  obtain ⟨ge, closed⟩ := firstClosed_spec first
  obtain ⟨⟨fd', k₁⟩, opened⟩ :
      ∃ result, P.fileOpen s'.kernel filename u.fileOpTbl = some result := by
    simp only [fileOpen, found, pcbOpen, first, Option.map_some]
    exact ⟨_, rfl⟩
  obtain ⟨dentry', found', first', curr, elements⟩ := elements_fileOpen holds'.here lt opened
  obtain rfl : dentry = dentry' := Option.some.inj (found.symm.trans found')
  obtain rfl : fd = fd' := Option.some.inj (first.symm.trans first')
  have here₁ : k₁.curr = getPcb p := curr.trans holds'.here
  rw [new, holds'.elements] at elements
  -- the number of the descriptor may be recorded as the clock's
  obtain ⟨k₂, recorded, here₂, elements₂⟩ : ∃ k₂,
      k₂ = (if strncmp (cLit [114, 116, 99]) filename 3 ≠ -1 then k₁.setField .rtcFd fd else k₁) ∧
        k₂.curr = getPcb p ∧ k₂.elements = k₁.elements := by
    refine ⟨_, rfl, ?_⟩
    split_ifs
    · exact ⟨here₁, elements_setScalar here₁ lt _ (.inl rfl)⟩
    · exact ⟨here₁, rfl⟩
  have entry : k₂.elements fd = e := by rw [elements₂, elements, Function.update_self]
  have table : P.driver k₂ fd = some d := by rw [← driver, ← entry]; rfl
  obtain ⟨k₃, dispatched, kept⟩ := driverOpen_keeps here₂ lt table ne u
  have called : P.syscallOpen s'.kernel (some filename) u = some ((fd.val : Int), k₃) := by
    simp only [syscallOpen, opened, ← recorded, dispatched, Option.map_some]
  refine ⟨⟨fd.val, []⟩, ⟨k₃, s'.out⟩, ?_, fd, _, rfl, ?_,
    holds'.called (c := .openFile (some filename) u) trivial called s'.out⟩
  · rw [answer, called]
    rfl
  · have newest : k₃.elements fd = e := by
      rw [kept fd (entry ▸ isOpen), entry]
    have wasClosed : (v.elements fd).flags = 0 := by
      rw [← holds'.elements]
      exact closed
    refine ⟨ge, wasClosed, newest, fun j still => ?_, rfl, rfl, holds'.out⟩
    have other : j ≠ fd := by
      rintro rfl
      exact still wasClosed
    have before : k₂.elements j = v.elements j := by
      rw [elements₂, elements, Function.update_of_ne other]
    exact (kept j (before ▸ still)).trans before

theorem ensures_open_dir (holds : Holds P p v s) {filename : CStr} {dentry : Dentry}
    (found : P.fs.readDentryByName filename = some dentry)
    (directory : dentry.filetype = directoryType)
    (room : ∃ j : Fin 8, 2 ≤ j.val ∧ (v.elements j).flags = 0) :
    Ensures (host P p) (fun value s' => ∃ (fd : Fin 8) (v' : View), value = (fd.val : Int) ∧
      Opened v v' fd (dirElement P 0) ∧ Holds P p v' s') (ece391Open filename) s := by
  have other : dentry.filetype ≠ fileType := by
    rw [directory]
    decide
  refine ensures_open holds found (fun fileOpTbl => ?_) (P.drivers.driverAt_addr .dir) (by decide)
    Nat.one_ne_zero room
  rw [newElement, if_neg other, if_neg other, if_pos directory]
  rfl

/-- Reads of `n` bytes into an array of `size` bytes, through a descriptor with entry `e`, give
these pieces, one after the other and none of them empty. Then there is nothing more to read, or, if
the pieces are not the `whole`, what the next read stores does not fit the array. -/
def Delivers (P : Platform) (p n size : Nat) (whole : Bool) (fd : Fin 8) :
    List (List UInt8) → Element → Prop
  | [], e => ∀ v s, Holds P p v s → v.elements fd = e →
      Ensures (host P p) (fun reply s' => s'.out = v.out ∧
        if whole then reply.value = 0 ∧ reply.stored.length ≤ size
        else size < reply.stored.length) (ece391Read fd.val n) s
  | piece :: rest, e => piece ≠ [] ∧ ∀ v s, Holds P p v s → v.elements fd = e →
      Ensures (host P p) (fun reply s' => reply.value = (piece.length : Int) ∧
        piece <+: reply.stored ∧ reply.stored.length ≤ size ∧
        ∃ e', Delivers P p n size whole fd rest e' ∧ Holds P p (v.withElement fd e') s')
        (ece391Read fd.val n) s

/-- The names of `count` entries of the directory, from `first` on. -/
def names (fs : Fs) (first count : Nat) : List (List UInt8) :=
  (List.range' first count).map fun i => (fs.dentry i).filename.chars

/-- A directory is delivered name by name, up to the first that does not fit the array with its
NUL: `dir_read` copies it all the same. -/
theorem delivers_dir (listed : P.fs.ListedDirectory) {n size : Nat} (pos : 0 < n) {fd : Fin 8}
    (ge : 2 ≤ fd.val) (left : Nat) {count : Nat} (here : count + left = P.fs.dirEntryNum) :
    Delivers P p n size ((names P.fs count left).all (·.length < size)) fd
      ((names P.fs count left).takeWhile (·.length < size)) (dirElement P count) := by
  induction left generalizing count with
  | zero =>
      intro v s holds element
      refine (ensures_read_dir holds listed ge element pos).mono fun reply s' read => ?_
      rw [if_neg (by omega)] at read
      obtain ⟨rfl, held⟩ := read
      exact ⟨held.out, rfl, Nat.zero_le size⟩
  | succ left ih =>
      have more : count < P.fs.dirEntryNum := by omega
      have length := length_chars (P.fs.dentry count).filename
      have stored := length_strcpyBytes (P.fs.dentry count).filename
      have first : names P.fs count (left + 1) =
          (P.fs.dentry count).filename.chars :: names P.fs (count + 1) left := rfl
      rw [first]
      by_cases fits : (P.fs.dentry count).filename.chars.length < size
      · simp only [List.takeWhile_cons, List.all_cons, decide_eq_true fits, if_true, Bool.true_and]
        refine ⟨?_, fun v s holds element => ?_⟩
        · refine List.ne_nil_of_length_pos ?_
          rw [length]
          exact (listed.entries count more).length_pos
        · refine (ensures_read_dir holds listed ge element pos).mono fun reply s' read => ?_
          rw [if_pos more] at read
          obtain ⟨rfl, held⟩ := read
          refine ⟨by rw [length], List.prefix_append _ _, ?_, _, ih (by omega), held⟩
          rw [stored]
          omega
      · simp only [List.takeWhile_cons, List.all_cons, decide_eq_false fits, Bool.false_eq_true,
          if_false, Bool.false_and]
        intro v s holds element
        refine (ensures_read_dir holds listed ge element pos).mono fun reply s' read => ?_
        rw [if_pos more] at read
        obtain ⟨rfl, held⟩ := read
        refine ⟨held.out, ?_⟩
        rw [if_neg Bool.false_ne_true, stored]
        omega

/-- What a new process sees: standard input and output, and nothing else. -/
def View.start (P : Platform) (term : Nat) (args : CStr) : View where
  elements fd := if fd.val < 2 then ⟨P.drivers.addr .terminal, 0, 0, 1⟩ else ⟨0, 0, 0, 0⟩
  term := term
  args := args
  out := []

theorem View.prints_start {term : Nat} (exists_ : term < 4) (args : CStr) :
    (View.start P term args).Prints P :=
  ⟨Nat.one_ne_zero, P.drivers.driverAt_addr .terminal, exists_⟩

theorem assigned_newPcb_elements (P : Platform) (pid parent term : Nat) (fd : Fin 8) (m : Mem)
    (pcb : Nat) :
    (⟨assigned (get m pcb (.fileOperationJmpTbl fd)) (.fileOperationJmpTbl fd)
        (P.newPcb pid parent term),
      assigned (get m pcb (.inodePtr fd)) (.inodePtr fd) (P.newPcb pid parent term),
      assigned (get m pcb (.filePosition fd)) (.filePosition fd) (P.newPcb pid parent term),
      assigned (get m pcb (.flags fd)) (.flags fd) (P.newPcb pid parent term)⟩ : Element) =
      (View.start P term fun _ => 0).elements fd := by
  have small : P.drivers.addr .terminal % 256 ^ 4 = P.drivers.addr .terminal :=
    Nat.mod_eq_of_lt (P.drivers.lt _)
  fin_cases fd <;> first | rfl | exact congrArg (Element.mk · 0 0 1) small

/-- A program whose arguments fit their array finds its terminal, and the arguments. -/
theorem holds_of_starts {c : CStr} {f : Frame} {pid : Nat} {parse : Parse}
    (start : Starts P k c f pid parse k') (fits : strlen parse.fargs < 100)
    (term : k.field .term < 4) :
    ∃ args, CStr.chars args = parse.fargs.chars ∧
      Holds P pid (View.start P (k.field .term) args) ⟨k', []⟩ := by
  obtain ⟨reachable, live⟩ := start.next
  obtain ⟨r, here, ltr, ne, started⟩ := start.started
  have lt := started.new.lt
  have copied : (strcpyBytes parse.fargs).length ≤ 100 := by
    rw [length_strcpyBytes]
    omega
  have field (g : PcbField) : k'.field g =
      assigned (get k.mem (getPcb pid) g) g (P.newPcb pid (getPcb r) (k.field .term)) := by
    rw [Kernel.field, started.curr, started.fields pid lt g (unreached_of_fit copied g),
      if_neg fun own => ne own.1, if_neg fun own => ne own.1, if_pos rfl]
  refine ⟨pcbArgs k'.mem (getPcb pid), entered_args ltr here start.parsed (by omega) start.exec,
    reachable, Kernel.running_eq lt started.curr, live, ?_, ?_, fun _ _ => rfl, rfl⟩
  · funext fd
    simp only [Kernel.elements]
    rw [field, field, field, field]
    exact assigned_newPcb_elements P pid (getPcb r) (k.field .term) fd k.mem (getPcb pid)
  · rw [field, assigned_newPcb_term]
    exact Nat.mod_eq_of_lt (by omega)

end Linux391.User
