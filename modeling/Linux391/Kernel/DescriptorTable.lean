import Linux391.Drivers.FsRead
import Linux391.Kernel.CallSteps

/-!
The descriptor table of a process.

Every call is first reduced to what it does to the `elements` array: nothing, a new
entry in the first closed place (`elements_fileOpen`), a new position
(`elements_setPosition`) or a cleared flag (`elements_close`). The invariant
`TableOk` is then kept by each of these, hence along every run of calls from
`pcb_init`, whatever the rest of the system does in between.
-/

namespace Linux391

open Memory

/-- `file_descriptor_element_t`. -/
structure Element where
  fileOperationJmpTbl : Nat
  inodePtr : Nat
  filePosition : Nat
  flags : Nat
  deriving DecidableEq

/-- The `elements` array of the running process. -/
def Kernel.elements (k : Kernel) (fd : Fin 8) : Element :=
  ⟨k.field (.fileOperationJmpTbl fd), k.field (.inodePtr fd), k.field (.filePosition fd),
    k.field (.flags fd)⟩

section Effects

variable {k : Kernel} {p : Nat} (here : k.curr = getPcb p) (lt : p < 16)

include here lt

/-- Fields outside the array do not matter to it. -/
theorem elements_setScalar {f : PcbField} (v : Nat) (scalar : f = .rtcFd ∨ f = .rtcRate) :
    (k.setField f v).elements = k.elements := by
  funext fd
  rcases scalar with rfl | rfl <;> simp [Kernel.elements, Kernel.field_setField here lt]

theorem elements_setPosition (fd : Fin 8) (v : Nat) :
    (k.setField (.filePosition fd) v).elements =
      Function.update k.elements fd { k.elements fd with filePosition := v % 2 ^ 32 } := by
  funext fd'
  by_cases own : fd' = fd
  · subst own
    simp [Kernel.elements, Kernel.field_setField here lt, PcbField.size]
  · simp [Kernel.elements, Kernel.field_setField here lt, own, Ne.symm own]

theorem elements_close (fd : Fin 8) :
    (k.close k.curr fd).elements =
      Function.update k.elements fd { k.elements fd with flags := 0 } := by
  funext fd'
  by_cases own : fd' = fd
  · subst own
    simp [Kernel.elements, Kernel.close_eq, Kernel.field_setField here lt]
  · simp [Kernel.elements, Kernel.close_eq, Kernel.field_setField here lt, own, Ne.symm own]

end Effects

/-- A well-formed image: directory entries have one of the three types, and those of
regular files name well-formed files. -/
structure Fs.WellFormed (fs : Fs) : Prop where
  fits : fs.Fits
  types : ∀ index < fs.dirEntryNum, (fs.dentry index).filetype = rtcType ∨
    (fs.dentry index).filetype = directoryType ∨ (fs.dentry index).filetype = fileType
  files : ∀ index < fs.dirEntryNum, (fs.dentry index).filetype = fileType →
    fs.RegularFile (fs.dentry index).inodeIndex

/-- A name that is found is the name of an entry in use. -/
theorem Fs.readDentryByName_eq_some {fs : Fs} {fname : CStr} {dentry : Dentry}
    (found : fs.readDentryByName fname = some dentry) :
    ∃ index < fs.dirEntryNum, fs.dentry index = dentry := by
  obtain ⟨index, hit, rfl⟩ := Option.map_eq_some_iff.mp found
  exact ⟨index, List.mem_range.mp (List.mem_of_find?_eq_some hit), rfl⟩

namespace Platform

variable {P : Platform} {k k' : Kernel} {p : Nat}

theorem driver_close (here : k.curr = getPcb p) (lt : p < 16) (fd : Fin 8) :
    P.driver (k.close k.curr fd) fd = P.driver k fd := by
  have table := congrArg Element.fileOperationJmpTbl (congrFun (elements_close here lt fd) fd)
  rw [Function.update_self] at table
  exact congrArg P.drivers.driverAt table

/-- The entry `file_open` makes for a directory entry. -/
def newElement (P : Platform) (dentry : Dentry) (fileOpTbl : Nat) : Element where
  fileOperationJmpTbl :=
    if dentry.filetype = fileType then P.drivers.addr .file
    else if dentry.filetype = directoryType then P.drivers.addr .dir
    else if dentry.filetype = rtcType then P.drivers.addr .rtc
    else fileOpTbl % 2 ^ 32
  inodePtr := if dentry.filetype = fileType then dentry.inodeIndex else 0
  filePosition := 0
  flags := 1

/-- A successful `file_open` fills the first closed entry. -/
theorem elements_fileOpen (here : k.curr = getPcb p) (lt : p < 16) {filename : CStr}
    {fileOpTbl : Nat} {fd : Fin 8} (opened : P.fileOpen k filename fileOpTbl = some (fd, k')) :
    ∃ dentry, P.fs.readDentryByName filename = some dentry ∧
      firstClosed k.mem k.curr = some fd ∧ k'.curr = k.curr ∧
      k'.elements = Function.update k.elements fd (P.newElement dentry fileOpTbl) := by
  obtain ⟨dentry, found, first, rfl⟩ := fileOpen_eq_some opened
  refine ⟨dentry, found, first, rfl, ?_⟩
  have table : ∀ d, P.drivers.addr d % 256 ^ 4 = P.drivers.addr d :=
    fun d => Nat.mod_eq_of_lt (P.drivers.lt d)
  have inode := Nat.mod_eq_of_lt dentry.inodeIndex_lt
  funext fd'
  simp only [Kernel.elements, Kernel.field_setAll here lt, openAssignments, newElement]
  by_cases own : fd' = fd
  · subst own
    split_ifs <;> simp_all [assigned, PcbField.size]
  · split_ifs <;> simp [assigned, own, Ne.symm own, Kernel.elements]

/-! ### The invariant -/

/-- An open entry other than standard input and output. -/
inductive EntryOk (P : Platform) (e : Element) : Prop where
  | file (driver : P.drivers.driverAt e.fileOperationJmpTbl = some .file)
      (regular : P.fs.RegularFile e.inodePtr)
      (inside : e.filePosition ≤ P.fs.fileLength e.inodePtr)
  | dir (driver : P.drivers.driverAt e.fileOperationJmpTbl = some .dir)
      (inside : e.filePosition ≤ P.fs.dirEntryNum)
  | rtc (driver : P.drivers.driverAt e.fileOperationJmpTbl = some .rtc)

structure TableOk (P : Platform) (elements : Fin 8 → Element) : Prop where
  stdio : ∀ fd, fd.val < 2 → (elements fd).flags ≠ 0 ∧
    P.drivers.driverAt (elements fd).fileOperationJmpTbl = some .terminal
  entry : ∀ fd, 2 ≤ fd.val → (elements fd).flags ≠ 0 → EntryOk P (elements fd)

theorem TableOk.update {elements : Fin 8 → Element} (h : TableOk P elements) {fd : Fin 8}
    {e : Element} (ge : 2 ≤ fd.val) (ok : e.flags ≠ 0 → EntryOk P e) :
    TableOk P (Function.update elements fd e) where
  stdio fd' low := by
    have other : fd' ≠ fd := fun same => by
      subst same
      omega
    rw [Function.update_of_ne other]
    exact h.stdio fd' low
  entry fd' ge' := by
    by_cases own : fd' = fd
    · subst own
      rwa [Function.update_self]
    · rw [Function.update_of_ne own]
      exact h.entry fd' ge'

/-- `pcb_init` opens standard input and output and nothing else. -/
theorem tableOk_pcbInit (P : Platform) (here : k.curr = getPcb p) (lt : p < 16) :
    TableOk P (k.withMem (pcbInit P.drivers k.mem k.curr)).elements := by
  have flags : ∀ fd, ((k.withMem (pcbInit P.drivers k.mem k.curr)).elements fd).flags =
      if fd.val < 2 then 1 else 0 := fun fd => by
    show get (pcbInit P.drivers k.mem k.curr) k.curr (.flags fd) = _
    rw [here]
    exact get_pcbInit_flags lt fd
  refine ⟨fun fd low => ⟨?_, ?_⟩, fun fd ge isOpen => ?_⟩
  · rw [flags, if_pos low]
    decide
  · have table : ((k.withMem (pcbInit P.drivers k.mem k.curr)).elements
        fd).fileOperationJmpTbl = P.drivers.addr .terminal := by
      show get (pcbInit P.drivers k.mem k.curr) k.curr (.fileOperationJmpTbl fd) = _
      rw [here, get_pcbInit_jmpTbl lt fd, if_pos low]
    rw [table]
    exact P.drivers.driverAt_addr .terminal
  · rw [flags, if_neg (Nat.not_lt.mpr ge)] at isOpen
    exact absurd rfl isOpen

theorem newElement_ok (wf : P.fs.WellFormed) {filename : CStr} {dentry : Dentry}
    (found : P.fs.readDentryByName filename = some dentry) (fileOpTbl : Nat) :
    EntryOk P (P.newElement dentry fileOpTbl) := by
  obtain ⟨index, lt, rfl⟩ := Fs.readDentryByName_eq_some found
  rcases wf.types index lt with rtc | dir | file
  · refine .rtc ?_
    simpa [newElement, rtc, rtcType, fileType, directoryType] using P.drivers.driverAt_addr .rtc
  · refine .dir ?_ (Nat.zero_le _)
    simpa [newElement, dir, fileType, directoryType] using P.drivers.driverAt_addr .dir
  · have regular := wf.files index lt file
    refine .file ?_ ?_ (Nat.zero_le _)
    · simpa [newElement, file] using P.drivers.driverAt_addr .file
    · simpa [newElement, file] using regular

/-! ### One call -/

/-- What every call guarantees: the table stays good, and a failing call leaves it as
it was. -/
structure CallOk (P : Platform) (k : Kernel) (value : Int) (k' : Kernel) : Prop where
  curr_eq : k'.curr = k.curr
  table : TableOk P k'.elements
  unchanged : value = -1 → k'.elements = k.elements

/-- A call that does not touch the running process's array. -/
theorem TableOk.same (h : TableOk P k.elements) (value : Int) (curr : k'.curr = k.curr)
    (same : k'.elements = k.elements) : CallOk P k value k' :=
  ⟨curr, same ▸ h, fun _ => same⟩

/-- Entries with a file, directory or clock driver are not standard input or output. -/
theorem TableOk.entry_of_driver (h : TableOk P k.elements) {fd : Fin 8} {d : Driver}
    (isOpen : k.field (.flags fd) ≠ 0) (driver : P.driver k fd = some d) (ne : d ≠ .terminal) :
    2 ≤ fd.val ∧ EntryOk P (k.elements fd) := by
  have ge : 2 ≤ fd.val := by
    by_contra low
    have terminal := (h.stdio fd (by omega)).2
    exact ne (Option.some.inj (driver.symm.trans terminal))
  exact ⟨ge, h.entry fd ge isOpen⟩

theorem TableOk.fileRead (h : TableOk P k.elements) (wf : P.fs.WellFormed)
    (here : k.curr = getPcb p) (lt : p < 16) {fd : Fin 8} (isOpen : k.field (.flags fd) ≠ 0)
    (driver : P.driver k fd = some .file) (bytes : Nat) :
    CallOk P k (P.fileRead k fd false bytes).value (P.fileRead k fd false bytes).kernel := by
  obtain ⟨ge, entry⟩ := h.entry_of_driver isOpen driver (by decide)
  cases entry with
  | file _ regular inside =>
      have inside' : k.field (.filePosition fd) ≤ P.fs.fileLength (k.field (.inodePtr fd)) := inside
      obtain ⟨value, _⟩ := Fs.readData_spec wf.fits regular _ bytes inside
      have value' : (P.fs.readData (k.field (.inodePtr fd)) (k.field (.filePosition fd)) false
          bytes).value = (min bytes (P.fs.fileLength (k.field (.inodePtr fd)) -
            k.field (.filePosition fd)) : Nat) := value
      have short : P.fs.fileLength (k.field (.inodePtr fd)) ≤ 1023 * 4096 := regular.length_le
      simp only [Platform.fileRead, if_neg isOpen, value']
      refine ⟨rfl, ?_, fun failed => absurd failed (by omega)⟩
      rw [elements_setPosition here lt]
      refine h.update ge fun _ => .file driver regular ?_
      show uint32 _ % 2 ^ 32 ≤ P.fs.fileLength (k.field (.inodePtr fd))
      unfold uint32
      omega
  | dir other => cases driver.symm.trans other
  | rtc other => cases driver.symm.trans other

theorem TableOk.dirRead (h : TableOk P k.elements) (here : k.curr = getPcb p) (lt : p < 16)
    {fd : Fin 8} (isOpen : k.field (.flags fd) ≠ 0) (driver : P.driver k fd = some .dir) :
    CallOk P k (P.dirRead k fd).value (P.dirRead k fd).kernel := by
  obtain ⟨ge, _⟩ := h.entry_of_driver isOpen driver (by decide)
  simp only [Platform.dirRead]
  cases read : P.fs.readDentryByIndex (k.field (.filePosition fd)) with
  | none => exact h.same 0 rfl rfl
  | some dentry =>
      have more : k.field (.filePosition fd) < P.fs.dirEntryNum := by
        by_contra atEnd
        simp [Fs.readDentryByIndex, atEnd] at read
      have small : P.fs.dirEntryNum < 2 ^ 32 := load_lt _ _ _
      refine ⟨rfl, ?_, fun failed => absurd failed (by simp)⟩
      rw [elements_setPosition here lt]
      refine h.update ge fun _ => .dir driver ?_
      show (k.field (.filePosition fd) + 1) % 2 ^ 32 ≤ P.fs.dirEntryNum
      omega

theorem TableOk.syscallRead (h : TableOk P k.elements) (wf : P.fs.WellFormed)
    (here : k.curr = getPcb p) (lt : p < 16) {fd nbytes : Int} {bufNull : Bool} {io : Io}
    (call : P.syscallRead k fd bufNull nbytes = some io) : CallOk P k io.value io.kernel := by
  unfold Platform.syscallRead at call
  split at call
  · cases call
    exact h.same 0 rfl rfl
  split at call
  · cases call
    exact h.same (-1) rfl rfl
  rename_i i _
  split_ifs at call with refused
  · cases call
    exact h.same (-1) rfl rfl
  have isOpen : k.field (.flags i) ≠ 0 := fun closed => refused (.inr (.inl closed))
  unfold driverRead at call
  split at call
  · cases call
    exact h.same 0 rfl rfl
  · rename_i driver
    cases call
    exact h.fileRead wf here lt isOpen driver _
  · rename_i driver
    cases call
    exact h.dirRead here lt isOpen driver
  · simp only [Option.bind_eq_bind, Option.bind_eq_some_iff, Option.pure_def] at call
    obtain ⟨t, _, ⟨chars, terms⟩, _, eq⟩ := call
    cases eq
    exact h.same _ rfl rfl
  · cases call

/-- A write changes terminals, the clock and the recorded rate, never the array. -/
theorem elements_driverWrite {fd : Fin 8} {buf : CStr} {nbytes value : Int}
    (call : P.driverWrite k fd buf nbytes = some (value, k')) :
    k'.curr = k.curr ∧ k'.elements = k.elements := by
  unfold driverWrite at call
  split at call
  · cases call
    exact ⟨rfl, rfl⟩
  · cases call
    exact ⟨rfl, rfl⟩
  · cases call
    exact ⟨rfl, rfl⟩
  · simp only [Option.bind_eq_bind, Option.bind_eq_some_iff, Option.pure_def] at call
    obtain ⟨t, _, eq⟩ := call
    cases eq
    exact ⟨rfl, rfl⟩
  · cases call

theorem TableOk.syscallWrite (h : TableOk P k.elements) (here : k.curr = getPcb p) (lt : p < 16)
    {fd nbytes value : Int} {buf : Option CStr}
    (call : P.syscallWrite k fd buf nbytes = some (value, k')) : CallOk P k value k' := by
  unfold Platform.syscallWrite at call
  split at call
  · rename_i i buf _
    split at call
    · cases call
      exact h.same (-1) rfl rfl
    · simp only at call
      split_ifs at call
      · obtain ⟨curr, same⟩ := elements_driverWrite call
        exact h.same value curr (same.trans (elements_setScalar here lt _ (.inr rfl)))
      · obtain ⟨curr, same⟩ := elements_driverWrite call
        exact h.same value curr same
  · cases call
    exact h.same (-1) rfl rfl

/-- The closed entry that `pcb_open` finds is none of the first two. -/
theorem firstClosed_spec {m : Mem} {pcb : Nat} {fd : Fin 8} (first : firstClosed m pcb = some fd) :
    2 ≤ fd.val ∧ get m pcb (.flags fd) = 0 := by
  have found := List.find?_some first
  simpa using found

theorem TableOk.fileOpen (h : TableOk P k.elements) (wf : P.fs.WellFormed)
    (here : k.curr = getPcb p) (lt : p < 16) {filename : CStr} {fileOpTbl : Nat} {fd : Fin 8}
    (opened : P.fileOpen k filename fileOpTbl = some (fd, k')) :
    k'.curr = k.curr ∧ TableOk P k'.elements := by
  obtain ⟨dentry, found, first, curr, eq⟩ := elements_fileOpen here lt opened
  refine ⟨curr, ?_⟩
  rw [eq]
  exact h.update (firstClosed_spec first).1 fun _ => newElement_ok wf found fileOpTbl

/-- The open entry of a driver: for a regular file it opens a second entry, under
whatever name the missing argument designates. -/
theorem TableOk.driverOpen (h : TableOk P k.elements) (wf : P.fs.WellFormed)
    (here : k.curr = getPcb p) (lt : p < 16) {fd : Fin 8} {u : Unspecified}
    (call : P.driverOpen k fd u = some k') : k'.curr = k.curr ∧ TableOk P k'.elements := by
  unfold Platform.driverOpen at call
  split at call
  · cases call
    exact ⟨rfl, h⟩
  · cases second : P.fileOpen k u.openName u.fileOpTbl' with
    | none =>
        rw [second] at call
        cases call
        exact ⟨rfl, h⟩
    | some r =>
        rw [second] at call
        cases call
        exact h.fileOpen wf here lt second
  · cases call
    exact ⟨rfl, h⟩
  · obtain ⟨t, _, rfl⟩ := Option.map_eq_some_iff.mp call
    exact ⟨rfl, h⟩
  · cases call

theorem TableOk.syscallOpen (h : TableOk P k.elements) (wf : P.fs.WellFormed)
    (here : k.curr = getPcb p) (lt : p < 16) {filename : Option CStr} {u : Unspecified}
    {value : Int} (call : P.syscallOpen k filename u = some (value, k')) :
    CallOk P k value k' := by
  unfold Platform.syscallOpen at call
  split at call
  · cases call
    exact h.same (-1) rfl rfl
  split at call
  · cases call
    exact h.same (-1) rfl rfl
  rename_i fd k₁ opened
  obtain ⟨curr₁, table₁⟩ := h.fileOpen wf here lt opened
  have here₁ : k₁.curr = getPcb p := curr₁.trans here
  obtain ⟨k₂, dispatched, eq⟩ := Option.map_eq_some_iff.mp call
  cases eq
  -- the descriptor returned is not -1, so nothing has to be undone
  suffices result : k'.curr = k₁.curr ∧ TableOk P k'.elements from
    ⟨result.1.trans curr₁, result.2, fun failed => by omega⟩
  split_ifs at dispatched
  · have recorded : TableOk P (k₁.setField .rtcFd fd).elements := by
      rw [elements_setScalar here₁ lt _ (.inl rfl)]
      exact table₁
    exact recorded.driverOpen wf here₁ lt dispatched
  · exact table₁.driverOpen wf here₁ lt dispatched

/-- A pointer at which a `pcb_t` would overlap no PCB. -/
def OutsidePcbs (pointer : Nat) : Prop :=
  ∀ q < 16, pointer + 257 ≤ getPcb q ∨ getPcb q + 257 ≤ pointer

/-- Closing an entry through a pointer outside every PCB changes no PCB. -/
theorem field_close_outside (here : k.curr = getPcb p) (lt : p < 16) {pointer : Nat}
    (outside : OutsidePcbs pointer) (fd : Fin 8) (f : PcbField) :
    (k.close pointer fd).field f = k.field f := by
  show get (pcbClose k.mem pointer fd) k.curr f = get k.mem k.curr f
  rw [here]
  apply load_store_of_disjoint
  have apart := outside p lt
  have inside := f.offset_size_le
  have inside' := (PcbField.flags fd).offset_size_le
  omega

theorem TableOk.syscallClose (h : TableOk P k.elements) (here : k.curr = getPcb p) (lt : p < 16)
    {fd value : Int} {u : Unspecified} (tame : u.closePcb = getPcb p ∨ OutsidePcbs u.closePcb)
    (call : P.syscallClose k fd u = some (value, k')) : CallOk P k value k' := by
  unfold Platform.syscallClose at call
  split at call
  · cases call
    exact h.same (-1) rfl rfl
  rename_i i _
  split_ifs at call with refused
  · cases call
    exact h.same (-1) rfl rfl
  have ge : 2 ≤ i.val := by omega
  have entry := h.entry i ge fun closed => refused (.inr closed)
  have zero : (0 : Int) ≠ -1 := by decide
  have closed : TableOk P (k.close k.curr i).elements := by
    rw [elements_close here lt]
    exact h.update ge fun isOpen => absurd rfl isOpen
  unfold driverClose at call
  rw [driver_close here lt] at call
  split at call
  · cases call
    exact ⟨rfl, closed, fun failed => absurd failed zero⟩
  · -- the second `pcb_close`, through the stray pointer
    cases call
    refine ⟨rfl, ?_, fun failed => absurd failed zero⟩
    have here' : (k.close k.curr i).curr = getPcb p := here
    rcases tame with own | outside
    · rw [own, ← here', elements_close here' lt]
      exact closed.update ge fun isOpen => absurd rfl isOpen
    · have same : ((k.close k.curr i).close u.closePcb i).elements =
          (k.close k.curr i).elements := by
        funext fd'
        simp only [Kernel.elements, field_close_outside here' lt outside]
      rwa [same]
  · cases call
    exact ⟨rfl, closed, fun failed => absurd failed zero⟩
  · rename_i terminal
    cases entry with
    | file other => cases terminal.symm.trans other
    | dir other => cases terminal.symm.trans other
    | rtc other => cases terminal.symm.trans other
  · cases call

/-! ### Runs -/

inductive FdCall where
  | openFile (filename : Option CStr) (u : Unspecified)
  | read (fd : Int) (bufNull : Bool) (nbytes : Int)
  | write (fd : Int) (buf : Option CStr) (nbytes : Int)
  | close (fd : Int) (u : Unspecified)

def fdCall (P : Platform) (k : Kernel) : FdCall → Option (Int × Kernel)
  | .openFile filename u => P.syscallOpen k filename u
  | .read fd bufNull nbytes => (P.syscallRead k fd bufNull nbytes).map fun io => (io.value, io.kernel)
  | .write fd buf nbytes => P.syscallWrite k fd buf nbytes
  | .close fd u => P.syscallClose k fd u

/-- Every call is a sequence of elementary changes. -/
theorem FileSteps.fdCall {may : PcbField → Prop} {stray : Unspecified → Prop} {c : FdCall}
    {value : Int} (own : ∀ g : PcbField, g.OfFiles → may g) (rate : may .rtcRate)
    (used : ∀ fd u, c = .close fd u → stray u) (call : P.fdCall k c = some (value, k')) :
    FileSteps may stray k k' := by
  cases c with
  | openFile filename u => exact syscallOpen own call
  | read fd bufNull nbytes =>
      obtain ⟨io, read, eq⟩ := Option.map_eq_some_iff.mp call
      cases eq
      exact syscallRead own read
  | write fd buf nbytes => exact syscallWrite rate call
  | close fd u => exact syscallClose own (used fd u rfl) call

/-- At most memory, terminals and the clock's register changed. -/
def OnlyFiles (k k' : Kernel) : Prop :=
  ∃ m terms regA, k' = { k with mem := m, terms := terms, rtcRegA := regA }

namespace OnlyFiles

theorem refl (k : Kernel) : OnlyFiles k k := ⟨k.mem, k.terms, k.rtcRegA, rfl⟩

theorem trans {k'' : Kernel} (first : OnlyFiles k k') (second : OnlyFiles k' k'') :
    OnlyFiles k k'' := by
  obtain ⟨_, _, _, rfl⟩ := first
  obtain ⟨m, terms, regA, rfl⟩ := second
  exact ⟨m, terms, regA, rfl⟩

theorem withMem (m : Mem) : OnlyFiles k (k.withMem m) := ⟨m, k.terms, k.rtcRegA, rfl⟩

theorem terms (s : Terms) : OnlyFiles k { k with terms := s } := ⟨k.mem, s, k.rtcRegA, rfl⟩

theorem rtcRegA (a : UInt8) : OnlyFiles k { k with rtcRegA := a } := ⟨k.mem, k.terms, a, rfl⟩

theorem of_steps {may : PcbField → Prop} {stray : Unspecified → Prop}
    (steps : FileSteps may stray k k') : OnlyFiles k k' := by
  induction steps with
  | refl => exact .refl k
  | tail _ step ih =>
      refine ih.trans ?_
      cases step with
      | rtcRegA a => exact rtcRegA a
      | terms s => exact terms s
      | assign assignments _ => exact withMem _
      | fileClose fd _ => exact withMem _
      | terminalClose _ => exact withMem _

theorem fdCall {c : FdCall} {value : Int} (call : P.fdCall k c = some (value, k')) :
    OnlyFiles k k' := by
  have steps : FileSteps (fun _ => True) (fun _ => True) k k' :=
    .fdCall (fun _ _ => trivial) trivial (fun _ _ _ => trivial) call
  exact of_steps steps

end OnlyFiles

/-- The stray pointer of `file_close` is the caller's PCB or lies outside every PCB. -/
def FdCall.Tame (p : Nat) : FdCall → Prop
  | .close _ u => u.closePcb = getPcb p ∨ OutsidePcbs u.closePcb
  | _ => True

/-- States in which process `p` runs, after `pcb_init` and any sequence of its calls.
Between them the rest of the system may do anything but write its array. -/
inductive TableRun (P : Platform) (p : Nat) : Kernel → Prop where
  | init {k : Kernel} : k.curr = getPcb p → TableRun P p (k.withMem (pcbInit P.drivers k.mem k.curr))
  | call {k k' : Kernel} {c : FdCall} {value : Int} : TableRun P p k → c.Tame p →
      P.fdCall k c = some (value, k') → TableRun P p k'
  | elsewhere {k k' : Kernel} : TableRun P p k → k'.curr = getPcb p → k'.elements = k.elements →
      TableRun P p k'

theorem TableOk.fdCall (h : TableOk P k.elements) (wf : P.fs.WellFormed)
    (here : k.curr = getPcb p) (lt : p < 16) {c : FdCall} {value : Int} (tame : c.Tame p)
    (call : P.fdCall k c = some (value, k')) : CallOk P k value k' := by
  cases c with
  | openFile filename u => exact h.syscallOpen wf here lt call
  | read fd bufNull nbytes =>
      obtain ⟨io, read, eq⟩ := Option.map_eq_some_iff.mp call
      cases eq
      exact h.syscallRead wf here lt read
  | write fd buf nbytes => exact h.syscallWrite here lt call
  | close fd u => exact h.syscallClose here lt tame call

theorem TableRun.ok (wf : P.fs.WellFormed) (lt : p < 16) (run : TableRun P p k) :
    k.curr = getPcb p ∧ TableOk P k.elements := by
  induction run with
  | init here => exact ⟨here, tableOk_pcbInit P here lt⟩
  | call _ tame step ih =>
      obtain ⟨here, table⟩ := ih
      have result := table.fdCall wf here lt tame step
      exact ⟨result.curr_eq.trans here, result.table⟩
  | elsewhere _ here same ih => exact ⟨here, same ▸ ih.2⟩

/-- A descriptor argument that names no open entry. -/
def NotOpen (k : Kernel) (fd : Int) : Prop :=
  fd < 0 ∨ 8 ≤ fd ∨ ∃ i, descriptor fd = some i ∧ (k.elements i).flags = 0

theorem descriptor_eq_none {fd : Int} (out : fd < 0 ∨ 8 ≤ fd) : descriptor fd = none := by
  unfold descriptor
  rw [dif_neg (by omega)]

theorem syscallRead_refused {fd nbytes : Int} {bufNull : Bool} (asked : nbytes ≠ 0)
    (bad : NotOpen k fd ∨ fd = 1) : P.syscallRead k fd bufNull nbytes = some ⟨-1, [], k⟩ := by
  unfold Platform.syscallRead
  rw [if_neg asked]
  rcases bad with (low | high | ⟨i, eq, closed⟩) | rfl
  · rw [descriptor_eq_none (.inl low)]
  · rw [descriptor_eq_none (.inr high)]
  · rw [eq]
    exact if_pos (.inr (.inl closed))
  · exact if_pos (.inl rfl)

theorem syscallWrite_refused {fd nbytes : Int} {buf : Option CStr}
    (bad : NotOpen k fd ∨ fd = 0) : P.syscallWrite k fd buf nbytes = some (-1, k) := by
  unfold Platform.syscallWrite
  rcases bad with (low | high | ⟨i, eq, closed⟩) | rfl
  · rw [descriptor_eq_none (.inl low)]
  · rw [descriptor_eq_none (.inr high)]
  · rw [eq]
    cases buf with
    | none => rfl
    | some buf => exact if_pos (.inr (.inr closed))
  · cases buf with
    | none => rfl
    | some buf => exact if_pos (.inr (.inl rfl))

theorem syscallClose_refused {fd : Int} {u : Unspecified} (bad : NotOpen k fd ∨ fd < 2) :
    P.syscallClose k fd u = some (-1, k) := by
  unfold Platform.syscallClose
  rcases bad with (low | high | ⟨i, eq, closed⟩) | small
  · rw [descriptor_eq_none (.inl low)]
  · rw [descriptor_eq_none (.inr high)]
  · rw [eq]
    exact if_pos (.inr closed)
  · unfold descriptor
    split
    · rfl
    · rename_i i eq
      split at eq
      · cases eq
        exact if_pos (.inl (by
          show fd.toNat < 2
          omega))
      · cases eq

/-- **The descriptor table.** After any calls of a process on a well-formed image,
standard input and output are open on the terminal driver; every other open entry
has a file, directory or clock driver and a position inside what it reads. A call
that returns -1 leaves the array as it was, and so returns every read, write or close
on a descriptor that is out of range, closed or of the wrong direction. -/
theorem descriptor_table_invariant (wf : P.fs.WellFormed) (lt : p < 16) (run : TableRun P p k) :
    (∀ fd, fd.val < 2 → (k.elements fd).flags ≠ 0 ∧ P.driver k fd = some .terminal) ∧
    (∀ fd, 2 ≤ fd.val → (k.elements fd).flags ≠ 0 →
      (P.driver k fd = some .file ∧
        (k.elements fd).filePosition ≤ P.fs.fileLength (k.elements fd).inodePtr) ∨
      (P.driver k fd = some .dir ∧ (k.elements fd).filePosition ≤ P.fs.dirEntryNum) ∨
      P.driver k fd = some .rtc) ∧
    (∀ c k', c.Tame p → P.fdCall k c = some (-1, k') → k'.elements = k.elements) ∧
    (∀ fd bufNull nbytes, nbytes ≠ 0 → NotOpen k fd ∨ fd = 1 →
      P.fdCall k (.read fd bufNull nbytes) = some (-1, k)) ∧
    (∀ fd buf nbytes, NotOpen k fd ∨ fd = 0 → P.fdCall k (.write fd buf nbytes) = some (-1, k)) ∧
    (∀ fd u, NotOpen k fd ∨ fd < 2 → P.fdCall k (.close fd u) = some (-1, k)) := by
  obtain ⟨here, table⟩ := run.ok wf lt
  refine ⟨table.stdio, fun fd ge isOpen => ?_, fun c k' tame call => ?_,
    fun fd bufNull nbytes asked bad => ?_, fun fd buf nbytes bad => syscallWrite_refused bad,
    fun fd u bad => syscallClose_refused bad⟩
  · cases table.entry fd ge isOpen with
    | file driver _ inside => exact .inl ⟨driver, inside⟩
    | dir driver inside => exact .inr (.inl ⟨driver, inside⟩)
    | rtc driver => exact .inr (.inr driver)
  · exact (table.fdCall wf here lt tame call).unchanged rfl
  · simp only [Platform.fdCall, syscallRead_refused asked bad, Option.map_some]

theorem sample_wellFormed : Fs.sample.WellFormed where
  fits := Fs.sample_fits
  types index lt := by
    have entries : Fs.sample.dirEntryNum = 3 := by decide +kernel
    have types : ∀ i < 3, (Fs.sample.dentry i).filetype = rtcType ∨
        (Fs.sample.dentry i).filetype = directoryType ∨
        (Fs.sample.dentry i).filetype = fileType := by decide +kernel
    exact types index (by omega)
  files index lt _ := by
    have entries : Fs.sample.dirEntryNum = 3 := by decide +kernel
    have inodes : ∀ i < 3, (Fs.sample.dentry i).inodeIndex < 2 := by decide +kernel
    exact Fs.sample_regularFile _ (inodes index (by omega))

/-- A process that has opened the sample's shell and closed it again cannot close it a
second time. -/
theorem descriptor_table_invariant_sample :
    let shell := cLit [115, 104, 101, 108, 108]
    let fresh := (Kernel.blank 1).withMem
      (pcbInit sample.drivers (Kernel.blank 1).mem (Kernel.blank 1).curr)
    ∃ opened closed, sample.fdCall fresh (.openFile (some shell) .sample) = some (2, opened) ∧
      sample.fdCall opened (.close 2 .sample) = some (0, closed) ∧
      sample.fdCall closed (.close 2 .sample) = some (-1, closed) := by
  intro shell fresh
  have ends : ((sample.fdCall fresh (.openFile (some shell) .sample)).bind fun one =>
      (sample.fdCall one.2 (.close 2 .sample)).map fun two =>
        (one.1, two.1, two.2.field (.flags 2))) = some (2, 0, 0) := by decide +kernel
  obtain ⟨⟨fd, opened⟩, open_, rest⟩ := Option.bind_eq_some_iff.mp ends
  obtain ⟨⟨value, closed⟩, close, eq⟩ := Option.map_eq_some_iff.mp rest
  simp only [Prod.mk.injEq] at eq
  obtain ⟨rfl, rfl, shut⟩ := eq
  have start : TableRun sample 1 fresh := .init (Kernel.blank_curr (by decide))
  have outside : OutsidePcbs Unspecified.sample.closePcb := by
    intro q lt
    rw [getPcb_eq lt]
    simp only [Unspecified.sample]
    omega
  have run : TableRun sample 1 closed :=
    (start.call (c := .openFile (some shell) .sample) trivial open_).call (c := .close 2 .sample)
      (.inr outside) close
  have notOpen : NotOpen closed 2 := .inr (.inr ⟨2, rfl, shut⟩)
  exact ⟨opened, closed, open_, close,
    (descriptor_table_invariant sample_wellFormed (by decide) run).2.2.2.2.2 2 .sample
      (.inl notOpen)⟩

end Platform

end Linux391
