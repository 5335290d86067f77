import Linux391.Drivers.Rtc
import Linux391.Kernel.State

/-!
File descriptors: the open, read, write and close calls of `drivers/fs.c` and
`kernel/syscall.c`, and their dispatch through the driver jump tables.

A buffer belongs to the caller, so what a call stores there is part of its result
and not of the kernel's state. Some calls use values the C code never sets;
`Unspecified` names them, and results are about all of them.
-/

namespace Linux391

open Memory

/-- Values the source leaves unspecified in `syscall_open` and `syscall_close`. -/
structure Unspecified where
  /-- The uninitialised `file_op_tbl` of the two calls of `file_open`. -/
  fileOpTbl : Nat
  fileOpTbl' : Nat
  /-- The missing argument of the jump-table open: the bytes at it as a file name, and
  the terminal with its number. -/
  openName : CStr
  openTerm : Option (Fin 4)
  /-- The uninitialised `curr_pcb` of `file_close`. -/
  closePcb : Nat
  /-- The uninitialised `term_data` of `terminal_close`. -/
  termData : Nat

/-- Unspecified values that point nowhere. -/
def Unspecified.sample : Unspecified := ⟨0, 0, fun _ => 0, none, 0, 0⟩

/-- The outcome of a read: its return value and the bytes stored in the buffer. -/
structure Io where
  value : Int
  stored : List UInt8
  kernel : Kernel

namespace Platform

variable (P : Platform)

/-! ### Files and directories -/

/-- What `file_open` assigns to its new entry, by the type of the directory entry. -/
def openAssignments (dentry : Dentry) (fd : Fin 8) : List (PcbField × Nat) :=
  if dentry.filetype = fileType then
    [(.fileOperationJmpTbl fd, P.drivers.addr .file), (.inodePtr fd, dentry.inodeIndex)]
  else if dentry.filetype = directoryType then
    [(.fileOperationJmpTbl fd, P.drivers.addr .dir)]
  else if dentry.filetype = rtcType then
    [(.fileOperationJmpTbl fd, P.drivers.addr .rtc), (.rtc, 1)]
  else []

/-- `file_open`: `none` is the return value -1. -/
def fileOpen (k : Kernel) (filename : CStr) (fileOpTbl : Nat) : Option (Fin 8 × Kernel) :=
  match P.fs.readDentryByName filename with
  | none => none
  | some dentry =>
      match pcbOpen k.mem k.curr fileOpTbl with
      | none => none
      | some (fd, m) => some (fd, k.withMem (setAll m k.curr (P.openAssignments dentry fd)))

/-- What a successful `file_open` does: it takes the first closed entry. -/
theorem fileOpen_eq_some {P : Platform} {k k' : Kernel} {filename : CStr} {fileOpTbl : Nat}
    {fd : Fin 8} (opened : P.fileOpen k filename fileOpTbl = some (fd, k')) :
    ∃ dentry, P.fs.readDentryByName filename = some dentry ∧
      firstClosed k.mem k.curr = some fd ∧
      k' = k.withMem (setAll k.mem k.curr
        ([(.fileOperationJmpTbl fd, fileOpTbl), (.filePosition fd, 0), (.inodePtr fd, 0),
          (.flags fd, 1)] ++ P.openAssignments dentry fd)) := by
  unfold fileOpen at opened
  split at opened
  · cases opened
  · rename_i dentry found
    simp only [pcbOpen] at opened
    cases first : firstClosed k.mem k.curr with
    | none =>
        rw [first] at opened
        cases opened
    | some fd' =>
        rw [first] at opened
        simp only [Option.map_some, Option.some.injEq, Prod.mk.injEq] at opened
        obtain ⟨rfl, rfl⟩ := opened
        exact ⟨dentry, found, rfl, by rw [setAll_append]⟩

/-- `file_open` fails for a name that is not found, or a full table. -/
theorem fileOpen_eq_none {P : Platform} {k : Kernel} {filename : CStr} {fileOpTbl : Nat}
    (failed : P.fileOpen k filename fileOpTbl = none) :
    P.fs.readDentryByName filename = none ∨ firstClosed k.mem k.curr = none := by
  unfold fileOpen at failed
  split at failed
  · rename_i missing
    exact .inl missing
  · simp only [pcbOpen] at failed
    cases first : firstClosed k.mem k.curr with
    | none => exact .inr rfl
    | some fd =>
        rw [first] at failed
        cases failed

/-- `file_read`. -/
def fileRead (k : Kernel) (fd : Fin 8) (bufNull : Bool) (bytes : Nat) : Io :=
  if k.field (.flags fd) = 0 then ⟨-1, [], k⟩
  else
    let position := k.field (.filePosition fd)
    let read := P.fs.readData (k.field (.inodePtr fd)) position bufNull bytes
    ⟨read.value, read.stored,
      k.setField (.filePosition fd) (uint32 (position + read.value))⟩

/-- `dir_read`. -/
def dirRead (k : Kernel) (fd : Fin 8) : Io :=
  let position := k.field (.filePosition fd)
  match P.fs.readDentryByIndex position with
  | none => ⟨0, [], k⟩
  | some dentry =>
      ⟨strlen dentry.filename, strcpyBytes dentry.filename,
        k.setField (.filePosition fd) (position + 1)⟩

/-- `terminal_close`: it decrements `usr_count`, at offset 153 of the structure it
takes for its terminal, and clears `is_active` before it when that reaches 0. -/
def terminalClose (k : Kernel) (termData : Nat) : Kernel :=
  let count := k.mem (termData + 153) - 1
  let m := Function.update k.mem (termData + 153) count
  k.withMem (if count = 0 then Function.update m (termData + 152) 0 else m)

/-! ### Dispatch -/

/-- The jump table of an entry; `none` is a pointer that is no jump table. -/
def driver (k : Kernel) (fd : Fin 8) : Option Driver :=
  P.drivers.driverAt (k.field (.fileOperationJmpTbl fd))

/-- `jmp_tbl[2](fd, buf, nbytes)`; `none` where the call does not return: a terminal
read that waits, or a jump through a pointer that is no jump table. -/
def driverRead (k : Kernel) (fd : Fin 8) (nbytes : Int) : Option Io :=
  match P.driver k fd with
  | some .rtc => some ⟨0, [], k⟩
  | some .file => some (P.fileRead k fd false (uint32 nbytes))
  | some .dir => some (P.dirRead k fd)
  | some .terminal => do
      let t ← Kernel.terminal (k.field .term)
      let (chars, terms) ← k.terms.terminalRead t nbytes
      return ⟨chars.length, chars, { k with terms := terms }⟩
  | none => none

/-- `jmp_tbl[1](fd, buf, nbytes)`. -/
def driverWrite (k : Kernel) (fd : Fin 8) (buf : CStr) (nbytes : Int) : Option (Int × Kernel) :=
  match P.driver k fd with
  | some .rtc =>
      let written := rtcWrite k.rtcRegA (int32 (load buf 0 4))
      some (written.1, { k with rtcRegA := written.2 })
  | some .file => some (-1, k)
  | some .dir => some (-1, k)
  | some .terminal => do
      let t ← Kernel.terminal (k.field .term)
      let text := (List.range nbytes.toNat).map buf
      return (text.length, { k with terms := k.terms.terminalWrite t text })
  | none => none

/-- `jmp_tbl[0]()`, called without its argument; the return value is not used. -/
def driverOpen (k : Kernel) (fd : Fin 8) (u : Unspecified) : Option Kernel :=
  match P.driver k fd with
  | some .rtc => some { k with rtcRegA := rtcOpen k.rtcRegA }
  | some .file => some (((P.fileOpen k u.openName u.fileOpTbl').map (·.2)).getD k)
  | some .dir => some k
  | some .terminal => u.openTerm.map fun t => { k with terms := k.terms.terminalOpen t }
  | none => none

/-- `jmp_tbl[3](fd, NULL, 0)`. `file_close` closes the entry again, in the PCB its
uninitialised pointer designates. -/
def driverClose (k : Kernel) (fd : Fin 8) (u : Unspecified) : Option (Int × Kernel) :=
  match P.driver k fd with
  | some .rtc => some (0, k)
  | some .file => some (0, k.close u.closePcb fd)
  | some .dir => some (0, k)
  | some .terminal => some (0, terminalClose k u.termData)
  | none => none

/-! ### System calls -/

/-- A descriptor argument that passes the range check. -/
def descriptor (fd : Int) : Option (Fin 8) :=
  if h : 0 ≤ fd ∧ fd < 8 then some ⟨fd.toNat, by omega⟩ else none

/-- `syscall_read`. -/
def syscallRead (k : Kernel) (fd : Int) (bufNull : Bool) (nbytes : Int) : Option Io :=
  if nbytes = 0 then some ⟨0, [], k⟩
  else
    match descriptor fd with
    | none => some ⟨-1, [], k⟩
    | some i =>
        if i.val = 1 ∨ k.field (.flags i) = 0 ∨ bufNull then some ⟨-1, [], k⟩
        else P.driverRead k i nbytes

/-- `syscall_write`; a write to the descriptor last opened as the clock also records
the rate. -/
def syscallWrite (k : Kernel) (fd : Int) (buf : Option CStr) (nbytes : Int) :
    Option (Int × Kernel) :=
  match descriptor fd, buf with
  | some i, some buf =>
      if nbytes = 0 ∨ i.val = 0 ∨ k.field (.flags i) = 0 then some (-1, k)
      else
        let k := if i.val = k.field .rtcFd then k.setField .rtcRate (load buf 0 4) else k
        P.driverWrite k i buf nbytes
  | _, _ => some (-1, k)

/-- `syscall_open`. The descriptor is recorded as the clock's unless the comparison of
its name with `"rtc"` gives exactly -1. -/
def syscallOpen (k : Kernel) (filename : Option CStr) (u : Unspecified) :
    Option (Int × Kernel) :=
  match filename with
  | none => some (-1, k)
  | some filename =>
      match P.fileOpen k filename u.fileOpTbl with
      | none => some (-1, k)
      | some (fd, k) =>
          let k := if strncmp (cLit [114, 116, 99]) filename 3 ≠ -1 then k.setField .rtcFd fd else k
          (P.driverOpen k fd u).map fun k => ((fd : Int), k)

/-- `syscall_close`. -/
def syscallClose (k : Kernel) (fd : Int) (u : Unspecified) : Option (Int × Kernel) :=
  match descriptor fd with
  | none => some (-1, k)
  | some i =>
      if i.val < 2 ∨ k.field (.flags i) = 0 then some (-1, k)
      else P.driverClose (k.close k.curr i) i u

end Platform

end Linux391
