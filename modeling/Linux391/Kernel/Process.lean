import Linux391.Kernel.Descriptors
import Linux391.Kernel.Scheduling

/-!
Starting and ending programs: `syscall_execute`, `syscall_init_shell`, `syscall_halt`,
`syscall_getargs` and `syscall_vidmap` of `kernel/syscall.c`.

The routines end in an `iret` or on another process's kernel stack as often as they
return, so they give an `Outcome` with the new state. Registers at the points where
the code saves them, and the contents of uninitialised locals, come from a `Frame`.
-/

namespace Linux391

open Memory

/-- What a call finds on its kernel stack. -/
structure Frame where
  esp : Nat
  ebp : Nat
  /-- The uninitialised arrays `fname` and `fargs`. -/
  fname : CStr
  fargs : CStr
  /-- The uninitialised arrays of `executable_check` and `loader`. -/
  magicBuf : CStr
  entryPoint : CStr

inductive Outcome where
  /-- The call returns to its caller. -/
  | returned (value : Int)
  /-- A new program starts in user mode. -/
  | entered (pid : Nat)
  /-- The parent's pending `syscall_execute` returns. -/
  | resumed (value : Int)
  deriving DecidableEq, Repr

/-! ### Parsing a command -/

/-- What the parser has stored. An index outside an array reaches another variable of the call, for
`fargs[128]` it may be `fname`, and which one is not modelled: the flag is cleared, and the arrays
are then no longer those of the call. -/
structure Parse where
  fileFlag : Bool
  fnameLength : Nat
  fname : CStr
  fargs : CStr
  /-- No index so far was outside `fname[32]` or `fargs[128]`. -/
  inBounds : Bool

/-- `fname[i] = c`. -/
def Parse.putName (s : Parse) (i : Nat) (c : UInt8) : Parse :=
  { s with fname := Function.update s.fname i c, inBounds := s.inBounds && decide (i < 32) }

/-- `fargs[i] = c`. -/
def Parse.putArg (s : Parse) (i : Nat) (c : UInt8) : Parse :=
  { s with fargs := Function.update s.fargs i c, inBounds := s.inBounds && decide (i < 128) }

/-- The loop over the rest of the command from index `i`; `none` is the return of -1
for a long name. -/
def Parse.loop : List UInt8 → Nat → Parse → Option Parse
  | [], _, s => some s
  | c :: rest, i, s =>
      if c = 32 ∧ s.fileFlag = false then
        loop rest (i + 1) { s.putName i 0 with fileFlag := true, fnameLength := i }
      else if s.fileFlag then loop rest (i + 1) (s.putArg (i - s.fnameLength - 1) c)
      else if 32 ≤ i then none
      else loop rest (i + 1) (s.putName i c)

/-- The whole parse. The index of the final NUL in `fargs` is unsigned, so it is -1
modulo 2^32 for an empty command. -/
def parseCommand (command : CStr) (f : Frame) : Option Parse :=
  (Parse.loop command.chars 0 ⟨false, 0, f.fname, f.fargs, true⟩).map fun s =>
    let i := strlen command
    let s := s.putArg (uint32 ((i : Int) - s.fnameLength - 1)) 0
    if s.fileFlag then s else s.putName i 0

/-- The parse stays inside `fname[32]` and `fargs[128]`. -/
def InBounds (command : Option CStr) (f : Frame) : Prop :=
  ∀ c parse, command = some c → parseCommand c f = some parse → parse.inBounds = true

namespace Platform

variable (P : Platform)

/-! ### Loading a program -/

/-- What `syscall_execute` and `syscall_init_shell` both do up to the loader: `inl` is
the state in which they return -1, `inr` the pid, the parsed command and the state once
the program is in its frame. -/
def loadProgram (k : Kernel) (command : CStr) (f : Frame) :
    Option (Kernel ⊕ (Nat × Parse × Kernel)) :=
  match parseCommand command f with
  | none => some (.inl k)
  | some parse =>
      match P.fs.readDentryByName parse.fname with
      | none => some (.inl k)
      | some dentry =>
          if P.fs.executableCheck dentry f.magicBuf then some (.inl k)
          else
            match k.tasksPidNew with
            | none => some (.inl k)
            | some (pid, k) => do
                let k := (k.pagingAllocate P pid).pagingUpdateControl pid
                let loaded := P.fs.loader parse.fname f.entryPoint
                let k ← k.storeUser P 0x8048000 loaded.program
                if loaded.value = 0xFFFFFFFF then
                  some (.inl ((k.tasksPidFree pid).pagingUpdateControl (k.field .pid)))
                else some (.inr (pid, parse, k))

/-- The new PCB is filled in, the registers of the running process are saved and the
program is entered. `term` is read once the new PCB is initialised. -/
def enter (k : Kernel) (pid parent : Nat) (term : Kernel → Nat) (fargs : CStr) (f : Frame) :
    Kernel :=
  let newPCB := getPcb pid
  let k := k.withMem (pcbInit P.drivers k.mem newPCB)
  let k := k.withMem (setAll k.mem newPCB [(.pid, pid), (.espReg, newPCB + 0x2000 - 4),
    (.term, term k), (.parentPcb, parent)])
  let k := k.withMem (setArgs k.mem newPCB (strcpyBytes fargs))
  let k := (k.setTss (get k.mem newPCB .espReg)).saveRegs f.esp f.ebp
  { k with esp := k.tss.esp0 }

/-- `syscall_execute`. -/
def syscallExecute (k : Kernel) (command : Option CStr) (f : Frame) : Option (Outcome × Kernel) :=
  match command with
  | none => some (.returned (-1), k)
  | some command => do
      match ← P.loadProgram k command f with
      | .inl k => some (.returned (-1), k)
      | .inr (pid, parse, k) =>
          let k := (k.scheduleTask pid).unscheduleTask (k.field .pid)
          some (.entered pid, P.enter k pid k.curr (fun k => k.field .term) parse.fargs f)

/-- `"shell"`. -/
def shellCommand : CStr := cLit [115, 104, 101, 108, 108]

/-- `syscall_init_shell`. -/
def syscallInitShell (k : Kernel) (termNum : Nat) (f : Frame) : Option (Outcome × Kernel) := do
  match ← P.loadProgram k shellCommand f with
  | .inl k => some (.returned (-1), k)
  | .inr (pid, parse, k) =>
      let t ← Kernel.terminal termNum
      let k := { k with terms := k.terms.terminalOpen t }
      let k := k.scheduleTask pid
      some (.entered pid, P.enter k pid 0 (fun _ => termNum) parse.fargs f)

/-! ### Ending a program -/

/-- The loop of `syscall_halt` that closes the open files. -/
def closeAll (k : Kernel) (u : Fin 8 → Unspecified) : Option Kernel :=
  (List.finRange 8).foldlM (fun k fd =>
    if 2 ≤ fd.val ∧ k.field (.flags fd) ≠ 0 then (P.syscallClose k fd.val (u fd)).map (·.2)
    else some k) k

/-- The rest of `syscall_halt`, once the files are closed. The status is moved to `eax`
twice, and then `return 0` overwrites it. -/
def resumeParent (k : Kernel) (parent : Nat) : Outcome × Kernel :=
  let k := k.withMem (set k.mem parent .child 0)
  let k := k.tasksPidFree (k.field .pid)
  let parentPid := get k.mem parent .pid
  let k := (k.scheduleTask parentPid).unscheduleTask (k.field .pid)
  if 16 ≤ parentPid then (.returned (-1), k)
  else
    let k := (k.pagingUpdateControl parentPid).setTss (kernelStack parentPid)
    (.resumed 0, k.loadRegs parent)

/-- `syscall_halt`. Without a parent the shell is started anew, on the same stack. -/
def syscallHalt (k : Kernel) (_status : UInt8) (u : Fin 8 → Unspecified) (f : Frame) :
    Option (Outcome × Kernel) :=
  let parent := k.field .parentPcb
  if parent = 0 then
    let pid := k.field .pid
    let k := { k.tasksPidFree pid with esp := kernelStack pid }
    P.syscallInitShell k (k.field .term % 256) f
  else (P.closeAll k u).map fun k => resumeParent k parent

/-! ### The screen -/

/-- `syscall_vidmap` with `paging_map_video`, which stores the address of the screen
through `screen_start` before it reloads CR3. -/
def syscallVidmap (k : Kernel) (screenStart : Nat) : Option (Outcome × Kernel) :=
  let pid := k.field .pid
  if screenStart < 0x800000 ∨ 16 ≤ pid then some (.returned (-1), k)
  else do
    let k := { k with paging := k.paging.mapVideo P.pages pid }
    let k ← k.storeUser P screenStart [0x00, 0x80, 0xCB, 0x07]
    let k := { k with cr3 := pid }
    return (.returned (int32 (0x80000000 - 0x400000 + 0xB8 * 0x1000)), k.setField .vidmap 1)

end Platform

/-! ### Arguments -/

/-- `syscall_getargs`: the return value and the bytes stored from `buf[0]` on. `strlen` is
unsigned, so `nbytes` is compared as a `uint32_t`. -/
def Kernel.syscallGetargs (k : Kernel) (bufNull : Bool) (nbytes : Int) : Int × List UInt8 :=
  if bufNull = true ∨ nbytes = 0 then (-1, [])
  else
    let args := pcbArgs k.mem k.curr
    if uint32 nbytes < strlen args then (-1, []) else (0, strcpyBytes args)

end Linux391
