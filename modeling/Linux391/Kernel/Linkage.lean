import Linux391.Library.X86
import Linux391.Kernel.Idt

/-!
The assembly between programs, interrupts and the kernel (`kernel/asm_linkage.S`, and the
programs' `ece391syscall.S`).

The C functions behind the linkages are taken as they are compiled: whatever they do, they
return to their caller with the callee-saved registers and the stack above their arguments as
they found it (`Returned`). They may change the arguments themselves, which lie on the stack of
their caller.
-/

namespace Linux391.Linkage

open X86 FlatMemory

/-- `KERNEL_DS`. -/
def kernelDs : UInt32 := 0x18

/-- A C function of `args` words of arguments has returned. The `keep` words above the
arguments are still there. -/
structure Returned (args keep : Nat) (entry exit : Cpu) : Prop where
  eip : exit.eip = entry.word 0
  esp : exit.esp = (entry.drop 1).esp
  ebx : exit.regs.ebx = entry.regs.ebx
  esi : exit.regs.esi = entry.regs.esi
  edi : exit.regs.edi = entry.regs.edi
  ebp : exit.regs.ebp = entry.regs.ebp
  cs : exit.cs = entry.cs
  ss : exit.ss = entry.ss
  stack : ∀ i < 4 * keep, exit.mem (entry.esp + UInt32.ofNat (4 * (1 + args) + i)) =
    entry.mem (entry.esp + UInt32.ofNat (4 * (1 + args) + i))

/-- What the processor does to the flags on the way through a gate. -/
def gateFlags (kind : GateKind) (eflags : UInt32) : UInt32 :=
  if kind = .interrupt then eflags &&& ~~~0x200 else eflags

/-- Entry through a gate, with the stack of the task state segment. -/
def enterGate (esp0 : UInt32) (g : Gate) (c : Cpu) : Cpu :=
  c.enter esp0 kernelDs (UInt32.ofNat g.selector) (UInt32.ofNat g.offset) (gateFlags g.kind)

/-- `keyboard_linkage`, `rtc_linkage` and `pit_linkage`: they differ in the handler and in the
address behind the call. -/
def irqLinkage (handler : Cpu → Cpu) (popal : UInt32) (c : Cpu) : Cpu :=
  (handler (c.pushal.push popal)).popal.iret

/-- The handler's view when it is called. -/
def irqEntry (esp0 : UInt32) (g : Gate) (popal : UInt32) (c : Cpu) : Cpu :=
  (enterGate esp0 g c).pushal.push popal

variable {args keep : Nat} {entry exit c : Cpu} {vs ws : List UInt32}

/-- After the return of a function the words above its arguments are on the stack, above its
arguments. -/
theorem Returned.stacked (returned : Returned args keep entry exit) (kept : ws.length ≤ keep)
    (arguments : vs.length = 1 + args) (stacked : entry.Stacked (vs ++ ws)) :
    (exit.drop args).Stacked ws := by
  have above : (entry.drop vs.length).Stacked ws := stacked.drop
  have place : (exit.drop args).esp = (entry.drop vs.length).esp := by
    rw [Cpu.drop, Cpu.drop, returned.esp, arguments, Nat.mul_add, UInt32.ofNat_add]
    exact UInt32.add_assoc ..
  unfold Cpu.Stacked
  rw [place]
  refine Holds.congr (fun i inside => ?_) above
  have same := returned.stack i (by omega)
  rw [← add_ofNat_add, ← arguments] at same
  exact same

/-- A function has been called with the frame of a gate on the stack, below it `more` words and
the arguments. Once all these are off, `iret` goes back. -/
theorem Returned.iret {esp0 : UInt32} {g : Gate} {r : Cpu}
    (returned : Returned args keep ((enterGate esp0 g c).pushAll vs) exit) (more : Nat)
    (pushes : vs.length = 1 + args + more) (short : vs.length < 100)
    (kept : more + (c.frame (UInt32.ofNat g.selector)).length ≤ keep)
    (mem : r.mem = exit.mem) (esp : r.esp = (exit.drop (args + more)).esp) (cs : r.cs = exit.cs)
    (ss : r.ss = exit.ss) : r.iret = { c with regs := r.regs, mem := exit.mem } := by
  have before : (enterGate esp0 g c).Stacked (c.frame (UInt32.ofNat g.selector)) := Cpu.stacked_enter
  have frame := c.length_frame_le (UInt32.ofNat g.selector)
  have onEntry : ((enterGate esp0 g c).pushAll vs).Stacked
      (vs.reverse ++ c.frame (UInt32.ofNat g.selector)) := before.pushAll (by omega)
  rw [← List.take_append_drop (1 + args) vs.reverse, List.append_assoc] at onEntry
  have onExit := (returned.stacked (by simp; omega) (by simp; omega) onEntry).drop
  have off : ((exit.drop args).drop (vs.reverse.drop (1 + args)).length).esp = r.esp := by
    have rest : (vs.reverse.drop (1 + args)).length = more := by simp; omega
    rw [esp, rest, Cpu.drop, Cpu.drop, Cpu.drop, add_ofNat_add, Nat.mul_add]
  have top : ((enterGate esp0 g c).pushAll vs).esp =
      (enterGate esp0 g c).esp - UInt32.ofNat (4 * vs.length) := by rw [Cpu.pushAll_eq]
  have back : r.esp = (enterGate esp0 g c).esp := by
    rw [esp, Cpu.drop, returned.esp, Cpu.drop, top, add_ofNat_add, pushes]
    have all : 4 * 1 + 4 * (args + more) = 4 * (1 + args + more) := by omega
    rw [all]
    exact UInt32.sub_add_cancel ..
  have stacked : r.Stacked (c.frame (UInt32.ofNat g.selector)) := by
    unfold Cpu.Stacked at onExit ⊢
    rw [off] at onExit
    rw [mem]
    exact onExit
  have code : r.cs = UInt32.ofNat g.selector := by
    rw [cs, returned.cs, Cpu.pushAll_eq]
    rfl
  have segment : r.ss = (enterGate esp0 g c).ss := by rw [ss, returned.ss, Cpu.pushAll_eq]
  exact mem ▸ Cpu.iret_of_frame code back segment stacked

section Irq

variable {esp0 popal : UInt32} {g : Gate}

theorem irqEntry_eq : irqEntry esp0 g popal c = (enterGate esp0 g c).pushAll [c.regs.eax, c.regs.ecx,
    c.regs.edx, c.regs.ebx, (enterGate esp0 g c).esp, c.regs.ebp, c.regs.esi, c.regs.edi, popal] := by
  have regs : (enterGate esp0 g c).regs = c.regs := Cpu.regs_enter
  rw [irqEntry, Cpu.pushal, regs]
  rfl

/-- On the stack of the handler are its return address, the registers and the way back. -/
theorem stacked_irqEntry : (irqEntry esp0 g popal c).Stacked ([popal] ++
    (Cpu.saved c.regs (enterGate esp0 g c).esp ++ c.frame (UInt32.ofNat g.selector))) := by
  have before : (enterGate esp0 g c).Stacked (c.frame (UInt32.ofNat g.selector)) := Cpu.stacked_enter
  rw [irqEntry_eq]
  refine before.pushAll ?_
  have short := c.length_frame_le (UInt32.ofNat g.selector)
  simp only [List.length_cons, List.length_nil]
  omega

/-- Nothing else has changed in memory. -/
theorem mem_irqEntry {x : UInt32} (far : 4 * ((c.frame (UInt32.ofNat g.selector)).length + 9) ≤
    (x - (irqEntry esp0 g popal c).esp).toNat) : (irqEntry esp0 g popal c).mem x = c.mem x := by
  rw [irqEntry_eq] at far ⊢
  exact Cpu.mem_enter_pushAll far

/-- An interrupt is invisible to what it interrupts, a program or the kernel itself: once the
handler has returned, the processor is as it was, with the memory the handler has left. The
handler finds the memory as it was, but for the words pushed on its stack. -/
theorem irqLinkage_transparent (handler : Cpu → Cpu)
    (returns : Returned 0 (8 + (c.frame (UInt32.ofNat g.selector)).length)
      (irqEntry esp0 g popal c) (handler (irqEntry esp0 g popal c))) :
    irqLinkage handler popal (enterGate esp0 g c) =
        { c with mem := (handler (irqEntry esp0 g popal c)).mem } ∧
      ∀ x, 4 * ((c.frame (UInt32.ofNat g.selector)).length + 9) ≤
          (x - (irqEntry esp0 g popal c).esp).toNat →
        (irqEntry esp0 g popal c).mem x = c.mem x := by
  have onExit := returns.stacked (by simp [Cpu.saved]; omega) rfl stacked_irqEntry
  rw [Cpu.drop_zero] at onExit
  obtain ⟨restored, -⟩ := Cpu.popal_of_saved onExit
  have linked : irqLinkage handler popal (enterGate esp0 g c) =
      (handler (irqEntry esp0 g popal c)).popal.iret := rfl
  rw [linked, restored]
  refine ⟨?_, fun x far => mem_irqEntry far⟩
  rw [irqEntry_eq] at returns ⊢
  exact returns.iret 8 rfl (by simp) le_rfl rfl rfl rfl rfl

end Irq

/-! ### System calls -/

inductive Syscall where
  | halt
  | execute
  | read
  | write
  | open
  | close
  | getargs
  | vidmap
  | setHandler
  | sigreturn
  | initShell
  deriving DecidableEq, Repr

/-- `__syscalls_jumptable`; the first entry is no function. -/
def syscallsJumptable : List (Option Syscall) :=
  [none, some .halt, some .execute, some .read, some .write, some .open, some .close,
    some .getargs, some .vidmap, some .setHandler, some .sigreturn, some .initShell]

/-- `SYS_HALT` to `SYS_INIT_SHELL`, the numbers of the wrappers. -/
def Syscall.number : Syscall → UInt32
  | .halt => 1
  | .execute => 2
  | .read => 3
  | .write => 4
  | .open => 5
  | .close => 6
  | .getargs => 7
  | .vidmap => 8
  | .setHandler => 9
  | .sigreturn => 10
  | .initShell => 11

/-- The number in `eax` is compared as a signed one. -/
def inRange (eax : UInt32) : Prop := ¬ eax.toBitVec.toInt < 1 ∧ ¬ 11 < eax.toBitVec.toInt

instance (eax : UInt32) : Decidable (inRange eax) := inferInstanceAs (Decidable (_ ∧ _))

/-- `syscall_linkage`. `call` are the C functions, `cleanup` is the address behind the call. -/
def syscallLinkage (call : Syscall → Cpu → Cpu) (cleanup : UInt32) (c : Cpu) : Cpu :=
  let c := c.pushAll [c.regs.edx, c.regs.ecx, c.regs.ebx]
  let c := if inRange c.regs.eax then
      match syscallsJumptable.getD c.regs.eax.toNat none with
      | some s => call s (c.push cleanup)
      | none => c
    else { c with regs := { c.regs with eax := -1 } }
  let c := { c.drop 3 with regs := { c.regs with ebx := c.word 0, ecx := c.word 1, edx := c.word 2 } }
  c.iret

/-- Each wrapper's number is that of its function in the table. -/
theorem number_table (s : Syscall) :
    inRange s.number ∧ syscallsJumptable.getD s.number.toNat none = some s := by
  cases s <;> decide

/-- `int`: the gate must be open to the program. `code` is what lies at an address. -/
def int (idt : Idt) (code : Nat → Cpu → Cpu) (esp0 : UInt32) (v : Fin 256) (c : Cpu) : Option Cpu :=
  (idt.gate v).bind fun g =>
    if g.Callable (c.cs &&& 3).toNat then some (code g.offset (enterGate esp0 g c)) else none

/-- `DO_CALL` up to its `int`: `ebx` is saved, and the number and three words of arguments are
loaded. `next` is the address behind the `int`. -/
def doCallEnter (number next : UInt32) (c : Cpu) : Cpu :=
  let c := c.push c.regs.ebx
  let c := { c with regs := { c.regs with eax := number } }
  let c := { c with regs := { c.regs with ebx := c.word 2 } }
  let c := { c with regs := { c.regs with ecx := c.word 3 } }
  let c := { c with regs := { c.regs with edx := c.word 4 } }
  { c with eip := next }

/-- `DO_CALL`. -/
def doCall (interrupt : Cpu → Option Cpu) (number next : UInt32) (c : Cpu) : Option Cpu :=
  (interrupt (doCallEnter number next c)).map fun c =>
    { c.drop 1 with regs := { c.regs with ebx := c.word 0 } }.ret

section Call

variable {esp0 cleanup number next : UInt32} {g : Gate} {call : Syscall → Cpu → Cpu} {s : Syscall}

/-- The call as the C function finds it: its return address, three words of arguments, and
above them the way back. -/
def syscallEntry (esp0 : UInt32) (g : Gate) (cleanup : UInt32) (c : Cpu) : Cpu :=
  (enterGate esp0 g c).pushAll [c.regs.edx, c.regs.ecx, c.regs.ebx, cleanup]

theorem stacked_syscallEntry : (syscallEntry esp0 g cleanup c).Stacked
    ([cleanup, c.regs.ebx, c.regs.ecx, c.regs.edx] ++ c.frame (UInt32.ofNat g.selector)) := by
  have before : (enterGate esp0 g c).Stacked (c.frame (UInt32.ofNat g.selector)) := Cpu.stacked_enter
  refine before.pushAll ?_
  have short := c.length_frame_le (UInt32.ofNat g.selector)
  simp only [List.length_cons, List.length_nil]
  omega

/-- A call with a number of the table comes back with what the C function has returned. -/
theorem syscallLinkage_call (range : inRange c.regs.eax)
    (entry : syscallsJumptable.getD c.regs.eax.toNat none = some s)
    (returned : Returned 3 5 (syscallEntry esp0 g cleanup c)
      (call s (syscallEntry esp0 g cleanup c))) :
    ∃ regs : Regs, regs.eax = (call s (syscallEntry esp0 g cleanup c)).regs.eax ∧
      regs.esi = c.regs.esi ∧ regs.edi = c.regs.edi ∧ regs.ebp = c.regs.ebp ∧
      syscallLinkage call cleanup (enterGate esp0 g c) =
        { c with regs := regs, mem := (call s (syscallEntry esp0 g cleanup c)).mem } := by
  have regs : (enterGate esp0 g c).regs = c.regs := Cpu.regs_enter
  have seen : (syscallEntry esp0 g cleanup c).regs = c.regs := by
    rw [syscallEntry, Cpu.pushAll_eq]
    exact regs
  have frame := c.length_frame_le (UInt32.ofNat g.selector)
  have linked : syscallLinkage call cleanup (enterGate esp0 g c) =
      Cpu.iret { (call s (syscallEntry esp0 g cleanup c)).drop 3 with
        regs := { (call s (syscallEntry esp0 g cleanup c)).regs with
          ebx := (call s (syscallEntry esp0 g cleanup c)).word 0
          ecx := (call s (syscallEntry esp0 g cleanup c)).word 1
          edx := (call s (syscallEntry esp0 g cleanup c)).word 2 } } := by
    have kept : ((enterGate esp0 g c).pushAll [c.regs.edx, c.regs.ecx, c.regs.ebx]).regs = c.regs := by
      rw [Cpu.pushAll_eq]
      exact regs
    simp only [syscallLinkage, regs, kept, if_pos range, entry]
    rfl
  rw [linked]
  generalize exited : call s (syscallEntry esp0 g cleanup c) = exit at *
  refine ⟨_, ?_, ?_, ?_, ?_, returned.iret 0 rfl (by simp) (by omega) rfl rfl rfl rfl⟩
  · rfl
  · exact returned.esi.trans (by rw [seen])
  · exact returned.edi.trans (by rw [seen])
  · exact returned.ebp.trans (by rw [seen])

/-- Any other number gives -1, and nothing but the kernel stack is written. -/
theorem syscallLinkage_fail (range : ¬ inRange c.regs.eax) :
    syscallLinkage call cleanup (enterGate esp0 g c) =
      { c with
        regs := { c.regs with eax := -1 }
        mem := ((enterGate esp0 g c).pushAll [c.regs.edx, c.regs.ecx, c.regs.ebx]).mem } := by
  have regs : (enterGate esp0 g c).regs = c.regs := Cpu.regs_enter
  have before : (enterGate esp0 g c).Stacked (c.frame (UInt32.ofNat g.selector)) := Cpu.stacked_enter
  have frame := c.length_frame_le (UInt32.ofNat g.selector)
  have saved : ((enterGate esp0 g c).pushAll [c.regs.edx, c.regs.ecx, c.regs.ebx]).Stacked
      ([c.regs.ebx, c.regs.ecx, c.regs.edx] ++ c.frame (UInt32.ofNat g.selector)) :=
    before.pushAll (by simp only [List.length_cons, List.length_nil]; omega)
  have shape := Cpu.pushAll_eq (c := enterGate esp0 g c) [c.regs.edx, c.regs.ecx, c.regs.ebx]
  have esp : (((enterGate esp0 g c).pushAll [c.regs.edx, c.regs.ecx, c.regs.ebx]).drop 3).esp =
      (enterGate esp0 g c).esp := by
    rw [shape]
    exact UInt32.sub_add_cancel ..
  have kept : ((enterGate esp0 g c).pushAll [c.regs.edx, c.regs.ecx, c.regs.ebx]).regs = c.regs := by
    rw [shape]
    exact regs
  have linked : syscallLinkage call cleanup (enterGate esp0 g c) =
      Cpu.iret { ((enterGate esp0 g c).pushAll [c.regs.edx, c.regs.ecx, c.regs.ebx]).drop 3 with
        regs := { c.regs with eax := -1 } } := by
    simp only [syscallLinkage, regs, kept, if_neg range]
    have first := saved.word (k := 0) rfl
    have second := saved.word (k := 1) rfl
    have third := saved.word (k := 2) rfl
    simp only [Cpu.word, Cpu.drop] at first second third ⊢
    rw [first, second, third]
  rw [linked]
  have cs : ((enterGate esp0 g c).pushAll [c.regs.edx, c.regs.ecx, c.regs.ebx]).cs =
      UInt32.ofNat g.selector := by
    rw [shape]
    rfl
  have ss : ((enterGate esp0 g c).pushAll [c.regs.edx, c.regs.ecx, c.regs.ebx]).ss =
      (enterGate esp0 g c).ss := by rw [shape]
  exact Cpu.iret_of_frame cs esp ss saved.drop

end Call

/-! ### From the program's side -/

section Program

variable {sym : Symbols} {idt : Idt} {code : Nat → Cpu → Cpu} {esp0 cleanup number next : UInt32}
  {call : Syscall → Cpu → Cpu} {s : Syscall}

/-- The gate of system calls. -/
def syscallGate (sym : Symbols) : Gate := ⟨sym.address .syscallLinkage, kernelCs, 3, .trap⟩

theorem gate_syscall : (kernelIdt sym idt).gate 0x80 = some (syscallGate sym) := gate_installed

/-- Every program may use the gate. -/
theorem int_syscall (linked : code (sym.address .syscallLinkage) = syscallLinkage call cleanup) :
    int (kernelIdt sym idt) code esp0 0x80 c =
      some (syscallLinkage call cleanup (enterGate esp0 (syscallGate sym) c)) := by
  have level : (syscallGate sym).Callable (c.cs &&& 3).toNat := by
    rw [Gate.Callable, UInt32.toNat_and]
    exact Nat.and_le_right
  rw [int, gate_syscall, Option.bind_some, if_pos level]
  exact congrArg some (congrFun linked _)

/-- What the wrapper has on the program's stack when it enters the kernel. -/
theorem stacked_doCallEnter : (doCallEnter number next c).Stacked
    [c.regs.ebx, c.word 0, c.word 1, c.word 2, c.word 3] := by
  have words : c.Stacked [c.word 0, c.word 1, c.word 2, c.word 3] := by
    refine ⟨?_, ?_, ?_, ?_, trivial⟩ <;> refine congrArg (load32 c.mem) ?_
    · exact (UInt32.add_zero c.esp).symm
    · rfl
    · exact UInt32.add_assoc ..
    · rw [UInt32.add_assoc, UInt32.add_assoc]
      rfl
  have pushed : (c.pushAll [c.regs.ebx]).Stacked
      ([c.regs.ebx] ++ [c.word 0, c.word 1, c.word 2, c.word 3]) := words.pushAll (by simp)
  exact pushed

theorem regs_doCallEnter : (doCallEnter number next c).regs =
    { c.regs with eax := number, ebx := c.word 1, ecx := c.word 2, edx := c.word 3 } := by
  have stacked : (doCallEnter number next c).Stacked _ := stacked_doCallEnter
  have first : (c.push c.regs.ebx).word 2 = c.word 1 := stacked.word (k := 2) rfl
  have second : (c.push c.regs.ebx).word 3 = c.word 2 := stacked.word (k := 3) rfl
  have third : (c.push c.regs.ebx).word 4 = c.word 3 := stacked.word (k := 4) rfl
  have loaded : (doCallEnter number next c).regs = { c.regs with
      eax := number, ebx := (c.push c.regs.ebx).word 2, ecx := (c.push c.regs.ebx).word 3
      edx := (c.push c.regs.ebx).word 4 } := rfl
  rw [loaded, first, second, third]

/-- A call of the wrapper, as the C function finds it. -/
def callEntry (sym : Symbols) (esp0 cleanup number next : UInt32) (c : Cpu) : Cpu :=
  syscallEntry esp0 (syscallGate sym) cleanup (doCallEnter number next c)

theorem callEntry_arguments :
    (callEntry sym esp0 cleanup number next c).word 1 = c.word 1 ∧
      (callEntry sym esp0 cleanup number next c).word 2 = c.word 2 ∧
      (callEntry sym esp0 cleanup number next c).word 3 = c.word 3 := by
  have stacked : (callEntry sym esp0 cleanup number next c).Stacked _ := stacked_syscallEntry
  rw [regs_doCallEnter] at stacked
  exact ⟨stacked.word rfl, stacked.word rfl, stacked.word rfl⟩

/-- From a program the kernel is entered on its own stack. -/
theorem changes_stack (user : c.cs &&& 3 = 3) :
    ¬ UInt32.ofNat (syscallGate sym).selector &&& 3 = (doCallEnter number next c).cs &&& 3 := by
  have kept : (doCallEnter number next c).cs = c.cs := rfl
  have selector : UInt32.ofNat (syscallGate sym).selector &&& 3 = 0 := by
    change UInt32.ofNat kernelCs &&& 3 = 0
    decide
  rw [kept, user, selector]
  decide

theorem esp_kernel_pushAll (user : c.cs &&& 3 = 3) (vs : List UInt32) :
    ((enterGate esp0 (syscallGate sym) (doCallEnter number next c)).pushAll vs).esp =
      esp0 - UInt32.ofNat (20 + 4 * vs.length) := by
  rw [Cpu.pushAll_eq, enterGate, Cpu.enter]
  simp only [if_neg (changes_stack user), Cpu.pushAll_eq, List.length_cons, List.length_nil]
  have joined : esp0 - UInt32.ofNat 20 - UInt32.ofNat (4 * vs.length) =
      esp0 - UInt32.ofNat (20 + 4 * vs.length) := by
    rw [UInt32.ofNat_add]
    grind
  exact joined

/-- The kernel's own pushes leave the program's memory alone. -/
theorem mem_kernel_pushAll (user : c.cs &&& 3 = 3) {vs : List UInt32} (short : vs.length ≤ 4)
    {x : UInt32} (far : 36 ≤ (x - (esp0 - UInt32.ofNat 36)).toNat) :
    ((enterGate esp0 (syscallGate sym) (doCallEnter number next c)).pushAll vs).mem x =
      (doCallEnter number next c).mem x := by
  refine Cpu.mem_enter_pushAll ?_
  have five : ((doCallEnter number next c).frame (UInt32.ofNat (syscallGate sym).selector)).length =
      5 := by
    rw [Cpu.frame, if_neg (changes_stack user)]
    rfl
  have top : ((enterGate esp0 (syscallGate sym) (doCallEnter number next c)).pushAll vs).esp = _ :=
    esp_kernel_pushAll user vs
  change 4 * (_ + vs.length) ≤
    (x - ((enterGate esp0 (syscallGate sym) (doCallEnter number next c)).pushAll vs).esp).toNat
  rw [five, top]
  -- the window of these pushes is the upper part of the one of nine words
  have inner : x - (esp0 - UInt32.ofNat (20 + 4 * vs.length)) =
      x - (esp0 - UInt32.ofNat 36) - UInt32.ofNat (16 - 4 * vs.length) := by
    have sum : UInt32.ofNat 36 =
        UInt32.ofNat (20 + 4 * vs.length) + UInt32.ofNat (16 - 4 * vs.length) := by
      rw [← UInt32.ofNat_add]
      congr 1
      omega
    rw [sum]
    grind
  have less : UInt32.ofNat (16 - 4 * vs.length) ≤ x - (esp0 - UInt32.ofNat 36) := by
    rw [UInt32.le_iff_toNat_le, toNat_ofNat_of_lt (by omega)]
    omega
  rw [inner, UInt32.toNat_sub_of_le _ _ less, toNat_ofNat_of_lt (by omega)]
  omega

/-- The C function behind a number behaves as one: it returns, and it leaves alone the two words
that the wrapper has left on the program's stack. -/
structure Behaves (entry exit : Cpu) (frame : UInt32) : Prop where
  returned : Returned 3 5 entry exit
  program : ∀ i < 8, exit.mem (frame + UInt32.ofNat i) = entry.mem (frame + UInt32.ofNat i)

/-- The end of the wrapper, when the kernel has come back to it and the two words it has left on
the stack are still there. -/
theorem doCall_back {interrupt : Cpu → Option Cpu} {regs : Regs} {mem : Space}
    (back : interrupt (doCallEnter number next c) =
      some { doCallEnter number next c with regs := regs, mem := mem })
    (two : Holds mem (c.esp - 4) ([c.regs.ebx] ++ [c.word 0])) :
    doCall interrupt number next c = some { c with
      regs := { regs with ebx := c.regs.ebx }, mem := mem, eip := c.word 0, esp := c.esp + 4 } := by
  have saved : Cpu.Stacked { doCallEnter number next c with regs := regs, mem := mem }
      ([c.regs.ebx] ++ [c.word 0]) := two
  have ebx := saved.word (k := 0) rfl
  have eip := saved.drop.word (k := 0) rfl
  have esp : (doCallEnter number next c).esp + UInt32.ofNat (4 * 1) + UInt32.ofNat (4 * 1) =
      c.esp + 4 := by
    have first : c.esp - 4 + UInt32.ofNat (4 * 1) = c.esp := UInt32.sub_add_cancel ..
    exact congrArg (· + UInt32.ofNat (4 * 1)) first
  simp only [Cpu.word, Cpu.drop, List.length_cons, List.length_nil, Nat.zero_add] at ebx eip
  rw [doCall, back, Option.map_some, Option.some.injEq]
  simp only [Cpu.ret, Cpu.word, Cpu.drop, ebx, eip, esp]
  rfl

/-- The wrapper's two words, in memory that has not changed there since. -/
theorem holds_wrapper (number next : UInt32) {mem : Space}
    (same : ∀ i < 8, mem (c.esp - 4 + UInt32.ofNat i) =
      (doCallEnter number next c).mem (c.esp - 4 + UInt32.ofNat i)) :
    Holds mem (c.esp - 4) ([c.regs.ebx] ++ [c.word 0]) := by
  have entered : (doCallEnter number next c).Stacked _ := stacked_doCallEnter
  have own : Holds (doCallEnter number next c).mem (c.esp - 4) ([c.regs.ebx] ++ [c.word 0]) :=
    ⟨entered.1, entered.2.1, trivial⟩
  exact own.congr same

theorem doCall_of_table (linked : code (sym.address .syscallLinkage) = syscallLinkage call cleanup)
    (user : c.cs &&& 3 = 3) (range : inRange number)
    (table : syscallsJumptable.getD number.toNat none = some s)
    (apart : ∀ i < 8, 36 ≤ (c.esp - 4 + UInt32.ofNat i - (esp0 - UInt32.ofNat 36)).toNat)
    (behaves : Behaves (callEntry sym esp0 cleanup number next c)
      (call s (callEntry sym esp0 cleanup number next c)) (c.esp - 4)) :
    ∃ regs : Regs,
      doCall (int (kernelIdt sym idt) code esp0 0x80) number next c = some { c with
        regs := regs, mem := (call s (callEntry sym esp0 cleanup number next c)).mem
        eip := c.word 0, esp := c.esp + 4 } ∧
      regs.eax = (call s (callEntry sym esp0 cleanup number next c)).regs.eax ∧
      regs.ebx = c.regs.ebx ∧ regs.esi = c.regs.esi ∧ regs.edi = c.regs.edi ∧
      regs.ebp = c.regs.ebp := by
  have returned : Returned 3 5
      (syscallEntry esp0 (syscallGate sym) cleanup (doCallEnter number next c))
      (call s (syscallEntry esp0 (syscallGate sym) cleanup (doCallEnter number next c))) :=
    behaves.returned
  have number_eq : (doCallEnter number next c).regs.eax = number := rfl
  rw [← number_eq] at range table
  obtain ⟨regs, eax, esi, edi, ebp, back⟩ := syscallLinkage_call range table returned
  have two : Holds (call s (callEntry sym esp0 cleanup number next c)).mem (c.esp - 4)
      ([c.regs.ebx] ++ [c.word 0]) := by
    refine holds_wrapper number next fun i inside => ?_
    rw [behaves.program i inside]
    exact mem_kernel_pushAll user le_rfl (apart i inside)
  have entered : int (kernelIdt sym idt) code esp0 0x80 (doCallEnter number next c) = _ :=
    int_syscall linked
  exact ⟨_, doCall_back (entered.trans (congrArg some back)) two, eax, rfl, esi, edi, ebp⟩

/-- For the program a system call is a function call: the C function of the wrapper's name is
called with the three words of arguments, what it returns comes back, and the program goes on
behind the call with its stack and all registers that a function has to keep. -/
theorem doCall_returns (s : Syscall)
    (linked : code (sym.address .syscallLinkage) = syscallLinkage call cleanup)
    (user : c.cs &&& 3 = 3)
    (apart : ∀ i < 8, 36 ≤ (c.esp - 4 + UInt32.ofNat i - (esp0 - UInt32.ofNat 36)).toNat)
    (behaves : Behaves (callEntry sym esp0 cleanup s.number next c)
      (call s (callEntry sym esp0 cleanup s.number next c)) (c.esp - 4)) :
    ((callEntry sym esp0 cleanup s.number next c).word 1 = c.word 1 ∧
      (callEntry sym esp0 cleanup s.number next c).word 2 = c.word 2 ∧
      (callEntry sym esp0 cleanup s.number next c).word 3 = c.word 3) ∧
    ∃ regs : Regs,
      doCall (int (kernelIdt sym idt) code esp0 0x80) s.number next c = some { c with
        regs := regs, mem := (call s (callEntry sym esp0 cleanup s.number next c)).mem
        eip := c.word 0, esp := c.esp + 4 } ∧
      regs.eax = (call s (callEntry sym esp0 cleanup s.number next c)).regs.eax ∧
      regs.ebx = c.regs.ebx ∧ regs.esi = c.regs.esi ∧ regs.edi = c.regs.edi ∧
      regs.ebp = c.regs.ebp :=
  have ⟨range, table⟩ := number_table s
  ⟨callEntry_arguments, doCall_of_table linked user range table apart behaves⟩

/-- A program at the call of a wrapper. -/
def sampleCpu : Cpu where
  regs := ⟨1, 2, 3, 4, 5, 6, 7⟩
  esp := 0x83FFF00
  eip := 0x8048100
  eflags := 0x202
  cs := 0x23
  ss := 0x2B
  mem := fun _ => 0

/-- A function that only returns 42. -/
def returns42 (c : Cpu) : Cpu := { c.ret with regs := { c.regs with eax := 42 } }

theorem returned_returns42 (args keep : Nat) (c : Cpu) : Returned args keep c (returns42 c) :=
  ⟨rfl, rfl, rfl, rfl, rfl, rfl, rfl, rfl, fun _ _ => rfl⟩

/-- The timer's handler in the middle of a program, if it did nothing. -/
theorem irqLinkage_transparent_program :
    irqLinkage returns42 0 (enterGate 0x7FFFFC ⟨0x400000, kernelCs, 0, .interrupt⟩ sampleCpu) =
      { sampleCpu with
        mem := (returns42 (irqEntry 0x7FFFFC ⟨0x400000, kernelCs, 0, .interrupt⟩ 0 sampleCpu)).mem } :=
  (irqLinkage_transparent returns42 (returned_returns42 0 _ _)).1

/-- Programs that call the functions above. -/
def sampleInt (v : Fin 256) : Cpu → Option Cpu :=
  int (kernelIdt sampleSymbols sampleIdt) (fun _ => syscallLinkage (fun _ => returns42) 0)
    0x7FFFFC v

theorem doCall_returns_write : ∃ regs : Regs, regs.eax = 42 ∧ regs.ebx = 2 ∧
    (doCall (sampleInt 0x80) 4 0x8048123 sampleCpu).map (·.regs) = some regs := by
  have called : ∃ regs : Regs,
      doCall (sampleInt 0x80) Syscall.write.number 0x8048123 sampleCpu = _ ∧ _ :=
    (doCall_returns .write rfl rfl (by decide) ⟨returned_returns42 3 5 _, fun _ _ => rfl⟩).2
  obtain ⟨regs, result, eax, ebx, -⟩ := called
  exact ⟨regs, eax, ebx, congrArg (Option.map _) result⟩

/-- `_start` when it calls `ece391_halt`, after `main` has returned. -/
def startHalt (main : Cpu → Cpu) (afterMain afterHalt : UInt32) (c : Cpu) : Cpu :=
  let c := main (c.push afterMain)
  (c.pushAll [0, 0, c.regs.eax]).push afterHalt

/-- What `main` returns is the status that `syscall_halt` gets. -/
theorem startHalt_status (main : Cpu → Cpu) (afterMain afterHalt : UInt32) :
    (callEntry sym esp0 cleanup number next (startHalt main afterMain afterHalt c)).word 1 =
      (main (c.push afterMain)).regs.eax := by
  rw [callEntry_arguments.1]
  have empty : (main (c.push afterMain)).Stacked [] := trivial
  have pushed : ((main (c.push afterMain)).pushAll
      [0, 0, (main (c.push afterMain)).regs.eax, afterHalt]).Stacked _ := empty.pushAll (by simp)
  have stacked : (startHalt main afterMain afterHalt c).Stacked
      [afterHalt, (main (c.push afterMain)).regs.eax, 0, 0] := pushed
  exact stacked.word rfl

/-- A call whose number is none of the table's returns -1 and calls nothing; of the memory
outside the kernel's stack only the word below the program's stack pointer is written. -/
theorem doCall_fails (linked : code (sym.address .syscallLinkage) = syscallLinkage call cleanup)
    (user : c.cs &&& 3 = 3) (range : ¬ inRange number)
    (apart : ∀ i < 8, 36 ≤ (c.esp - 4 + UInt32.ofNat i - (esp0 - UInt32.ofNat 36)).toNat) :
    ∃ (regs : Regs) (mem : Space),
      doCall (int (kernelIdt sym idt) code esp0 0x80) number next c = some { c with
        regs := regs, mem := mem, eip := c.word 0, esp := c.esp + 4 } ∧
      regs.eax = -1 ∧ regs.ebx = c.regs.ebx ∧ regs.esi = c.regs.esi ∧ regs.edi = c.regs.edi ∧
      regs.ebp = c.regs.ebp ∧
      ∀ x, 4 ≤ (x - (c.esp - 4)).toNat → 36 ≤ (x - (esp0 - UInt32.ofNat 36)).toNat →
        mem x = c.mem x := by
  have back : int (kernelIdt sym idt) code esp0 0x80 (doCallEnter number next c) = _ :=
    int_syscall linked
  have number_eq : (doCallEnter number next c).regs.eax = number := rfl
  rw [← number_eq] at range
  rw [syscallLinkage_fail range] at back
  have two : Holds ((enterGate esp0 (syscallGate sym) (doCallEnter number next c)).pushAll
      [(doCallEnter number next c).regs.edx, (doCallEnter number next c).regs.ecx,
        (doCallEnter number next c).regs.ebx]).mem (c.esp - 4) ([c.regs.ebx] ++ [c.word 0]) :=
    holds_wrapper number next fun i inside => mem_kernel_pushAll user (by simp) (apart i inside)
  refine ⟨_, _, doCall_back back two, rfl, rfl, rfl, rfl, rfl, fun x program kernel => ?_⟩
  exact (mem_kernel_pushAll user (by simp) kernel).trans (store32_of_far program)

theorem doCall_fails_twelve : ∃ regs : Regs, regs.eax = -1 ∧
    (doCall (sampleInt 0x80) 12 0x8048123 sampleCpu).map (·.regs) = some regs := by
  have called : ∃ (regs : Regs) (mem : Space),
      doCall (sampleInt 0x80) 12 0x8048123 sampleCpu = _ ∧ _ :=
    doCall_fails rfl rfl (by decide) (by decide)
  obtain ⟨regs, mem, result, eax, -⟩ := called
  exact ⟨regs, eax, congrArg (Option.map _) result⟩

end Program

end Linux391.Linkage
