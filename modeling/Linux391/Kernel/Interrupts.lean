import Linux391.Drivers.I8259
import Linux391.Drivers.Keyboard
import Linux391.Kernel.Idt
import Mathlib.Logic.Relation

/-!
Interrupts while the kernel runs (`kernel/asm_linkage.S`, `drivers/pit.c`,
`drivers/keyboard.c`, `drivers/rtc.c`, over `drivers/i8259.c` and `kernel/irq.c`).

A handler is the list of what it does to the controllers, to the interrupt flag and to its
device, and where it gives the processor away. It runs on the kernel stack of the process it
interrupted, and `scheduler_tick` in the middle of one goes on with another process, whose
stack may hold handlers of its own. `Step` interleaves all this in any order; the process
that runs next is left open.
-/

namespace Linux391.Interrupts

open Pic I8259

/-! ### The handlers -/

inductive Op where
  /-- The device's register is read: the keyboard's port, register C of the clock. -/
  | take (n : Fin 16)
  | eoi (n : Fin 16)
  | cli
  | sti
  /-- `scheduler_tick` -/
  | tick
  /-- `syscall_init_shell` -/
  | initShell
  /-- `while(1);` -/
  | spin
  deriving DecidableEq, Repr

def pitHandler : List Op := [.eoi 0, .tick]

def rtcIrqHandler : List Op := [.take 8, .eoi 8]

/-- The handler starts a shell on the terminal that a function key has switched to. -/
def startsShell (shellActive : Fin 4 → UInt8) : KeyAction → Bool
  | .altFn t => t.val ≠ 0 && shellActive t ≠ 1
  | .inputProcessKey .. => false

def keyboardHandler (kb : Keyboard) (shellActive : Fin 4 → UInt8) (beyond code : UInt8) : List Op :=
  let actions := (kb.handler beyond code).2
  .take 1 :: (if actions = [] then []
    else .cli :: ((if actions.any (startsShell shellActive) then [.eoi 1, .sti, .initShell] else []) ++
      [.sti])) ++ [.eoi 1]

/-- What a handler does once it has been entered. -/
inductive Runs : Handler → List Op → Prop where
  | pit : Runs .pitLinkage pitHandler
  | keyboard (kb : Keyboard) (shellActive : Fin 4 → UInt8) (beyond code : UInt8) :
      Runs .keyboardLinkage (keyboardHandler kb shellActive beyond code)
  | rtc : Runs .rtcLinkage rtcIrqHandler
  | other {h : Handler} : h ≠ .pitLinkage → h ≠ .keyboardLinkage → h ≠ .rtcLinkage → Runs h [.spin]

/-! ### The machine -/

/-- A handler that has been entered and has not returned. -/
structure Activation where
  line : Fin 16
  todo : List Op

structure Machine (P : Type) where
  pics : Pair
  ifFlag : Bool
  /-- The device of the line has asked and waits for its register to be read. -/
  held : Fin 16 → Bool
  stackOf : P → List Activation
  running : P

/-- The devices that ask once and then wait: the keyboard and the clock. -/
def latched (n : Fin 16) : Bool := n = 1 ∨ n = 8

section

variable {P : Type}

/-- A handler that has not returned has still to do `o`. -/
def Machine.Owes (s : Machine P) (o : Op) : Prop := ∃ p, ∃ a ∈ s.stackOf p, o ∈ a.todo

variable [DecidableEq P]

/-- The machine with another stack for the process that runs. -/
def Machine.setStack (s : Machine P) (stack : List Activation) : Machine P :=
  { s with stackOf := Function.update s.stackOf s.running stack }

/-- One operation of a handler. A shell that starts runs on a stack of its own and leaves the
handler behind; `scheduler_tick` goes on with any process. -/
inductive Does : Op → Machine P → Machine P → Prop where
  | take (s : Machine P) (n : Fin 16) :
      Does (.take n) s { s with held := Function.update s.held n false }
  | eoi (s : Machine P) (n : Fin 16) : Does (.eoi n) s { s with pics := sendEoi (irq n) s.pics }
  | cli (s : Machine P) : Does .cli s { s with ifFlag := false }
  | sti (s : Machine P) : Does .sti s { s with ifFlag := true }
  | tick (s : Machine P) (q : P) : Does .tick s { s with running := q }
  | started (s : Machine P) (q : P) : s.stackOf q = [] → Does .initShell s { s with running := q }
  | failed (s : Machine P) : Does .initShell s s

inductive Step (sym : Symbols) (idt : Idt) : Machine P → Machine P → Prop where
  /-- A device asks. -/
  | raise {s : Machine P} {n : Fin 16} : n ≠ 2 → s.held n = false →
      Step sym idt s
        { s with pics := s.pics.request n, held := Function.update s.held n (latched n) }
  /-- The processor takes the interrupt, through the gate of its vector. -/
  | accept {s : Machine P} {n : Fin 16} {v : Fin 256} {g : Gate} {h : Handler} {todo : List Op} :
      s.ifFlag = true → s.pics.next = some n → v.val = s.pics.vector n → idt.gate v = some g →
      g.offset = sym.address h → Runs h todo →
      Step sym idt s
        { s.setStack (⟨n, todo⟩ :: s.stackOf s.running) with
          pics := s.pics.ack n, ifFlag := g.kind = .trap }
  | op {s t : Machine P} {n : Fin 16} {o : Op} {todo : List Op} {below : List Activation} :
      s.stackOf s.running = ⟨n, o :: todo⟩ :: below →
      Does o (s.setStack (⟨n, todo⟩ :: below)) t → Step sym idt s t
  /-- The interrupt was taken with the flag set. -/
  | iret {s : Machine P} {n : Fin 16} {below : List Activation} :
      s.stackOf s.running = ⟨n, []⟩ :: below →
      Step sym idt s { s.setStack below with ifFlag := true }
  /-- Outside handlers the flag is set and cleared at will. -/
  | flag {s : Machine P} (b : Bool) : s.stackOf s.running = [] → Step sym idt s { s with ifFlag := b }
  /-- `pit_init`, `keyboard_init` or `rtc_init`. -/
  | enable {s : Machine P} {n : Fin 16} : s.stackOf s.running = [] → n = 0 ∨ n = 1 ∨ n = 8 →
      Step sym idt s { s with pics := enableIrq (irq n) s.pics }
  /-- `syscall_execute` goes on with a new process, `syscall_halt` with one that executed
  another. -/
  | leave {s : Machine P} (q : P) (b : Bool) : s.stackOf s.running = [] → s.stackOf q = [] →
      Step sym idt s { s with running := q, ifFlag := b }

/-- The machine after `i8259_init`, whatever the controllers did before. -/
def start (before : Pair) (p : P) : Machine P :=
  { pics := i8259Init before, ifFlag := false, held := fun _ => false, stackOf := fun _ => [],
    running := p }

/-- The machine can get here. -/
def Reached (sym : Symbols) (idt : Idt) (s : Machine P) : Prop :=
  ∃ before p, Relation.ReflTransGen (Step sym (kernelIdt sym idt)) (start before p) s

/-! ### The three handlers -/

/-- Where the interrupts of the open lines go. -/
def lineHandler (n : Fin 16) : Handler :=
  if n = 0 then .pitLinkage else if n = 1 then .keyboardLinkage else .rtcLinkage

/-- The lines that the kernel opens, apart from the one of the second controller. -/
def IsDevice (n : Fin 16) : Prop := n = 0 ∨ n = 1 ∨ n = 8

instance (n : Fin 16) : Decidable (IsDevice n) := inferInstanceAs (Decidable (_ ∨ _))

theorem mem_keyboardHandler {kb : Keyboard} {shellActive : Fin 4 → UInt8} {beyond code : UInt8}
    {o : Op} (mem : o ∈ keyboardHandler kb shellActive beyond code) :
    o = .take 1 ∨ o = .eoi 1 ∨ o = .cli ∨ o = .sti ∨ o = .initShell := by
  unfold keyboardHandler at mem
  dsimp only at mem
  split_ifs at mem <;> simp at mem <;> tauto

/-- A handler ends the line that it serves and reads its device. -/
theorem serves_of_runs {n : Fin 16} {todo : List Op} (device : IsDevice n)
    (runs : Runs (lineHandler n) todo) :
    Op.eoi n ∈ todo ∧ (latched n = true → Op.take n ∈ todo) := by
  rcases device with rfl | rfl | rfl
  · cases runs with
    | pit => decide
    | other pit => exact absurd rfl pit
  · cases runs with
    | keyboard => simp [keyboardHandler]
    | other _ keyboard => exact absurd rfl keyboard
  · cases runs with
    | rtc => decide
    | other _ _ rtc => exact absurd rfl rtc

/-- Only the keyboard's handler sets the flag, and only the timer's gives the processor away
with the flag clear. -/
theorem ops_of_runs {n : Fin 16} {todo : List Op} {o : Op} (device : IsDevice n)
    (runs : Runs (lineHandler n) todo) (mem : o ∈ todo) :
    (o = .sti ∨ o = .initShell → n = 1) ∧ (o = .tick → n = 0) ∧ o ≠ .spin := by
  rcases device with rfl | rfl | rfl
  · cases runs with
    | pit => revert mem; revert o; decide
    | other pit => exact absurd rfl pit
  · cases runs with
    | keyboard => rcases mem_keyboardHandler mem with rfl | rfl | rfl | rfl | rfl <;> simp
    | other _ keyboard => exact absurd rfl keyboard
  · cases runs with
    | rtc => revert mem; revert o; decide
    | other _ _ rtc => exact absurd rfl rtc

/-! ### The controllers -/

/-- The controllers as the kernel has set them up. -/
structure Wired (pics : Pair) : Prop where
  settled : pics.Settled
  vectors : ∀ n, pics.vector n = 0x20 + n.val
  opened : ∀ n, pics.on n Chip.imr = false → n = 2 ∨ IsDevice n
  through : pics.on 2 Chip.imr = false

theorem wired_start (before : Pair) : Wired (i8259Init before) := by
  rw [i8259Init_eq]
  exact ⟨initialised_settled, by decide, by decide, by decide⟩

variable {sym : Symbols} {idt : Idt} {s t : Machine P} {n m : Fin 16}

theorem Wired.request {pics : Pair} (w : Wired pics) : Wired (pics.request n) where
  settled := w.settled.request
  vectors m := Pair.vector_request.trans (w.vectors m)
  opened m isOpen := w.opened m (Pair.on_request_imr ▸ isOpen)
  through := Pair.on_request_imr.trans w.through

theorem Wired.ack {pics : Pair} (w : Wired pics) : Wired (pics.ack n) where
  settled := w.settled.ack
  vectors m := Pair.vector_ack.trans (w.vectors m)
  opened m isOpen := w.opened m (Pair.on_ack_imr ▸ isOpen)
  through := Pair.on_ack_imr.trans w.through

theorem Wired.sendEoi {pics : Pair} (w : Wired pics) : Wired (sendEoi (irq n) pics) := by
  rw [sendEoi_eq]
  exact {
    settled := w.settled.finish
    vectors := fun m => Pair.vector_finish.trans (w.vectors m)
    opened := fun m isOpen => w.opened m (Pair.on_finish_imr ▸ isOpen)
    through := Pair.on_finish_imr.trans w.through }

theorem Wired.enableIrq {pics : Pair} (w : Wired pics) (device : IsDevice n) :
    Wired (enableIrq (irq n) pics) := by
  rw [enableIrq_eq w.settled]
  refine ⟨w.settled.openLine, fun m => Pair.vector_openLine.trans (w.vectors m),
    fun m isOpen => ?_, ?_⟩
  · rw [Pair.on_openLine_imr] at isOpen
    by_cases same : m = n
    · exact .inr (same ▸ device)
    · exact w.opened m (by simpa [same] using isOpen)
  · rw [Pair.on_openLine_imr, w.through, Bool.false_and]

theorem wired_step (w : Wired s.pics) (step : Step sym idt s t) : Wired t.pics := by
  cases step with
  | raise => exact w.request
  | accept => exact w.ack
  | op _ does =>
    cases does with
    | eoi => exact w.sendEoi
    | _ => exact w
  | iret => exact w
  | flag => exact w
  | enable _ device => exact w.enableIrq device
  | leave => exact w

/-- An interrupt that the processor takes is one of the three, goes to its own handler, and
the flag is clear from there on. -/
theorem Wired.accepted {pics : Pair} {v : Fin 256} {g : Gate} {h : Handler} (w : Wired pics)
    (next : pics.next = some n) (vector : v.val = pics.vector n)
    (gate : (kernelIdt sym idt).gate v = some g) (goes : g.offset = sym.address h) :
    IsDevice n ∧ h = lineHandler n ∧ g.kind = .interrupt := by
  obtain ⟨notTwo, -, isOpen, -⟩ := Pair.next_spec next
  have device : IsDevice n := (w.opened n isOpen).resolve_left notTwo
  rw [w.vectors] at vector
  rw [gate_installed, Option.some.injEq] at gate
  subst gate
  have same : h = installed v := sym.address_injective goes.symm
  have table : ∀ n, IsDevice n → ∀ v : Fin 256, v.val = 0x20 + n.val →
      installed v = lineHandler n ∧ installedKind v = .interrupt := by
    rintro n (rfl | rfl | rfl) v value
    · obtain rfl : v = 0x20 := Fin.ext value
      decide
    · obtain rfl : v = 0x21 := Fin.ext value
      decide
    · obtain rfl : v = 0x28 := Fin.ext value
      decide
  exact ⟨device, same.trans (table n device v vector).1, (table n device v vector).2⟩

/-! ### What is still owed -/

theorem owes_setStack {o : Op} {stack : List Activation} (owes : s.Owes o)
    (kept : ∀ a ∈ s.stackOf s.running, o ∈ a.todo → ∃ a' ∈ stack, o ∈ a'.todo) :
    (s.setStack stack).Owes o := by
  obtain ⟨p, a, mem, has⟩ := owes
  by_cases same : p = s.running
  · subst same
    obtain ⟨a', mem', has'⟩ := kept a mem has
    exact ⟨s.running, a', by simpa [Machine.setStack] using mem', has'⟩
  · exact ⟨p, a, by simpa [Machine.setStack, same] using mem, has⟩

theorem owes_push {o : Op} {a : Activation} (owes : s.Owes o) :
    (s.setStack (a :: s.stackOf s.running)).Owes o :=
  owes_setStack owes fun a mem has => ⟨a, List.mem_cons_of_mem _ mem, has⟩

theorem owes_top {o : Op} {a : Activation} {below : List Activation} (has : o ∈ a.todo) :
    (s.setStack (a :: below)).Owes o :=
  ⟨s.running, a, by simp [Machine.setStack], has⟩

/-- After one operation of the handler on top everything else is still owed. -/
theorem owes_op {o o' : Op} {todo : List Op} {below : List Activation} (owes : s.Owes o)
    (top : s.stackOf s.running = ⟨n, o' :: todo⟩ :: below) (ne : o ≠ o') :
    (s.setStack (⟨n, todo⟩ :: below)).Owes o := by
  refine owes_setStack owes fun a mem has => ?_
  rw [top] at mem
  rcases List.mem_cons.mp mem with rfl | inside
  · exact ⟨⟨n, todo⟩, List.mem_cons_self, (List.mem_cons.mp has).resolve_left ne⟩
  · exact ⟨a, List.mem_cons_of_mem _ inside, has⟩

theorem owes_pop {o : Op} {below : List Activation} (owes : s.Owes o)
    (top : s.stackOf s.running = ⟨n, []⟩ :: below) : (s.setStack below).Owes o := by
  refine owes_setStack owes fun a mem has => ?_
  rw [top] at mem
  rcases List.mem_cons.mp mem with rfl | inside
  · cases has
  · exact ⟨a, inside, has⟩

/-- A line is in service only as long as a handler has its end to send, and a device that
waits has its request pending or a handler about to read its register. -/
structure Accounted (s : Machine P) : Prop where
  owed : ∀ m, s.pics.on m Chip.isr = true → ∃ n, Pair.Uses n m ∧ s.Owes (.eoi n)
  latch : ∀ n, s.held n = true → latched n = true
  waiting : ∀ n, s.held n = true → s.pics.on n Chip.irr = true ∨ s.Owes (.take n)

omit [DecidableEq P] in
theorem accounted_start (before : Pair) (p : P) : Accounted (start before p) where
  owed m busy := by
    have none : ∀ m, initialised.on m Chip.isr = false := by decide
    have idle : (i8259Init before).on m Chip.isr = false := by rw [i8259Init_eq, none]
    exact Bool.noConfusion (idle.symm.trans busy)
  latch _ held := Bool.noConfusion held
  waiting _ held := Bool.noConfusion held

omit [DecidableEq P] in
theorem Accounted.raise (acc : Accounted s) :
    Accounted { s with pics := s.pics.request n, held := Function.update s.held n (latched n) } where
  owed m busy := acc.owed m (Pair.on_request_isr ▸ busy)
  latch m held := by
    by_cases same : m = n
    · subst same
      simpa using held
    · exact acc.latch m (by simpa [same] using held)
  waiting m held := by
    by_cases same : m = n
    · exact .inl (by simp [Pair.on_request_irr, same])
    · have old : s.held m = true := by simpa [same] using held
      refine (acc.waiting m old).imp_left fun asks => ?_
      simp [Pair.on_request_irr, asks]

theorem Accounted.accept {todo : List Op} {b : Bool} (acc : Accounted s) (settled : s.pics.Settled)
    (device : IsDevice n) (runs : Runs (lineHandler n) todo) :
    Accounted { s.setStack (⟨n, todo⟩ :: s.stackOf s.running) with
      pics := s.pics.ack n, ifFlag := b } := by
  obtain ⟨ends, takes⟩ := serves_of_runs device runs
  refine ⟨fun m busy => ?_, acc.latch, fun m held => ?_⟩
  · have split : s.pics.on m Chip.isr = true ∨ Pair.Uses n m := by
      simpa [settled.on_ack_isr] using busy
    rcases split with before | uses
    · obtain ⟨k, uses, owes⟩ := acc.owed m before
      exact ⟨k, uses, owes_push owes⟩
    · exact ⟨n, uses, owes_top ends⟩
  · have waits := acc.latch m held
    by_cases same : m = n
    · subst same
      exact .inr (owes_top (takes waits))
    · have others : ¬ Pair.Uses n m := by
        rintro (eq | ⟨-, rfl⟩)
        · exact same eq
        · exact absurd waits (by decide)
      refine (acc.waiting m held).imp (fun asks => ?_) owes_push
      simp [Pair.on_ack_irr, asks, others]

/-- An operation that is neither an end nor a read leaves the account alone. -/
theorem Accounted.op {o : Op} {todo : List Op} {below : List Activation} (acc : Accounted s)
    (top : s.stackOf s.running = ⟨n, o :: todo⟩ :: below)
    (does : Does o (s.setStack (⟨n, todo⟩ :: below)) t) : Accounted t := by
  cases does with
  | take _ k =>
    refine ⟨fun m busy => ?_, fun m held => ?_, fun m held => ?_⟩
    · obtain ⟨j, uses, owes⟩ := acc.owed m busy
      exact ⟨j, uses, owes_op owes top (by simp)⟩
    all_goals
      have ne : m ≠ k := by
        rintro rfl
        simp at held
      have old : s.held m = true := by simpa [ne, Machine.setStack] using held
    · exact acc.latch m old
    · exact (acc.waiting m old).imp_right fun owes => owes_op owes top (by simpa using ne)
  | eoi _ k =>
    refine ⟨fun m busy => ?_, acc.latch, fun m held => ?_⟩
    · have still : s.pics.on m Chip.isr = true ∧ ¬ Pair.Uses k m := by
        simpa [sendEoi_eq, Pair.on_finish_isr, Machine.setStack] using busy
      obtain ⟨j, uses, owes⟩ := acc.owed m still.1
      refine ⟨j, uses, owes_op owes top ?_⟩
      rintro ⟨⟩
      exact still.2 uses
    · refine (acc.waiting m held).imp (fun asks => ?_) fun owes => owes_op owes top (by simp)
      simpa [sendEoi_eq, Pair.on_finish_irr, Machine.setStack] using asks
  | cli | sti | tick | started | failed =>
    refine ⟨fun m busy => ?_, acc.latch, fun m held => ?_⟩
    · obtain ⟨j, uses, owes⟩ := acc.owed m busy
      exact ⟨j, uses, owes_op owes top (by simp)⟩
    · exact (acc.waiting m held).imp_right fun owes => owes_op owes top (by simp)

theorem accounted_step (w : Wired s.pics) (acc : Accounted s)
    (step : Step sym (kernelIdt sym idt) s t) : Accounted t := by
  cases step with
  | raise => exact acc.raise
  | accept _ next vector gate goes runs =>
    obtain ⟨device, rfl, -⟩ := w.accepted next vector gate goes
    exact acc.accept w.settled device runs
  | op top does => exact acc.op top does
  | iret top =>
    refine ⟨fun m busy => ?_, acc.latch, fun m held => ?_⟩
    · obtain ⟨j, uses, owes⟩ := acc.owed m busy
      exact ⟨j, uses, owes_pop owes top⟩
    · exact (acc.waiting m held).imp_right fun owes => owes_pop owes top
  | flag => exact ⟨acc.owed, acc.latch, acc.waiting⟩
  | enable _ device =>
    rw [enableIrq_eq w.settled]
    refine ⟨fun m busy => acc.owed m (Pair.on_openLine_isr ▸ busy), acc.latch, fun m held => ?_⟩
    exact (acc.waiting m held).imp_left fun asks => Pair.on_openLine_irr.trans asks
  | leave => exact ⟨acc.owed, acc.latch, acc.waiting⟩

/-! ### What lies on the stacks -/

/-- The rest of the handler of a line. -/
def Activation.Valid (a : Activation) : Prop :=
  IsDevice a.line ∧ ∃ script, Runs (lineHandler a.line) script ∧ a.todo <:+ script

/-- Only the keyboard's handler is ever interrupted: the others run with the flag clear. -/
structure Nested (s : Machine P) : Prop where
  valid : ∀ p, ∀ a ∈ s.stackOf p, a.Valid
  interrupted : ∀ p, ∀ a ∈ (s.stackOf p).tail, a.line = 1
  masked : ∀ a ∈ (s.stackOf s.running).head?, a.line ≠ 1 → s.ifFlag = false

/-- The stack of the running process is replaced by one of which the same holds. -/
theorem Nested.setStack {stack : List Activation} {b : Bool} {pics : Pair} (nested : Nested s)
    (valid : ∀ a ∈ stack, a.Valid) (interrupted : ∀ a ∈ stack.tail, a.line = 1)
    (masked : ∀ a ∈ stack.head?, a.line ≠ 1 → b = false) :
    Nested { s.setStack stack with pics := pics, ifFlag := b } where
  valid p a mem := by
    by_cases same : p = s.running
    · exact valid a (by simpa [Machine.setStack, same] using mem)
    · exact nested.valid p a (by simpa [Machine.setStack, same] using mem)
  interrupted p a mem := by
    by_cases same : p = s.running
    · exact interrupted a (by simpa [Machine.setStack, same] using mem)
    · exact nested.interrupted p a (by simpa [Machine.setStack, same] using mem)
  masked a mem := masked a (by simpa [Machine.setStack] using mem)

omit [DecidableEq P] in
/-- Another process goes on. -/
theorem Nested.switch {q : P} (nested : Nested s)
    (masked : ∀ a ∈ (s.stackOf q).head?, a.line ≠ 1 → s.ifFlag = false) :
    Nested { s with running := q } := ⟨nested.valid, nested.interrupted, masked⟩

theorem Nested.accept {todo : List Op} (nested : Nested s) (on : s.ifFlag = true)
    (device : IsDevice n) (runs : Runs (lineHandler n) todo) :
    Nested { s.setStack (⟨n, todo⟩ :: s.stackOf s.running) with
      pics := s.pics.ack n, ifFlag := false } := by
  refine nested.setStack (fun a mem => ?_) (fun a mem => ?_) fun _ _ _ => rfl
  · rcases List.mem_cons.mp mem with rfl | inside
    · exact ⟨device, todo, runs, List.suffix_refl todo⟩
    · exact nested.valid _ a inside
  · -- the flag was set, so what has been interrupted is a keyboard handler
    change a ∈ s.stackOf s.running at mem
    cases stack : s.stackOf s.running with
    | nil =>
      rw [stack] at mem
      cases mem
    | cons top below =>
      rw [stack] at mem
      rcases List.mem_cons.mp mem with rfl | inside
      · by_contra other
        have clear := nested.masked a (by rw [stack]; rfl) other
        rw [on] at clear
        cases clear
      · exact nested.interrupted s.running a (by rw [stack]; exact inside)

theorem Nested.op {o : Op} {todo : List Op} {below : List Activation} (nested : Nested s)
    (top : s.stackOf s.running = ⟨n, o :: todo⟩ :: below)
    (does : Does o (s.setStack (⟨n, todo⟩ :: below)) t) : Nested t := by
  obtain ⟨device, script, runs, suffix⟩ := nested.valid s.running ⟨n, o :: todo⟩ (by simp [top])
  obtain ⟨onlyKeyboard, onlyTimer, -⟩ := ops_of_runs device runs (suffix.subset List.mem_cons_self)
  have valid : ∀ a ∈ (⟨n, todo⟩ :: below : List Activation), a.Valid := by
    intro a mem
    rcases List.mem_cons.mp mem with rfl | inside
    · exact ⟨device, script, runs, (List.suffix_cons o todo).trans suffix⟩
    · exact nested.valid s.running a (by simp [top, inside])
  have interrupted : ∀ a ∈ below, a.line = 1 := fun a mem =>
    nested.interrupted s.running a (by simpa [top] using mem)
  have clear : n ≠ 1 → s.ifFlag = false := fun other =>
    nested.masked ⟨n, o :: todo⟩ (by simp [top]) other
  have rest : Nested (s.setStack (⟨n, todo⟩ :: below)) :=
    nested.setStack valid interrupted (by rintro a ⟨⟩; exact clear)
  cases does with
  | take | eoi | failed => exact ⟨rest.valid, rest.interrupted, rest.masked⟩
  | cli => exact nested.setStack valid interrupted fun _ _ _ => rfl
  | sti =>
    refine nested.setStack valid interrupted ?_
    rintro a ⟨⟩ other
    exact absurd (onlyKeyboard (.inl rfl)) other
  | tick _ q =>
    have timer : n = 0 := onlyTimer rfl
    exact rest.switch fun _ _ _ => clear (by rw [timer]; decide)
  | started _ q fresh =>
    refine rest.switch fun a mem => ?_
    rw [fresh] at mem
    cases mem

theorem nested_step (w : Wired s.pics) (nested : Nested s)
    (step : Step sym (kernelIdt sym idt) s t) : Nested t := by
  cases step with
  | raise => exact ⟨nested.valid, nested.interrupted, nested.masked⟩
  | accept on next vector gate goes runs =>
    obtain ⟨device, rfl, kind⟩ := w.accepted next vector gate goes
    rw [kind]
    exact nested.accept on device runs
  | op top does => exact nested.op top does
  | @iret n below top =>
    have interrupted : ∀ a ∈ below, a.line = 1 := fun a mem =>
      nested.interrupted s.running a (by simpa [top] using mem)
    refine nested.setStack (fun a mem => nested.valid s.running a (by simp [top, mem]))
      (fun a mem => interrupted a (List.mem_of_mem_tail mem)) fun a mem other => ?_
    exact absurd (interrupted a (List.mem_of_mem_head? mem)) other
  | flag b base =>
    refine ⟨nested.valid, nested.interrupted, fun a mem => ?_⟩
    rw [base] at mem
    cases mem
  | enable => exact ⟨nested.valid, nested.interrupted, nested.masked⟩
  | leave q b base fresh =>
    refine ⟨nested.valid, nested.interrupted, fun a mem => ?_⟩
    rw [fresh] at mem
    cases mem

/-! ### Whole runs -/

theorem invariant_of_reached (reached : Reached sym idt s) :
    Wired s.pics ∧ Accounted s ∧ Nested s := by
  obtain ⟨before, p, run⟩ := reached
  induction run with
  | refl =>
    exact ⟨wired_start before, accounted_start before p,
      ⟨fun _ _ mem => (nomatch mem), fun _ _ mem => (nomatch mem), fun _ mem => (nomatch mem)⟩⟩
  | tail _ step ih =>
    obtain ⟨w, acc, nested⟩ := ih
    exact ⟨wired_step w step, accounted_step w acc step, nested_step w nested step⟩

theorem runs_exists (n : Fin 16) : ∃ todo, Runs (lineHandler n) todo := by
  unfold lineHandler
  split_ifs
  · exact ⟨_, .pit⟩
  · exact ⟨_, .keyboard Keyboard.init (fun _ => 0) 0 0⟩
  · exact ⟨_, .rtc⟩

/-- What the pair asks for is taken when the flag is set. -/
theorem Wired.takes (w : Wired s.pics) (on : s.ifFlag = true) (next : s.pics.next = some n) :
    ∃ todo t, Runs (lineHandler n) todo ∧ Step sym (kernelIdt sym idt) s t ∧
      t.stackOf s.running = ⟨n, todo⟩ :: s.stackOf s.running := by
  have small : 0x20 + n.val < 256 := by omega
  have gate : (kernelIdt sym idt).gate ⟨0x20 + n.val, small⟩ = _ := gate_installed
  have own := (w.accepted next (w.vectors n).symm gate rfl).2.1
  obtain ⟨todo, runs⟩ := runs_exists n
  refine ⟨todo, _, runs, .accept on next (w.vectors n).symm gate rfl (own ▸ runs), ?_⟩
  simp [Machine.setStack]

/-! ### The keyboard's handler interrupts itself -/

/-- One process with something on its stack. -/
def single (p : P) (pics : Pair) (b : Bool) (held : Fin 16 → Bool) (stack : List Activation) :
    Machine P :=
  { pics := pics, ifFlag := b, held := held, stackOf := Function.update (fun _ => []) p stack,
    running := p }

section Single

variable {p : P} {pics : Pair} {b : Bool} {held : Fin 16 → Bool} {stack : List Activation}

theorem single_stackOf : (single p pics b held stack).stackOf (single p pics b held stack).running =
    stack := by
  simp [single]

theorem single_setStack (stack' : List Activation) :
    (single p pics b held stack).setStack stack' = single p pics b held stack' := by
  simp [single, Machine.setStack]

theorem single_op {o : Op} {todo : List Op}
    (does : Does o (single p pics b held (⟨n, todo⟩ :: stack)) t) :
    Step sym idt (single p pics b held (⟨n, o :: todo⟩ :: stack)) t := by
  refine .op single_stackOf ?_
  rw [single_setStack]
  exact does

/-- The controllers with the keyboard's line open. -/
def keyboardOpen : Pair := initialised.openLine 1

/-- A code that is no modifier's and starts no shell. -/
theorem runs_plain : Runs .keyboardLinkage [.take 1, .cli, .sti, .eoi 1] :=
  .keyboard Keyboard.init (fun _ => 0) 0 0x10

theorem single_raise :
    Step sym idt (single p keyboardOpen true (fun _ => false) stack)
      (single p (keyboardOpen.request 1) true (Function.update (fun _ => false) 1 true) stack) :=
  .raise (by decide) rfl

theorem single_accept :
    Step sym (kernelIdt sym idt) (single p (keyboardOpen.request 1) true held stack)
      (single p ((keyboardOpen.request 1).ack 1) false held
        (⟨1, [.take 1, .cli, .sti, .eoi 1]⟩ :: stack)) := by
  have next : (keyboardOpen.request 1).next = some 1 := by decide
  have vector : (0x21 : Fin 256).val = (keyboardOpen.request 1).vector 1 := by decide
  have gate : (kernelIdt sym idt).gate 0x21 = _ := gate_installed
  have taken := Step.accept (s := single p (keyboardOpen.request 1) true held stack) rfl next vector
    gate rfl runs_plain
  rw [single_stackOf, single_setStack] at taken
  exact taken

/-- The handler sets the flag before it sends its EOI, and between the EOI and `iret` the
next byte is let in. -/
theorem nest_once :
    Relation.ReflTransGen (Step sym (kernelIdt sym idt))
      (single p keyboardOpen true (fun _ => false) stack)
      (single p keyboardOpen true (fun _ => false) (⟨1, []⟩ :: stack)) := by
  have reads : Does (.take 1)
      (single p ((keyboardOpen.request 1).ack 1) false (Function.update (fun _ => false) 1 true)
        (⟨1, [.cli, .sti, .eoi 1]⟩ :: stack))
      (single p ((keyboardOpen.request 1).ack 1) false (fun _ => false)
        (⟨1, [.cli, .sti, .eoi 1]⟩ :: stack)) := by
    have cleared : Function.update (Function.update (fun _ => false) (1 : Fin 16) true) 1 false =
        fun _ => false := by
      rw [Function.update_idem, Function.update_eq_self]
    have does := Does.take (single p ((keyboardOpen.request 1).ack 1) false
      (Function.update (fun _ => false) 1 true) (⟨1, [.cli, .sti, .eoi 1]⟩ :: stack)) 1
    simpa only [single, cleared] using does
  have ends : Does (.eoi 1)
      (single p ((keyboardOpen.request 1).ack 1) true (fun _ => false) (⟨1, []⟩ :: stack))
      (single p keyboardOpen true (fun _ => false) (⟨1, []⟩ :: stack)) := by
    have ended : sendEoi (irq 1) ((keyboardOpen.request 1).ack 1) = keyboardOpen := by decide
    have does := Does.eoi
      (single p ((keyboardOpen.request 1).ack 1) true (fun _ => false) (⟨1, []⟩ :: stack)) 1
    simpa only [single, ended] using does
  exact .head single_raise (.head single_accept (.head (single_op reads) (.head (single_op (.cli _))
    (.head (single_op (.sti _)) (.single (single_op ends))))))

end Single

theorem reached_single (p : P) (depth : Nat) :
    Reached sym idt
      (single p keyboardOpen true (fun _ => false) (List.replicate depth ⟨1, []⟩)) := by
  refine ⟨initialised, p, ?_⟩
  induction depth with
  | zero =>
    have opens : Step sym (kernelIdt sym idt) (start initialised p)
        (single p keyboardOpen false (fun _ => false) []) := by
      have step : Step sym (kernelIdt sym idt) (start initialised p)
          { start initialised p with pics := enableIrq (irq 1) (i8259Init initialised) } :=
        .enable rfl (.inr (.inl rfl))
      have opened : enableIrq (irq 1) (i8259Init initialised) = keyboardOpen := by
        rw [i8259Init_eq, enableIrq_eq initialised_settled]
        rfl
      simpa only [start, single, opened, Function.update_eq_self] using step
    exact .head opens (.single (.flag true single_stackOf))
  | succ depth ih => exact ih.trans nest_once

/-- Nothing bounds how many of the keyboard's handlers lie on one kernel stack: each byte that
arrives before the last one has returned adds one. -/
theorem nesting_unbounded (p : P) (depth : Nat) :
    ∃ s : Machine P, Reached sym idt s ∧ s.running = p ∧ (s.stackOf p).length = depth ∧
      ∀ a ∈ s.stackOf p, a.line = 1 := by
  have stack : (single p keyboardOpen true (fun _ => false)
      (List.replicate depth ⟨1, []⟩)).stackOf p = List.replicate depth ⟨1, []⟩ := single_stackOf
  refine ⟨_, reached_single p depth, rfl, ?_⟩
  rw [stack]
  exact ⟨List.length_replicate, fun a mem => by rw [List.eq_of_mem_replicate mem]⟩

/-! ### What holds in every run -/

/-- In every run, whatever is in service is about to be ended by a handler, and no device
waits for good: its request is pending or a handler is about to read its register. Once no
handler has anything left to do, a request on an open line gets an interrupt through. -/
theorem requests_served (reached : Reached sym idt s) :
    (∀ m, s.pics.on m Chip.isr = true → ∃ n, Pair.Uses n m ∧ s.Owes (.eoi n)) ∧
      (∀ n, s.held n = true → s.pics.on n Chip.irr = true ∨ s.Owes (.take n)) ∧
      ((∀ o, ¬ s.Owes o) → s.ifFlag = true →
        ∀ n, n ≠ 2 → s.pics.on n Chip.irr = true → s.pics.on n Chip.imr = false →
          ∃ k todo t, Runs (lineHandler k) todo ∧ Step sym (kernelIdt sym idt) s t ∧
            t.stackOf s.running = ⟨k, todo⟩ :: s.stackOf s.running) := by
  obtain ⟨w, acc, -⟩ := invariant_of_reached reached
  refine ⟨acc.owed, acc.waiting, fun idle on n notTwo asks isOpen => ?_⟩
  have free : ∀ m, s.pics.on m Chip.isr = false := by
    intro m
    by_contra busy
    obtain ⟨k, -, owes⟩ := acc.owed m (Bool.not_eq_false _ ▸ busy)
    exact idle _ owes
  have some := w.settled.next_isSome free notTwo asks isOpen fun _ => w.through
  obtain ⟨k, next⟩ := Option.isSome_iff_exists.mp some
  exact ⟨k, w.takes on next⟩

/-- In every run, only the timer, the keyboard and the clock are served, each by the rest of
its own handler. What has been interrupted in a handler was the keyboard's, and while one of
the other two runs no interrupt is taken. -/
theorem handlers_nest (reached : Reached sym idt s) :
    (∀ p, ∀ a ∈ s.stackOf p, a.Valid) ∧ (∀ p, ∀ a ∈ (s.stackOf p).tail, a.line = 1) ∧
      ∀ a ∈ (s.stackOf s.running).head?, a.line ≠ 1 → s.ifFlag = false :=
  have ⟨_, _, nested⟩ := invariant_of_reached reached
  ⟨nested.valid, nested.interrupted, nested.masked⟩

end

/-- The keyboard is being served. -/
theorem requests_served_keyboard :
    ∃ s : Machine (Fin 7), Reached sampleSymbols sampleIdt s ∧ s.pics.on 1 Chip.isr = true ∧
      ∃ n, Pair.Uses n 1 ∧ s.Owes (.eoi n) := by
  obtain ⟨before, p, run⟩ : Reached sampleSymbols sampleIdt _ := reached_single (0 : Fin 7) 0
  have reached : Reached sampleSymbols sampleIdt _ :=
    ⟨before, p, (run.tail single_raise).tail single_accept⟩
  exact ⟨_, reached, by decide, (requests_served reached).1 1 (by decide)⟩

/-- Two handlers on one stack. -/
theorem handlers_nest_two :
    ∃ s : Machine (Fin 7), Reached sampleSymbols sampleIdt s ∧ (s.stackOf 0).length = 2 ∧
      ∀ a ∈ (s.stackOf 0).tail, a.line = 1 := by
  have reached : Reached sampleSymbols sampleIdt _ := reached_single (0 : Fin 7) 2
  exact ⟨_, reached, by decide, (handlers_nest reached).2.1 0⟩

end Linux391.Interrupts
