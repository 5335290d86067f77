import Linux391.Library.BitFields
import Mathlib.Data.Fintype.Fin

/-!
The interrupt descriptor table (`kernel/irq.c`, `kernel/exception.c`, `x86_desc.h`).

The kernel fills in the fields of packed descriptors, and the processor reads eight bytes
(`gateOf`). `gate_installed` says what it finds for every vector once `init_idt` and
`install_exceptions` have run, whatever the table held before; by `entry_points` a program gets in
through vector 0x80 only.
-/

namespace Linux391

open BitFields

/-- What a gate leads to: the exception handlers, the handler of all other vectors, and the
assembly linkages. -/
inductive Handler where
  | divide
  | debug
  | nmi
  | breakpoint
  | overflow
  | bound
  | invalidOpcode
  | deviceNotAvailable
  | doubleFault
  | invalidTss
  | segment
  | stack
  | gpf
  | pageFault
  | nullHandler
  | pitLinkage
  | keyboardLinkage
  | rtcLinkage
  | syscallLinkage
  deriving DecidableEq, Repr

/-- Where the linker has put the handlers. -/
structure Symbols where
  address : Handler → Nat
  address_lt : ∀ h, address h < 2 ^ 32
  address_injective : Function.Injective address

/-- `idt_desc_t`. -/
structure IdtDesc where
  offset15To00 : Nat
  segSelector : Nat
  reserved4 : Nat
  reserved3 : Nat
  reserved2 : Nat
  reserved1 : Nat
  size : Nat
  reserved0 : Nat
  dpl : Nat
  present : Nat
  offset31To16 : Nat

/-- The eight bytes of a descriptor, as one number. -/
def IdtDesc.val (d : IdtDesc) : Nat :=
  pack [(16, d.offset15To00), (16, d.segSelector), (8, d.reserved4), (1, d.reserved3),
    (1, d.reserved2), (1, d.reserved1), (1, d.size), (1, d.reserved0), (2, d.dpl), (1, d.present),
    (16, d.offset31To16)]

abbrev Idt := Fin 256 → IdtDesc

/-- `KERNEL_CS`. -/
def kernelCs : Nat := 0x10

/-- `SET_IDT_ENTRY`. -/
def setIdtEntry (d : IdtDesc) (handler : Nat) : IdtDesc :=
  { d with offset31To16 := (handler &&& 0xFFFF0000) >>> 16, offset15To00 := handler &&& 0xFFFF }

/-- The assignments the three kinds of gates share; they differ in `dpl` and `reserved3`. -/
def writeGate (dpl reserved3 : Nat) (idt : Idt) (n : Fin 256) (handler : Nat) : Idt :=
  Function.update idt n
    { setIdtEntry (idt n) handler with
      present := 1, dpl := dpl, reserved0 := 0, size := 1, reserved1 := 1, reserved2 := 1,
      reserved3 := reserved3, reserved4 := 0, segSelector := kernelCs }

def writeIntGate : Idt → Fin 256 → Nat → Idt := writeGate 0 0

def writeSysGate : Idt → Fin 256 → Nat → Idt := writeGate 3 1

def writeTrapGate : Idt → Fin 256 → Nat → Idt := writeGate 0 1

/-- `init_idt`. -/
def initIdt (sym : Symbols) (idt : Idt) : Idt :=
  let idt := (List.finRange 256).foldl
    (fun idt i => writeTrapGate idt i (sym.address .nullHandler)) idt
  let idt := writeIntGate idt 0x20 (sym.address .pitLinkage)
  let idt := writeIntGate idt 0x21 (sym.address .keyboardLinkage)
  let idt := writeIntGate idt 0x28 (sym.address .rtcLinkage)
  writeSysGate idt 0x80 (sym.address .syscallLinkage)

/-- The vectors `install_exceptions` writes, in its order. -/
def exceptions : List (Fin 256 × Handler) :=
  [(0, .divide), (1, .debug), (2, .nmi), (3, .breakpoint), (4, .overflow), (5, .bound),
    (6, .invalidOpcode), (7, .deviceNotAvailable), (8, .doubleFault), (10, .invalidTss),
    (11, .segment), (12, .stack), (13, .gpf), (14, .pageFault)]

def installExceptions (sym : Symbols) (idt : Idt) : Idt :=
  exceptions.foldl (fun idt e => writeIntGate idt e.1 (sym.address e.2)) idt

/-- The table the kernel loads, over what was there. -/
def kernelIdt (sym : Symbols) (idt : Idt) : Idt := installExceptions sym (initIdt sym idt)

/-! ### What the processor reads -/

inductive GateKind where
  /-- Entering through it clears the interrupt flag. -/
  | interrupt
  | trap
  deriving DecidableEq, Repr

structure Gate where
  offset : Nat
  selector : Nat
  dpl : Nat
  kind : GateKind
  deriving DecidableEq, Repr

/-- A present gate of 32 bits; `none` is a descriptor that faults. -/
def gateOf (val : Nat) : Option Gate :=
  let kind : Option GateKind :=
    if extract val 40 5 = 0b01110 then some .interrupt
    else if extract val 40 5 = 0b01111 then some .trap
    else none
  if extract val 47 1 = 1 then
    kind.map fun kind =>
      ⟨extract val 0 16 + 2 ^ 16 * extract val 48 16, extract val 16 16, extract val 45 2, kind⟩
  else none

/-- A program of privilege `cpl` may enter the gate with the `int` instruction. -/
def Gate.Callable (g : Gate) (cpl : Nat) : Prop := cpl ≤ g.dpl

instance (g : Gate) (cpl : Nat) : Decidable (g.Callable cpl) := inferInstanceAs (Decidable (_ ≤ _))

/-- What is installed for a vector. -/
def installed (v : Fin 256) : Handler :=
  if v = 0x20 then .pitLinkage
  else if v = 0x21 then .keyboardLinkage
  else if v = 0x28 then .rtcLinkage
  else if v = 0x80 then .syscallLinkage
  else ((exceptions.find? fun e => e.1 = v).map (·.2)).getD .nullHandler

/-- The three device vectors and the exceptions are entered with interrupts off. -/
def installedKind (v : Fin 256) : GateKind :=
  if installed v = .nullHandler ∨ installed v = .syscallLinkage then .trap else .interrupt

/-! ### A gate that has been written -/

section Written

variable {dpl reserved3 : Nat} {idt : Idt} {n : Fin 256} {handler : Nat}

theorem mask_high (fits : handler < 2 ^ 32) : (handler &&& 0xFFFF0000) >>> 16 = handler / 2 ^ 16 := by
  rw [Nat.shiftRight_and_distrib, Nat.shiftRight_eq_div_pow]
  have small : handler / 2 ^ 16 < 2 ^ 16 := by omega
  have ones : 0xFFFF0000 >>> 16 = 2 ^ 16 - 1 := by decide
  rw [ones, Nat.and_two_pow_sub_one_eq_mod, Nat.mod_eq_of_lt small]

theorem mask_low : handler &&& 0xFFFF = handler % 2 ^ 16 := Nat.and_two_pow_sub_one_eq_mod handler 16

theorem extract_kind (x : Nat) : extract x 40 5 = extract x 40 1 + 2 * extract x 41 1 +
    4 * extract x 42 1 + 8 * extract x 43 1 + 16 * extract x 44 1 := by
  rw [extract_add x 40 1 4, extract_add x 41 1 3, extract_add x 42 1 2, extract_add x 43 1 1]
  simp only [Nat.reduceAdd]
  omega

/-- A gate into the kernel, of the kind that `reserved3` makes it. -/
def kernelGate (dpl reserved3 offset : Nat) : Gate :=
  ⟨offset, kernelCs, dpl, if reserved3 = 0 then .interrupt else .trap⟩

/-- The gate the processor reads back. -/
theorem gateOf_writeGate (fits : handler < 2 ^ 32) (small : dpl < 4) (bit : reserved3 < 2) :
    gateOf ((writeGate dpl reserved3 idt n handler) n).val =
      some (kernelGate dpl reserved3 handler) := by
  have fields : ∀ d : IdtDesc, extract d.val 0 16 = d.offset15To00 % 2 ^ 16 ∧
      extract d.val 16 16 = d.segSelector % 2 ^ 16 ∧
      extract d.val 40 5 = d.reserved3 % 2 + 2 * (d.reserved2 % 2) + 4 * (d.reserved1 % 2) +
        8 * (d.size % 2) + 16 * (d.reserved0 % 2) ∧
      extract d.val 45 2 = d.dpl % 4 ∧ extract d.val 47 1 = d.present % 2 ∧
      extract d.val 48 16 = d.offset31To16 % 2 ^ 16 := by
    intro d
    rw [extract_kind]
    simp [IdtDesc.val, extract_rest, extract_first]
  obtain ⟨low, selector, kind, level, present, high⟩ :=
    fields ((writeGate dpl reserved3 idt n handler) n)
  have offset : handler % 2 ^ 16 % 2 ^ 16 + 2 ^ 16 * (handler / 2 ^ 16 % 2 ^ 16) = handler := by
    rw [Nat.mod_mod, Nat.mod_eq_of_lt (a := handler / 2 ^ 16) (by omega), Nat.mod_add_div]
  simp only [writeGate, setIdtEntry, Function.update_self, mask_high fits, mask_low] at *
  rw [gateOf, if_pos (by rw [present]), low, selector, level, high, offset, kind,
    Nat.mod_eq_of_lt small]
  rcases Nat.lt_succ_iff_lt_or_eq.mp bit with zero | rfl
  · obtain rfl : reserved3 = 0 := by omega
    rfl
  · rfl

theorem writeGate_of_ne {v : Fin 256} (ne : v ≠ n) : writeGate dpl reserved3 idt n handler v = idt v :=
  Function.update_of_ne ne _ _

end Written

/-! ### The whole table -/

section Table

variable {sym : Symbols} {idt : Idt} {v : Fin 256} {dpl reserved3 : Nat}

/-- What the processor finds for a vector. -/
def Idt.gate (idt : Idt) (v : Fin 256) : Option Gate := gateOf (idt v).val

theorem gate_writeGate {n : Fin 256} {h : Handler} (small : dpl < 4) (bit : reserved3 < 2) :
    (writeGate dpl reserved3 idt n (sym.address h)).gate v =
      if v = n then some (kernelGate dpl reserved3 (sym.address h)) else idt.gate v := by
  split_ifs with same
  · subst same
    exact gateOf_writeGate (sym.address_lt h) small bit
  · rw [Idt.gate, writeGate_of_ne same]
    rfl

variable (sym) in
/-- Gates of one kind written one after the other, when those of vector `v` agree. -/
theorem gate_foldl {h : Handler} (small : dpl < 4) (bit : reserved3 < 2)
    (entries : List (Fin 256 × Handler)) (agree : ∀ e ∈ entries, e.1 = v → e.2 = h) (idt : Idt) :
    (entries.foldl (fun idt e => writeGate dpl reserved3 idt e.1 (sym.address e.2)) idt).gate v =
      if v ∈ entries.map Prod.fst then some (kernelGate dpl reserved3 (sym.address h))
      else idt.gate v := by
  induction entries generalizing idt with
  | nil => rfl
  | cons e entries ih =>
    rw [List.foldl_cons, ih (fun e' mem => agree e' (List.mem_cons_of_mem e mem)),
      gate_writeGate small bit]
    by_cases same : v = e.1
    · have own : e.2 = h := agree e List.mem_cons_self same.symm
      simp [same, own]
    · simp only [List.map_cons, List.mem_cons, same, false_or, if_false]

theorem gate_initIdt : (initIdt sym idt).gate v =
    if v = 0x80 then some (kernelGate 3 1 (sym.address .syscallLinkage))
    else if v = 0x28 then some (kernelGate 0 0 (sym.address .rtcLinkage))
    else if v = 0x21 then some (kernelGate 0 0 (sym.address .keyboardLinkage))
    else if v = 0x20 then some (kernelGate 0 0 (sym.address .pitLinkage))
    else some (kernelGate 0 1 (sym.address .nullHandler)) := by
  have loop : ((List.finRange 256).foldl
      (fun idt i => writeGate 0 1 idt i (sym.address .nullHandler)) idt).gate v =
        some (kernelGate 0 1 (sym.address .nullHandler)) := by
    have entries := gate_foldl sym (h := .nullHandler) (show 0 < 4 by decide) (show 1 < 2 by decide)
      ((List.finRange 256).map fun i => (i, .nullHandler)) (v := v) (by simp) idt
    rw [List.foldl_map, if_pos (by simp)] at entries
    exact entries
  simp only [initIdt, writeSysGate, writeIntGate, writeTrapGate,
    gate_writeGate (show 3 < 4 by decide) (show 1 < 2 by decide),
    gate_writeGate (show 0 < 4 by decide) (show 0 < 2 by decide)]
  rw [loop]

/-- The vectors of `install_exceptions` are none of those `init_idt` gives a linkage. -/
theorem exceptions_apart : ∀ e ∈ exceptions, installedKind e.1 = .interrupt ∧ e.1 ≠ 0x80 := by
  decide

theorem installed_of_not_exception (other : v ∉ exceptions.map Prod.fst) :
    installed v =
      if v = 0x20 then .pitLinkage
      else if v = 0x21 then .keyboardLinkage
      else if v = 0x28 then .rtcLinkage
      else if v = 0x80 then .syscallLinkage
      else .nullHandler := by
  have none : exceptions.find? (fun e => e.1 = v) = none := by
    rw [List.find?_eq_none]
    intro e mem same
    exact other (List.mem_map.mpr ⟨e, mem, of_decide_eq_true same⟩)
  rw [installed, none]
  rfl

/-- The table that the kernel loads, as the processor reads it, whatever it held before: every
vector is present, in the kernel's code segment, and only vector 0x80 is open to programs. -/
theorem gate_installed : (kernelIdt sym idt).gate v =
    some ⟨sym.address (installed v), kernelCs, if v = 0x80 then 3 else 0, installedKind v⟩ := by
  have agree : ∀ e ∈ exceptions, e.1 = v → e.2 = installed v := by
    have each : ∀ e ∈ exceptions, e.2 = installed e.1 := by decide
    rintro e mem rfl
    exact each e mem
  rw [kernelIdt, installExceptions]
  simp only [writeIntGate]
  rw [gate_foldl sym (by decide) (by decide) exceptions agree, gate_initIdt]
  by_cases exception : v ∈ exceptions.map Prod.fst
  · obtain ⟨e, mem, same⟩ := List.mem_map.mp exception
    obtain ⟨kind, ne⟩ := exceptions_apart e mem
    rw [same] at kind ne
    rw [if_pos exception, kind, if_neg ne]
    rfl
  · rw [if_neg exception, installedKind, installed_of_not_exception exception]
    split_ifs with h80 h28 h21 h20 <;> simp_all [kernelGate]

/-- Every vector leads into the kernel's code segment, to the handler that is meant for it. By
`int` a program gets in through vector 0x80 only, and the flag is left as it is only there and
where nothing else is installed. -/
theorem entry_points (sym : Symbols) (idt : Idt) (v : Fin 256) :
    ∃ g, (kernelIdt sym idt).gate v = some g ∧ g.offset = sym.address (installed v) ∧
      g.selector = kernelCs ∧ (g.Callable 3 ↔ v = 0x80) ∧
      (g.kind = .trap ↔ v = 0x80 ∨ installed v = .nullHandler) := by
  have syscall : ∀ v, installed v = .syscallLinkage ↔ v = 0x80 := by decide +kernel
  refine ⟨_, gate_installed, rfl, rfl, ?_, ?_⟩
  · by_cases gate : v = 0x80 <;> simp [Gate.Callable, gate]
  · change installedKind v = .trap ↔ _
    rw [← syscall, installedKind]
    split_ifs with trap
    · exact ⟨fun _ => trap.symm, fun _ => rfl⟩
    · exact ⟨nofun, fun other => absurd other.symm trap⟩

end Table

/-- Handlers one after the other in memory. -/
def sampleSymbols : Symbols where
  address h := 0x400000 + h.ctorIdx
  address_lt h := by cases h <;> decide
  address_injective := by
    intro h h' same
    have index : h.ctorIdx = h'.ctorIdx := Nat.add_left_cancel same
    cases h <;> cases h' <;> first | rfl | cases index

def sampleIdt : Idt := fun _ => ⟨0, 0, 0, 0, 0, 0, 0, 0, 0, 0, 0⟩

end Linux391
