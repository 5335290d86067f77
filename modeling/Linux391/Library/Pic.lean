import Mathlib.Data.List.FinRange
import Mathlib.Data.Fintype.Fin

/-!
The 8259A interrupt controller, in fully nested mode, and two of them in cascade.

A chip has eight lines. `irr` are the requests, `imr` the masked lines, `isr` the lines in
service. A lower line has the higher priority, and a line in service holds back itself and
all lower priorities until it is ended (`next`). Four command words written in order set a
chip up; afterwards the data port is the mask and the command port ends interrupts. The
commands that rotate priorities and those that select what is read back are no part of this
mode and are ignored.

In a pair the second chip asks through line 2 of the first.
-/

namespace Linux391.Pic

-- Literals of lines carry one of these.
scoped instance eight : @NeZero Nat Zero.ofOfNat0 8 := ⟨Nat.succ_ne_zero 7⟩
scoped instance sixteen : @NeZero Nat Zero.ofOfNat0 16 := ⟨Nat.succ_ne_zero 15⟩

abbrev Byte := BitVec 8

/-- Line `n` is in the register. -/
def has (v : Byte) (n : Fin 8) : Bool := v.getLsbD n

/-- The register with line `n` only. -/
def line (n : Fin 8) : Byte := 1#8 <<< n.val

section Registers

variable (v w : Byte) (n m : Fin 8)

@[simp] theorem has_or : has (v ||| w) n = (has v n || has w n) := BitVec.getLsbD_or

@[simp] theorem has_and : has (v &&& w) n = (has v n && has w n) := BitVec.getLsbD_and

@[simp] theorem has_not : has (~~~v) n = !has v n := by
  simp [has]

@[simp] theorem has_line : has (line n) m = decide (m = n) := by
  revert n m
  decide

@[simp] theorem has_zero : has 0#8 n = false := BitVec.getLsbD_zero

variable {v w}

theorem ext_has (same : ∀ n, has v n = has w n) : v = w := by
  apply BitVec.eq_of_getLsbD_eq
  intro i inside
  exact same ⟨i, inside⟩

end Registers

/-- Which word a write to the data port is. -/
inductive Phase where
  | ready
  | icw2
  | icw3
  | icw4
  deriving DecidableEq, Repr

structure Chip where
  phase : Phase
  /-- ICW1 has announced ICW4. -/
  withIcw4 : Bool
  /-- ICW1 has said that there is no second chip. -/
  single : Bool
  base : Byte
  /-- ICW3: the lines with a slave, or a slave's number. -/
  link : Byte
  autoEoi : Bool
  imr : Byte
  irr : Byte
  isr : Byte
  deriving DecidableEq, Repr

namespace Chip

/-- The line in service with the highest priority. -/
def serving (c : Chip) : Option (Fin 8) := (List.finRange 8).find? (has c.isr)

/-- A write to the command port. -/
def command (c : Chip) (v : Byte) : Chip :=
  if has v 4 then
    { c with phase := .icw2, withIcw4 := has v 0, single := has v 1, autoEoi := false,
             imr := 0, irr := 0, isr := 0 }
  else if has v 3 || has v 7 || !has v 5 then c
  else if has v 6 then { c with isr := c.isr &&& ~~~(1#8 <<< (v &&& 7)) }
  else
    match c.serving with
    | none => c
    | some n => { c with isr := c.isr &&& ~~~line n }

/-- A write to the data port. -/
def data (c : Chip) (v : Byte) : Chip :=
  let last : Phase := if c.withIcw4 then .icw4 else .ready
  match c.phase with
  | .icw2 => { c with base := v &&& 0xF8, phase := if c.single then last else .icw3 }
  | .icw3 => { c with link := v, phase := last }
  | .icw4 => { c with autoEoi := has v 1, phase := .ready }
  | .ready => { c with imr := v }

/-- A device asks for service. -/
def request (c : Chip) (n : Fin 8) : Chip := { c with irr := c.irr ||| line n }

def pending (c : Chip) (n : Fin 8) : Bool := has c.irr n && !has c.imr n

/-- The line the chip asks the processor to serve. -/
def next (c : Chip) : Option (Fin 8) :=
  if c.phase ≠ .ready then none
  else
    match (List.finRange 8).find? fun n => c.pending n || has c.isr n with
    | none => none
    | some n => if has c.isr n then none else some n

/-- The processor acknowledges a line. -/
def ack (c : Chip) (n : Fin 8) : Chip :=
  { c with irr := c.irr &&& ~~~line n, isr := if c.autoEoi then c.isr else c.isr ||| line n }

/-- The vector of a line. -/
def vector (c : Chip) (n : Fin 8) : Nat := c.base.toNat + n.val

variable {c : Chip} {n m : Fin 8}

/-- The word that ends line `n`. -/
theorem command_specific (c : Chip) (n : Fin 8) :
    c.command (0x60 ||| BitVec.ofNat 8 n) = { c with isr := c.isr &&& ~~~line n } := by
  have bits : ∀ n : Fin 8, has (0x60 ||| BitVec.ofNat 8 n) 4 = false ∧
      (has (0x60 ||| BitVec.ofNat 8 n) 3 || has (0x60 ||| BitVec.ofNat 8 n) 7 ||
        !has (0x60 ||| BitVec.ofNat 8 n) 5) = false ∧
      has (0x60 ||| BitVec.ofNat 8 n) 6 = true ∧
      1#8 <<< ((0x60 ||| BitVec.ofNat 8 n) &&& 7) = line n := by
    decide
  obtain ⟨icw1, other, specific, level⟩ := bits n
  rw [command, if_neg (by rw [icw1]; decide), if_neg (by rw [other]; decide), if_pos specific, level]

/-- A request on an open line makes the chip ask when nothing is in service. -/
theorem next_isSome (ready : c.phase = .ready) (idle : c.isr = 0) (asks : c.pending n = true) :
    c.next.isSome := by
  have found : ((List.finRange 8).find? fun n => c.pending n || has c.isr n).isSome := by
    rw [List.find?_isSome]
    exact ⟨n, List.mem_finRange n, by rw [asks, Bool.true_or]⟩
  obtain ⟨m, first⟩ := Option.isSome_iff_exists.mp found
  have free : has c.isr m = false := by rw [idle]; exact has_zero m
  rw [next, if_neg (not_not.mpr ready), first]
  simp [free]

/-- The line served is one that asks and is open, and neither it nor a higher one is in
service. -/
theorem next_spec (asks : c.next = some n) :
    c.phase = .ready ∧ has c.irr n = true ∧ has c.imr n = false ∧
      ∀ m ≤ n, has c.isr m = false := by
  unfold next at asks
  split_ifs at asks with ready
  split at asks
  · cases asks
  rename_i i first
  split_ifs at asks with busy
  cases asks
  obtain ⟨here, j, inside, at_j, earlier⟩ := List.find?_eq_some_iff_getElem.mp first
  have asked : c.pending n = true := by simpa [busy] using here
  simp only [pending, Bool.and_eq_true, Bool.not_eq_true'] at asked
  refine ⟨not_not.mp ready, asked.1, asked.2, fun m le => ?_⟩
  rcases Nat.lt_or_eq_of_le le with lt | eq
  · simp only [List.getElem_finRange] at at_j earlier
    have before : m.val < j := by
      have value := congrArg Fin.val at_j
      simp only [Fin.val_cast] at value
      omega
    have free := earlier m.val before
    simp only [Fin.cast_mk, Fin.eta, Bool.not_eq_true', Bool.or_eq_false_iff] at free
    exact free.2
  · rw [Fin.ext eq]
    simpa using busy

end Chip

/-! ### Two chips -/

structure Pair where
  master : Chip
  slave : Chip
  deriving DecidableEq, Repr

/-- The line of its own chip that line `n` of the pair is. -/
def sub (n : Fin 16) : Fin 8 := ⟨n.val % 8, Nat.mod_lt _ (by decide)⟩

/-- Both lines are on the same chip. -/
def Beside (n m : Fin 16) : Prop := n.val < 8 ↔ m.val < 8

instance (n m : Fin 16) : Decidable (Beside n m) :=
  inferInstanceAs (Decidable (n.val < 8 ↔ m.val < 8))

theorem eq_iff_sub {n m : Fin 16} : m = n ↔ Beside n m ∧ sub m = sub n := by
  revert n m
  decide

namespace Pair

variable (s : Pair) (n m : Fin 16)

def chip : Chip := if n.val < 8 then s.master else s.slave

def setChip (c : Chip) : Pair := if n.val < 8 then { s with master := c } else { s with slave := c }

/-- Line `n` is in a register of its chip. -/
def on (reg : Chip → Byte) : Bool := has (reg (s.chip n)) (sub n)

/-- The first chip with its line 2 driven by the second. -/
def wired : Chip :=
  { s.master with irr := if s.slave.next.isSome then s.master.irr ||| line 2
                         else s.master.irr &&& ~~~line 2 }

theorem up_lt (n : Fin 8) : n.val < 16 := by omega

/-- The line that the pair asks the processor to serve. -/
def next : Option (Fin 16) :=
  match s.wired.next with
  | none => none
  | some n => if n = 2 then s.slave.next.map fun m => m.addNat 8 else some ⟨n.val, up_lt n⟩

/-- A device asks for service on a line. -/
def request : Pair := s.setChip n ((s.chip n).request (sub n))

/-- One line is acknowledged. -/
def ackLine : Pair := s.setChip n ((s.chip n).ack (sub n))

/-- The processor acknowledges a line, and with one of the second chip its line 2. -/
def ack : Pair := if n.val < 8 then s.ackLine n else (s.ackLine 2).ackLine n

/-- One line is ended. -/
def endLine : Pair :=
  s.setChip n { s.chip n with isr := (s.chip n).isr &&& ~~~line (sub n) }

/-- The end of a line, and with one of the second chip the end of line 2. -/
def finish : Pair := if n.val < 8 then s.endLine n else (s.endLine n).endLine 2

/-- One line is opened. -/
def openLine : Pair :=
  s.setChip n { s.chip n with imr := (s.chip n).imr &&& ~~~line (sub n) }

/-- One line is masked. -/
def maskLine : Pair :=
  s.setChip n { s.chip n with imr := (s.chip n).imr ||| line (sub n) }

def vector : Nat := (s.chip n).vector (sub n)

variable {s n m} {reg : Chip → Byte}

theorem chip_setChip (c : Chip) :
    (s.setChip n c).chip m = if Beside n m then c else s.chip m := by
  unfold setChip chip Beside
  by_cases hn : n.val < 8 <;> by_cases hm : m.val < 8 <;> simp [hn, hm]

theorem on_setChip (c : Chip) :
    (s.setChip n c).on m reg = if Beside n m then has (reg c) (sub m) else s.on m reg := by
  unfold on
  rw [chip_setChip]
  split_ifs <;> rfl

theorem chip_of_beside (beside : Beside n m) : s.chip n = s.chip m := by
  unfold chip
  simp only [show (n.val < 8) = (m.val < 8) from propext beside]

/-- A change to one register of a line's chip, seen on any line. -/
theorem on_setChip_update {f : Byte → Byte} {c : Chip} (here : reg c = f (reg (s.chip n))) :
    (s.setChip n c).on m reg =
      if Beside n m then has (f (reg (s.chip m))) (sub m) else s.on m reg := by
  rw [on_setChip]
  split_ifs with beside
  · rw [here, chip_of_beside beside]
  · rfl

/-- A register that the change leaves alone. -/
theorem on_setChip_same {c : Chip} (here : reg c = reg (s.chip n)) :
    (s.setChip n c).on m reg = s.on m reg := by
  rw [on_setChip_update (f := id) here]
  split_ifs <;> rfl

theorem on_request_irr : (s.request n).on m Chip.irr = (s.on m Chip.irr || decide (m = n)) := by
  rw [request, on_setChip_update (f := (· ||| line (sub n))) rfl]
  simp only [on, has_or, has_line, eq_iff_sub]
  split_ifs with beside <;> simp [beside]

theorem on_request_isr : (s.request n).on m Chip.isr = s.on m Chip.isr := on_setChip_same rfl

theorem on_request_imr : (s.request n).on m Chip.imr = s.on m Chip.imr := on_setChip_same rfl

theorem on_ackLine_irr :
    (s.ackLine n).on m Chip.irr = (s.on m Chip.irr && !decide (m = n)) := by
  rw [ackLine, on_setChip_update (f := (· &&& ~~~line (sub n))) rfl]
  simp only [on, has_and, has_not, has_line, eq_iff_sub]
  split_ifs with beside <;> simp [beside]

theorem on_ackLine_imr : (s.ackLine n).on m Chip.imr = s.on m Chip.imr := on_setChip_same rfl

theorem on_endLine_isr :
    (s.endLine n).on m Chip.isr = (s.on m Chip.isr && !decide (m = n)) := by
  rw [endLine, on_setChip_update (f := (· &&& ~~~line (sub n))) rfl]
  simp only [on, has_and, has_not, has_line, eq_iff_sub]
  split_ifs with beside <;> simp [beside]

theorem on_endLine_irr : (s.endLine n).on m Chip.irr = s.on m Chip.irr := on_setChip_same rfl

theorem on_endLine_imr : (s.endLine n).on m Chip.imr = s.on m Chip.imr := on_setChip_same rfl

theorem on_openLine_imr :
    (s.openLine n).on m Chip.imr = (s.on m Chip.imr && !decide (m = n)) := by
  rw [openLine, on_setChip_update (f := (· &&& ~~~line (sub n))) rfl]
  simp only [on, has_and, has_not, has_line, eq_iff_sub]
  split_ifs with beside <;> simp [beside]

theorem on_openLine_irr : (s.openLine n).on m Chip.irr = s.on m Chip.irr := on_setChip_same rfl

theorem on_openLine_isr : (s.openLine n).on m Chip.isr = s.on m Chip.isr := on_setChip_same rfl

theorem on_maskLine_imr :
    (s.maskLine n).on m Chip.imr = (s.on m Chip.imr || decide (m = n)) := by
  rw [maskLine, on_setChip_update (f := (· ||| line (sub n))) rfl]
  simp only [on, has_or, has_line, eq_iff_sub]
  split_ifs with beside <;> simp [beside]

theorem on_maskLine_irr : (s.maskLine n).on m Chip.irr = s.on m Chip.irr := on_setChip_same rfl

theorem on_maskLine_isr : (s.maskLine n).on m Chip.isr = s.on m Chip.isr := on_setChip_same rfl

/-! ### After the set-up -/

/-- Both chips are set up and leave it to the handlers to end interrupts. -/
structure Settled (s : Pair) : Prop where
  ready : ∀ n, (s.chip n).phase = .ready
  normal : ∀ n, (s.chip n).autoEoi = false

theorem Settled.setChip (settled : s.Settled) {c : Chip} (phase : c.phase = (s.chip n).phase)
    (autoEoi : c.autoEoi = (s.chip n).autoEoi) : (s.setChip n c).Settled where
  ready m := by
    rw [chip_setChip]
    split_ifs
    · exact phase.trans (settled.ready n)
    · exact settled.ready m
  normal m := by
    rw [chip_setChip]
    split_ifs
    · exact autoEoi.trans (settled.normal n)
    · exact settled.normal m

theorem Settled.request (settled : s.Settled) : (s.request n).Settled := settled.setChip rfl rfl

theorem Settled.ackLine (settled : s.Settled) : (s.ackLine n).Settled := settled.setChip rfl rfl

theorem Settled.endLine (settled : s.Settled) : (s.endLine n).Settled := settled.setChip rfl rfl

theorem Settled.openLine (settled : s.Settled) : (s.openLine n).Settled := settled.setChip rfl rfl

theorem Settled.maskLine (settled : s.Settled) : (s.maskLine n).Settled := settled.setChip rfl rfl

theorem Settled.ack (settled : s.Settled) : (s.ack n).Settled := by
  unfold Pair.ack
  split_ifs
  · exact settled.ackLine
  · exact settled.ackLine.ackLine

theorem Settled.finish (settled : s.Settled) : (s.finish n).Settled := by
  unfold Pair.finish
  split_ifs
  · exact settled.endLine
  · exact settled.endLine.endLine

/-! ### The vectors -/

theorem vector_setChip {c : Chip} (base : c.base = (s.chip n).base) :
    (s.setChip n c).vector m = s.vector m := by
  unfold vector
  rw [chip_setChip]
  split_ifs with beside
  · rw [Chip.vector, base, chip_of_beside beside]
    rfl
  · rfl

theorem vector_request : (s.request n).vector m = s.vector m := vector_setChip rfl

theorem vector_openLine : (s.openLine n).vector m = s.vector m := vector_setChip rfl

theorem vector_maskLine : (s.maskLine n).vector m = s.vector m := vector_setChip rfl

theorem vector_ackLine : (s.ackLine n).vector m = s.vector m := vector_setChip rfl

theorem vector_endLine : (s.endLine n).vector m = s.vector m := vector_setChip rfl

theorem vector_ack : (s.ack n).vector m = s.vector m := by
  unfold ack
  split_ifs <;> simp only [vector_ackLine]

theorem vector_finish : (s.finish n).vector m = s.vector m := by
  unfold finish
  split_ifs <;> simp only [vector_endLine]

/-! ### Lines in service -/

theorem Settled.on_ackLine_isr (settled : s.Settled) :
    (s.ackLine n).on m Chip.isr = (s.on m Chip.isr || decide (m = n)) := by
  have stored : ((s.chip n).ack (sub n)).isr = (s.chip n).isr ||| line (sub n) := by
    rw [Chip.ack, settled.normal n]
    rfl
  rw [Pair.ackLine, on_setChip_update (f := (· ||| line (sub n))) stored]
  simp only [on, has_or, has_line, eq_iff_sub]
  split_ifs with beside <;> simp [beside]

/-- The lines that are in service while `n` is. -/
def Uses (n m : Fin 16) : Prop := m = n ∨ 8 ≤ n.val ∧ m = 2

instance (n m : Fin 16) : Decidable (Uses n m) :=
  inferInstanceAs (Decidable (m = n ∨ 8 ≤ n.val ∧ m = 2))

theorem on_ack_irr :
    (s.ack n).on m Chip.irr = (s.on m Chip.irr && !decide (Uses n m)) := by
  unfold ack Uses
  split_ifs with low
  · simp [on_ackLine_irr, Nat.not_le.mpr low]
  · simp only [on_ackLine_irr, Nat.not_lt.mp low, true_and, Bool.decide_or, Bool.not_or]
    rw [Bool.and_assoc, Bool.and_comm (!decide (m = 2))]

theorem on_ack_imr : (s.ack n).on m Chip.imr = s.on m Chip.imr := by
  unfold ack
  split_ifs <;> simp only [on_ackLine_imr]

theorem Settled.on_ack_isr (settled : s.Settled) :
    (s.ack n).on m Chip.isr = (s.on m Chip.isr || decide (Uses n m)) := by
  unfold Pair.ack Uses
  split_ifs with low
  · simp [settled.on_ackLine_isr, Nat.not_le.mpr low]
  · simp only [settled.ackLine.on_ackLine_isr, settled.on_ackLine_isr, Nat.not_lt.mp low, true_and,
      Bool.decide_or]
    rw [Bool.or_assoc, Bool.or_comm (decide (m = 2))]

theorem on_finish_isr :
    (s.finish n).on m Chip.isr = (s.on m Chip.isr && !decide (Uses n m)) := by
  unfold finish Uses
  split_ifs with low
  · simp [on_endLine_isr, Nat.not_le.mpr low]
  · simp only [on_endLine_isr, Nat.not_lt.mp low, true_and, Bool.decide_or, Bool.not_or,
      Bool.and_assoc]

theorem on_finish_irr : (s.finish n).on m Chip.irr = s.on m Chip.irr := by
  unfold finish
  split_ifs <;> simp only [on_endLine_irr]

theorem on_finish_imr : (s.finish n).on m Chip.imr = s.on m Chip.imr := by
  unfold finish
  split_ifs <;> simp only [on_endLine_imr]

theorem on_low (n : Fin 8) : s.on ⟨n.val, up_lt n⟩ reg = has (reg s.master) n := by
  have own : sub ⟨n.val, up_lt n⟩ = n := Fin.ext (Nat.mod_eq_of_lt n.isLt)
  rw [on, own, chip, if_pos n.isLt]

theorem on_high (n : Fin 8) : s.on (n.addNat 8) reg = has (reg s.slave) n := by
  have own : sub (n.addNat 8) = n := by
    revert n
    decide
  rw [on, own, chip, if_neg (by simp)]

theorem on_two : s.on 2 reg = has (reg s.master) 2 := on_low 2

theorem wired_irr {n : Fin 8} (ne : n ≠ 2) : has s.wired.irr n = has s.master.irr n := by
  unfold wired
  split_ifs <;> simp [ne]

theorem wired_irr_two : has s.wired.irr 2 = s.slave.next.isSome := by
  unfold wired
  split_ifs with asks <;> simp [asks]

/-- The line served asks and is open, none of the lines it uses is in service, and a line of
the second chip finds line 2 open. -/
theorem next_spec (asks : s.next = some n) :
    n ≠ 2 ∧ s.on n Chip.irr = true ∧ s.on n Chip.imr = false ∧
      (8 ≤ n.val → s.on 2 Chip.imr = false) ∧ ∀ m, Uses n m → s.on m Chip.isr = false := by
  unfold next at asks
  split at asks
  · cases asks
  rename_i k first
  obtain ⟨-, irr, imr, isr⟩ := Chip.next_spec first
  split_ifs at asks with second
  · subst second
    obtain ⟨j, found, rfl⟩ := Option.map_eq_some_iff.mp asks
    obtain ⟨-, irr', imr', isr'⟩ := Chip.next_spec found
    refine ⟨?_, ?_, ?_, fun _ => ?_, ?_⟩
    · intro same
      have value : j.val + 8 = 2 := congrArg Fin.val same
      omega
    · rw [on_high]
      exact irr'
    · rw [on_high]
      exact imr'
    · rw [on_two]
      exact imr
    · rintro m (rfl | ⟨-, rfl⟩)
      · rw [on_high]
        exact isr' j le_rfl
      · rw [on_two]
        exact isr 2 le_rfl
  · cases asks
    refine ⟨?_, ?_, ?_, fun high => ?_, ?_⟩
    · intro same
      have value : k.val = 2 := congrArg Fin.val same
      exact second (Fin.ext value)
    · rw [on_low, ← wired_irr second]
      exact irr
    · rw [on_low]
      exact imr
    · exact absurd high (by simp)
    · rintro m (rfl | ⟨high, -⟩)
      · rw [on_low]
        exact isr k le_rfl
      · exact absurd high (by simp)

/-- With nothing in service a request on an open line makes the pair ask. -/
theorem Settled.next_isSome (settled : s.Settled) (idle : ∀ m, s.on m Chip.isr = false)
    (ne : n ≠ 2) (asks : s.on n Chip.irr = true) (isOpen : s.on n Chip.imr = false)
    (through : 8 ≤ n.val → s.on 2 Chip.imr = false) : s.next.isSome := by
  have master : s.master.isr = 0 := ext_has fun k => by
    have free : s.on ⟨k.val, up_lt k⟩ Chip.isr = has s.master.isr k := on_low k
    rw [← free, idle]
    exact (has_zero k).symm
  have slave : s.slave.isr = 0 := ext_has fun k => by
    have free : s.on (k.addNat 8) Chip.isr = has s.slave.isr k := on_high k
    rw [← free, idle]
    exact (has_zero k).symm
  have asked : s.wired.next.isSome := by
    by_cases low : n.val < 8
    · have this : n = ⟨(⟨n.val, low⟩ : Fin 8).val, up_lt _⟩ := rfl
      have other : (⟨n.val, low⟩ : Fin 8) ≠ 2 := by
        intro same
        have value : n.val = 2 := congrArg Fin.val same
        exact ne (Fin.ext value)
      rw [this, on_low] at asks isOpen
      refine Chip.next_isSome (n := ⟨n.val, low⟩) (settled.ready 0) master ?_
      rw [Chip.pending, wired_irr other, asks]
      simpa [wired] using isOpen
    · have high : 8 ≤ n.val := Nat.not_lt.mp low
      have lt : n.val - 8 < 8 := by omega
      obtain ⟨j, rfl⟩ : ∃ j : Fin 8, n = j.addNat 8 :=
        ⟨⟨n.val - 8, lt⟩, Fin.ext (by simp; omega)⟩
      rw [on_high] at asks isOpen
      have second : s.slave.next.isSome := by
        refine Chip.next_isSome (n := j) (settled.ready 8) slave ?_
        rw [Chip.pending, asks, isOpen]
        rfl
      refine Chip.next_isSome (n := 2) (settled.ready 0) master ?_
      have open2 := through high
      rw [on_two] at open2
      rw [Chip.pending, wired_irr_two, second]
      simpa [wired] using open2
  obtain ⟨k, first⟩ := Option.isSome_iff_exists.mp asked
  rw [next, first]
  simp only
  split_ifs with two
  · subst two
    obtain ⟨-, irr, -⟩ := Chip.next_spec first
    rw [wired_irr_two] at irr
    simpa using irr
  · rfl

end Pair

end Linux391.Pic
