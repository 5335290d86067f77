import Linux391.Library.Pic

/-!
The driver of the two interrupt controllers (`drivers/i8259.c`, `drivers/i8259.h`).

The driver keeps no state of its own: a mask is read back from the chip, changed in one bit
and written again. Each call on a line below 16 is reduced to what it does to that line
(`enableIrq_eq`, `disableIrq_eq`, `sendEoi_eq`).
-/

namespace Linux391.I8259

open Pic

def master8259Port : BitVec 16 := 0x20
def masterMask8259Port : BitVec 16 := 0x21
def slave8259Port : BitVec 16 := 0xA0
def slaveMask8259Port : BitVec 16 := 0xA1

def icw1 : BitVec 8 := 0x11
def icw2Master : BitVec 8 := 0x20
def icw2Slave : BitVec 8 := 0x28
def icw3Master : BitVec 8 := 0x04
def icw3Slave : BitVec 8 := 0x02
def icw4 : BitVec 8 := 0x01
def eoi : BitVec 8 := 0x60

/-- A byte written to a port; the other ports are none of the chips'. -/
def outb (data : BitVec 8) (port : BitVec 16) (s : Pair) : Pair :=
  if port = master8259Port then { s with master := s.master.command data }
  else if port = masterMask8259Port then { s with master := s.master.data data }
  else if port = slave8259Port then { s with slave := s.slave.command data }
  else if port = slaveMask8259Port then { s with slave := s.slave.data data }
  else s

/-- `inb` of a mask port. -/
def inb (port : BitVec 16) (s : Pair) : BitVec 32 :=
  (if port = masterMask8259Port then s.master.imr
   else if port = slaveMask8259Port then s.slave.imr
   else 0xFF).setWidth 32

/-- The `int` is cut to the `uint8_t` it is assigned to. -/
def enableIrq (irqNum : BitVec 32) (s : Pair) : Pair :=
  if irqNum < 8 then
    outb ((inb masterMask8259Port s &&& ~~~(1#32 <<< irqNum)).setWidth 8) masterMask8259Port s
  else
    outb ((inb slaveMask8259Port s &&& ~~~(1#32 <<< (irqNum - 8))).setWidth 8) slaveMask8259Port s

def disableIrq (irqNum : BitVec 32) (s : Pair) : Pair :=
  if irqNum < 8 then
    outb ((inb masterMask8259Port s ||| 1#32 <<< irqNum).setWidth 8) masterMask8259Port s
  else
    outb ((inb slaveMask8259Port s ||| 1#32 <<< (irqNum - 8)).setWidth 8) slaveMask8259Port s

def sendEoi (irqNum : BitVec 32) (s : Pair) : Pair :=
  if 8 ≤ irqNum then
    let slaveEoi := (eoi.setWidth 32 ||| (irqNum - 8)).setWidth 8
    let masterEoi := eoi ||| 2
    outb masterEoi master8259Port (outb slaveEoi slave8259Port s)
  else outb ((eoi.setWidth 32 ||| irqNum).setWidth 8) master8259Port s

/-- The four words of both chips. -/
def sendIcws (s : Pair) : Pair :=
  let s := outb icw1 slave8259Port (outb icw1 master8259Port s)
  let s := outb icw2Slave slaveMask8259Port (outb icw2Master masterMask8259Port s)
  let s := outb icw3Slave slaveMask8259Port (outb icw3Master masterMask8259Port s)
  outb icw4 slaveMask8259Port (outb icw4 masterMask8259Port s)

/-- `i8259_init`: the command words, all lines masked, and line 2 opened for the slave. -/
def i8259Init (s : Pair) : Pair :=
  let s := (List.range 16).foldl (fun s i => disableIrq (BitVec.ofNat 32 i) s) (sendIcws s)
  enableIrq 2 s

/-- A line as the calls take it. -/
def irq (n : Fin 16) : BitVec 32 := BitVec.ofNat 32 n

/-! ### What the calls do to a line -/

variable {s : Pair} {n m : Fin 16}

theorem irq_lt : ∀ n : Fin 16, irq n < 8 ↔ n.val < 8 := by decide

theorem clear_bit : ∀ n : Fin 16, (~~~(1#32 <<< (if irq n < 8 then irq n else irq n - 8))).setWidth 8 =
    ~~~line (sub n) := by decide

theorem set_bit : ∀ n : Fin 16, (1#32 <<< (if irq n < 8 then irq n else irq n - 8)).setWidth 8 =
    line (sub n) := by decide

theorem eoi_word : ∀ n : Fin 16,
    (eoi.setWidth 32 ||| (if irq n < 8 then irq n else irq n - 8)).setWidth 8 =
      0x60 ||| BitVec.ofNat 8 (sub n) := by decide

theorem narrow_and (v : BitVec 8) (w : BitVec 32) :
    (v.setWidth 32 &&& w).setWidth 8 = v &&& w.setWidth 8 := by
  rw [BitVec.setWidth_and, BitVec.setWidth_setWidth_of_le v (by decide), BitVec.setWidth_eq]

theorem narrow_or (v : BitVec 8) (w : BitVec 32) :
    (v.setWidth 32 ||| w).setWidth 8 = v ||| w.setWidth 8 := by
  rw [BitVec.setWidth_or, BitVec.setWidth_setWidth_of_le v (by decide), BitVec.setWidth_eq]

/-- A mask written to the chip of line `n`. -/
theorem outb_mask (settled : s.Settled) (v : BitVec 8) :
    outb v (if n.val < 8 then masterMask8259Port else slaveMask8259Port) s =
      s.setChip n { s.chip n with imr := v } := by
  have written : (s.chip n).data v = { s.chip n with imr := v } := by
    simp only [Chip.data, settled.ready n]
  rw [← written]
  unfold Pair.setChip Pair.chip
  split_ifs <;> rfl

/-- The mask read from the chip of line `n`. -/
theorem inb_mask : inb (if n.val < 8 then masterMask8259Port else slaveMask8259Port) s =
    (s.chip n).imr.setWidth 32 := by
  unfold Pair.chip
  split_ifs <;> rfl

theorem enableIrq_eq (settled : s.Settled) : enableIrq (irq n) s = s.openLine n := by
  have branches : enableIrq (irq n) s =
      outb ((inb (if n.val < 8 then masterMask8259Port else slaveMask8259Port) s &&&
          ~~~(1#32 <<< (if irq n < 8 then irq n else irq n - 8))).setWidth 8)
        (if n.val < 8 then masterMask8259Port else slaveMask8259Port) s := by
    unfold enableIrq
    simp only [irq_lt]
    split_ifs <;> rfl
  rw [branches, outb_mask settled, inb_mask, narrow_and, clear_bit]
  rfl

theorem disableIrq_eq (settled : s.Settled) : disableIrq (irq n) s = s.maskLine n := by
  have branches : disableIrq (irq n) s =
      outb ((inb (if n.val < 8 then masterMask8259Port else slaveMask8259Port) s |||
          1#32 <<< (if irq n < 8 then irq n else irq n - 8)).setWidth 8)
        (if n.val < 8 then masterMask8259Port else slaveMask8259Port) s := by
    unfold disableIrq
    simp only [irq_lt]
    split_ifs <;> rfl
  rw [branches, outb_mask settled, inb_mask, narrow_or, set_bit]
  rfl

theorem sendEoi_eq : sendEoi (irq n) s = s.finish n := by
  have word := eoi_word n
  unfold sendEoi Pair.finish
  simp only [← BitVec.not_lt, irq_lt]
  by_cases side : n.val < 8
  · rw [if_pos ((irq_lt n).mpr side)] at word
    rw [if_neg (not_not.mpr side), if_pos side, word]
    have ended := s.master.command_specific (sub n)
    simp only [Pair.endLine, Pair.setChip, Pair.chip, if_pos side]
    exact congrArg (fun c => { s with master := c }) ended
  · rw [if_neg (mt (irq_lt n).mp side)] at word
    rw [if_pos side, if_neg side, word]
    have ended := s.slave.command_specific (sub n)
    have two : s.master.command (eoi ||| 2) = { s.master with isr := s.master.isr &&& ~~~line 2 } :=
      s.master.command_specific 2
    have slave : outb (0x60 ||| BitVec.ofNat 8 (sub n)) slave8259Port s = s.endLine n := by
      simp only [Pair.endLine, Pair.setChip, Pair.chip, if_neg side]
      exact congrArg (fun c => { s with slave := c }) ended
    rw [slave]
    simp only [Pair.endLine, Pair.setChip, Pair.chip, if_neg side]
    exact congrArg (fun c => ({ s with master := c, slave := _ } : Pair)) two

/-! ### The lines over time -/

/-- Both chips after their command words, whatever they were doing before. -/
theorem sendIcws_eq (s : Pair) :
    sendIcws s = ⟨⟨.ready, true, false, 0x20, 0x04, false, 0, 0, 0⟩,
      ⟨.ready, true, false, 0x28, 0x02, false, 0, 0, 0⟩⟩ := by
  simp [sendIcws, outb, master8259Port, masterMask8259Port, slave8259Port, slaveMask8259Port,
    Chip.command, Chip.data, icw1, icw2Master, icw2Slave, icw3Master, icw3Slave, icw4, has]

/-- The pair as `i8259_init` leaves it. -/
def initialised : Pair where
  master := ⟨.ready, true, false, 0x20, 0x04, false, 0xFB, 0, 0⟩
  slave := ⟨.ready, true, false, 0x28, 0x02, false, 0xFF, 0, 0⟩

theorem i8259Init_eq (s : Pair) : i8259Init s = initialised := by
  rw [i8259Init, sendIcws_eq]
  decide +kernel

theorem initialised_settled : initialised.Settled where
  ready := by decide
  normal := by decide

/-- A call of the driver, or what the devices and the processor do meanwhile. -/
inductive Call where
  | enableIrq (n : Fin 16)
  | disableIrq (n : Fin 16)
  | sendEoi (n : Fin 16)
  | request (n : Fin 16)
  | ack (n : Fin 16)

def Call.run (s : Pair) : Call → Pair
  | .enableIrq n => I8259.enableIrq (irq n) s
  | .disableIrq n => I8259.disableIrq (irq n) s
  | .sendEoi n => I8259.sendEoi (irq n) s
  | .request n => s.request n
  | .ack n => s.ack n

/-- The sixteen lines without the registers that hold them. -/
structure Lines where
  masked : Fin 16 → Bool
  asking : Fin 16 → Bool
  served : Fin 16 → Bool

/-- What a call means: one line changes, and where it is served or ended through the second
controller, line 2 with it. -/
def Call.runLines (l : Lines) : Call → Lines
  | .enableIrq n => { l with masked := fun m => l.masked m && m ≠ n }
  | .disableIrq n => { l with masked := fun m => l.masked m || m = n }
  | .sendEoi n => { l with served := fun m => l.served m && !decide (Pair.Uses n m) }
  | .request n => { l with asking := fun m => l.asking m || m = n }
  | .ack n => { l with asking := fun m => l.asking m && !decide (Pair.Uses n m),
                       served := fun m => l.served m || decide (Pair.Uses n m) }

def lines (s : Pair) : Lines where
  masked m := s.on m Chip.imr
  asking m := s.on m Chip.irr
  served m := s.on m Chip.isr

/-- All lines but the one of the second controller are masked. -/
def Lines.init : Lines := ⟨fun m => m ≠ 2, fun _ => false, fun _ => false⟩

theorem Call.run_settled (c : Call) (settled : s.Settled) : (c.run s).Settled := by
  cases c with
  | enableIrq n =>
    rw [run, enableIrq_eq settled]
    exact settled.openLine
  | disableIrq n =>
    rw [run, disableIrq_eq settled]
    exact settled.maskLine
  | sendEoi n =>
    rw [run, sendEoi_eq]
    exact settled.finish
  | request => exact settled.request
  | ack => exact settled.ack

theorem Call.run_vector (c : Call) (settled : s.Settled) : (c.run s).vector m = s.vector m := by
  cases c with
  | enableIrq n => rw [run, enableIrq_eq settled, Pair.vector_openLine]
  | disableIrq n => rw [run, disableIrq_eq settled, Pair.vector_maskLine]
  | sendEoi n => rw [run, sendEoi_eq, Pair.vector_finish]
  | request => exact Pair.vector_request
  | ack => exact Pair.vector_ack

/-- One call on the registers is one call on the lines. -/
theorem Call.lines_run (c : Call) (settled : s.Settled) : lines (c.run s) = c.runLines (lines s) := by
  cases c with
  | enableIrq n =>
    simp [run, runLines, lines, enableIrq_eq settled, Pair.on_openLine_imr, Pair.on_openLine_irr,
      Pair.on_openLine_isr]
  | disableIrq n =>
    simp [run, runLines, lines, disableIrq_eq settled, Pair.on_maskLine_imr, Pair.on_maskLine_irr,
      Pair.on_maskLine_isr]
  | sendEoi n =>
    simp [run, runLines, lines, sendEoi_eq, Pair.on_finish_isr, Pair.on_finish_irr,
      Pair.on_finish_imr]
  | request n =>
    simp [run, runLines, lines, Pair.on_request_irr, Pair.on_request_isr, Pair.on_request_imr]
  | ack n =>
    simp [run, runLines, lines, Pair.on_ack_irr, settled.on_ack_isr, Pair.on_ack_imr]

/-- After `i8259_init`, and whatever the controllers did before it, any sequence of calls,
requests and acknowledgements does to the registers what it means for the lines, and line `n`
keeps vector 0x20 + `n`. -/
theorem calls_refine_lines (before : Pair) (calls : List Call) :
    lines (calls.foldl Call.run (i8259Init before)) = calls.foldl Call.runLines Lines.init ∧
      ∀ m, (calls.foldl Call.run (i8259Init before)).vector m = 0x20 + m.val := by
  have run : ∀ (calls : List Call) (s : Pair), s.Settled →
      lines (calls.foldl Call.run s) = calls.foldl Call.runLines (lines s) ∧
        ∀ m, (calls.foldl Call.run s).vector m = s.vector m := by
    intro calls
    induction calls with
    | nil => exact fun s _ => ⟨rfl, fun _ => rfl⟩
    | cons c calls ih =>
      intro s settled
      obtain ⟨same, vectors⟩ := ih (c.run s) (c.run_settled settled)
      refine ⟨?_, fun m => (vectors m).trans (c.run_vector settled)⟩
      rw [List.foldl_cons, same, c.lines_run settled, List.foldl_cons]
  have first : lines initialised = Lines.init := by
    have each : ∀ m, initialised.on m Chip.imr = decide (m ≠ 2) ∧
        initialised.on m Chip.irr = false ∧ initialised.on m Chip.isr = false := by decide
    simp [lines, Lines.init, each]
  have vectors : ∀ m, initialised.vector m = 0x20 + m.val := by decide
  rw [i8259Init_eq]
  obtain ⟨same, kept⟩ := run calls initialised initialised_settled
  exact ⟨first ▸ same, fun m => (kept m).trans (vectors m)⟩

end Linux391.I8259
