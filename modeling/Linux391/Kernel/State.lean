import Linux391.Drivers.Fs
import Linux391.Drivers.Termios
import Linux391.Kernel.Paging
import Linux391.Kernel.Pcb

/-!
The state of the kernel.

What the boot loader and the linker fix is a `Platform`: the file system image and
the addresses of the driver tables and page tables. Everything the kernel's
events change is a `Kernel`.
-/

namespace Linux391

open Memory

structure Platform where
  fs : Fs
  drivers : DriverLayout
  pages : PageLayout
  /-- What a page walk would read in pages that are none of the kernel's tables. -/
  otherTables : Nat → Nat → Pte
  /-- The address of `screen_buffers`. -/
  screenBuffers : Nat

/-- The two fields of the task state segment the kernel writes. -/
structure Tss where
  ss0 : Nat
  esp0 : Nat

structure Kernel where
  /-- `pid_usage`: 0 is `FREE`, 1 is `IN_USE`. -/
  pidUsage : Nat → UInt8
  sched : Nat → UInt8
  /-- Kernel memory, in which the PCBs lie. -/
  mem : Mem
  paging : Paging
  /-- The index of the page directory that CR3 points at. -/
  cr3 : Nat
  tss : Tss
  /-- The stack and frame pointer of the running process's kernel stack. -/
  esp : Nat
  ebp : Nat
  /-- Physical memory other than video memory and the kernel's own 4 MB page: low
  memory and, from 8 MB on, the program images. -/
  frames : Mem
  terms : Terms
  /-- `shell_active` of the keyboard driver. -/
  shellActive : Fin 4 → UInt8
  /-- Register A of the real-time clock. -/
  rtcRegA : UInt8

namespace Kernel

/-- `pcb_process()`. -/
def curr (k : Kernel) : Nat := pcbProcess k.esp

/-- A field of the running process's PCB. -/
def field (k : Kernel) (f : PcbField) : Nat := get k.mem k.curr f

/-- The state with other contents of kernel memory. -/
def withMem (k : Kernel) (m : Mem) : Kernel := { k with mem := m }

@[simp] theorem withMem_mem (k : Kernel) (m : Mem) : (k.withMem m).mem = m := rfl

@[simp] theorem withMem_curr (k : Kernel) (m : Mem) : (k.withMem m).curr = k.curr := rfl

/-- `curr->f = v`. -/
def setField (k : Kernel) (f : PcbField) (v : Nat) : Kernel := k.withMem (set k.mem k.curr f v)

/-- `pcb_close(pcb, fd)`. -/
def close (k : Kernel) (pcb : Nat) (fd : Fin 8) : Kernel := k.withMem (pcbClose k.mem pcb fd)

/-- Closing one's own entry is an assignment to its flags. -/
theorem close_eq (k : Kernel) (fd : Fin 8) : k.close k.curr fd = k.setField (.flags fd) 0 := rfl

@[simp] theorem setField_curr (k : Kernel) (f : PcbField) (v : Nat) :
    (k.setField f v).curr = k.curr := rfl

@[simp] theorem close_curr (k : Kernel) (pcb : Nat) (fd : Fin 8) :
    (k.close pcb fd).curr = k.curr := rfl

/-- Writing a field of the running process's PCB changes that field of it only. -/
theorem field_setField {k : Kernel} {p : Nat} (here : k.curr = getPcb p) (lt : p < 16)
    (f : PcbField) (v : Nat) (g : PcbField) :
    (k.setField f v).field g = if f = g then v % 256 ^ f.size else k.field g := by
  have written := get_set (m := k.mem) (v := v) (f := f) (g := g) lt lt
  simp only [true_and] at written
  simp only [field, setField, withMem_mem, withMem_curr]
  rwa [here]

/-- Several assignments to the running process's PCB. -/
theorem field_setAll {k : Kernel} {p : Nat} (here : k.curr = getPcb p) (lt : p < 16)
    (assignments : List (PcbField × Nat)) (f : PcbField) :
    (k.withMem (setAll k.mem k.curr assignments)).field f =
      assigned (k.field f) f assignments := by
  have written := get_setAll (m := k.mem) (f := f) lt assignments
  simp only [field, withMem_mem, withMem_curr]
  rwa [here]

/-- The entry of `term_data_array` with an index; only 0 to 3 exist. -/
def terminal (index : Nat) : Option (Fin 4) := if h : index < 4 then some ⟨index, h⟩ else none

/-- Zeroed memory, with the stack pointer on the kernel stack of pid `p`. -/
def blank (p : Nat) : Kernel where
  pidUsage _ := 0
  sched _ := 0
  mem _ := 0
  paging := Paging.zero
  cr3 := 0
  tss := ⟨0x18, kernelStack p⟩
  esp := kernelStack p
  ebp := kernelStack p
  frames _ := 0
  terms := Terms.blank
  shellActive _ := 0
  rtcRegA := 0

theorem blank_curr {p : Nat} (lt : p < 16) : (blank p).curr = getPcb p :=
  pcbProcess_kernelStack lt

end Kernel

/-- A linker's choice of addresses for the sample image. -/
def Platform.sample : Platform where
  fs := Fs.sample
  drivers := ⟨fun
      | .rtc => 0x401000
      | .file => 0x401010
      | .dir => 0x401020
      | .terminal => 0x401030,
    fun d e => by cases d <;> cases e <;> simp, fun d => by cases d <;> decide⟩
  pages := Paging.sampleLayout
  otherTables _ _ := ⟨false, false, false, 0⟩
  screenBuffers := 0x440000

end Linux391
