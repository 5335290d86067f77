import Linux391.Kernel.State

/-!
Pids and scheduling (`kernel/tasks.c`, `kernel/scheduling.c`).

`pid_usage` says which pids are taken, `sched` which processes may run. The tick
looks upwards from the running pid for the next one that may, and switches the
kernel stack, CR3 and the task state segment to it.
-/

namespace Linux391

open Memory

namespace Kernel

/-! ### Pids -/

/-- `tasks_pid_new`: the lowest free pid from 1 on; `none` is the return value -1. -/
def tasksPidNew (k : Kernel) : Option (Nat × Kernel) :=
  ((List.range' 1 15).find? fun i => k.pidUsage i == 0).map fun i =>
    (i, { k with pidUsage := Function.update k.pidUsage i 1 })

/-- A pid handed out was the lowest free one. -/
theorem tasksPidNew_eq_some {k k' : Kernel} {pid : Nat} (new : k.tasksPidNew = some (pid, k')) :
    1 ≤ pid ∧ pid < 16 ∧ k.pidUsage pid = 0 ∧ (∀ q, 1 ≤ q → q < pid → k.pidUsage q ≠ 0) ∧
      k' = { k with pidUsage := Function.update k.pidUsage pid 1 } := by
  obtain ⟨i, found, eq⟩ := Option.map_eq_some_iff.mp new
  cases eq
  obtain ⟨free, j, inside, at_j, before⟩ := List.find?_eq_some_iff_getElem.mp found
  simp only [List.length_range'] at inside
  simp only [List.getElem_range', Nat.one_mul] at at_j before
  refine ⟨by omega, by omega, by simpa using free, fun q pos lt => ?_, rfl⟩
  have taken := before (q - 1) (by omega)
  rw [Nat.add_sub_cancel' pos] at taken
  simpa using taken

/-- A free pid makes the search succeed. -/
theorem tasksPidNew_isSome {k : Kernel} {p : Nat} (pos : 1 ≤ p) (lt : p < 16)
    (free : k.pidUsage p = 0) : k.tasksPidNew.isSome := by
  simp only [tasksPidNew, Option.isSome_map, List.find?_isSome, List.mem_range'_1]
  exact ⟨p, ⟨pos, by omega⟩, by simp [free]⟩

def tasksPidFree (k : Kernel) (pid : Nat) : Kernel :=
  { k with pidUsage := Function.update k.pidUsage pid 0 }

def scheduleTask (k : Kernel) (pid : Nat) : Kernel :=
  { k with sched := Function.update k.sched pid 1 }

def unscheduleTask (k : Kernel) (pid : Nat) : Kernel :=
  { k with sched := Function.update k.sched pid 0 }

/-! ### Address spaces -/

/-- `paging_allocate`. -/
def pagingAllocate (P : Platform) (k : Kernel) (pid : Nat) : Kernel :=
  { k with paging := k.paging.allocate P.pages pid }

/-- `paging_update_control`; a pid out of range changes nothing and returns -1. -/
def pagingUpdateControl (k : Kernel) (pid : Nat) : Kernel :=
  if pid < 16 then { k with cr3 := pid } else k

/-- `update_video_paging`, which reloads CR3 with the directory of the pid it is given. -/
def updateVideoPaging (k : Kernel) (pid addr : Nat) : Kernel :=
  { k with paging := k.paging.updateVideo pid addr, cr3 := pid }

/-- A byte stored at a physical address. Kernel memory is mapped where it lies. -/
def storePhysical (k : Kernel) (pa : Nat) (b : UInt8) : Kernel :=
  if 0x400000 ≤ pa ∧ pa < 0x800000 then k.withMem (Function.update k.mem pa b)
  else if 0xB8000 ≤ pa ∧ pa < 0xB9000 then { k with terms := k.terms.storeVideo (pa - 0xB8000) b }
  else { k with frames := Function.update k.frames pa b }

/-- Bytes the kernel stores from a virtual address on, through the page directory CR3
points at; `none` is a page fault, whose handler never returns. -/
def storeUser (P : Platform) (k : Kernel) (va : Nat) : List UInt8 → Option Kernel
  | [] => some k
  | b :: rest => do
      let pa ← k.paging.walk P.pages P.otherTables false k.cr3 va
      storeUser P (k.storePhysical pa b) (va + 1) rest

/-! ### The tick -/

/-- Where the search of `scheduler_tick` looks, in order, before it falls back to the
running pid. A pid out of range never ends the loop, but then all 16 entries are
looked at and one of them is scheduled. -/
def candidates (pid : Nat) : List Nat :=
  (List.range (if pid < 16 then 15 else 16)).map fun j => (pid + 1 + j) % 16

/-- The pid `scheduler_tick` picks; `none` if no process may run. -/
def nextPid (sched : Nat → UInt8) (pid : Nat) : Option Nat :=
  if (List.range 16).any fun i => sched i == 1 then
    some (((candidates pid).find? fun i => sched i == 1).getD pid)
  else none

/-- The tick picks a scheduled pid or stays with the running one. -/
theorem nextPid_cases {sched : Nat → UInt8} {pid next : Nat}
    (picked : nextPid sched pid = some next) :
    (next < 16 ∧ sched next = 1) ∨ next = pid := by
  unfold nextPid at picked
  split at picked
  · cases found : (candidates pid).find? fun i => sched i == 1 with
    | none =>
        rw [found] at picked
        exact .inr (Option.some.inj picked).symm
    | some i =>
        rw [found] at picked
        obtain rfl : i = next := Option.some.inj picked
        obtain ⟨j, -, rfl⟩ := List.mem_map.mp (List.mem_of_find?_eq_some found)
        exact .inl ⟨Nat.mod_lt _ (by decide), by simpa using List.find?_some found⟩
  · cases picked

/-- With the running pid scheduled the tick picks a scheduled pid. -/
theorem nextPid_eq_some {sched : Nat → UInt8} {pid : Nat} (lt : pid < 16)
    (runnable : sched pid = 1) :
    ∃ next < 16, nextPid sched pid = some next ∧ sched next = 1 := by
  have some_runnable : (List.range 16).any (fun i => sched i == 1) = true :=
    List.any_eq_true.mpr ⟨pid, List.mem_range.mpr lt, by simp [runnable]⟩
  have picked : nextPid sched pid =
      some (((candidates pid).find? fun i => sched i == 1).getD pid) := by
    rw [nextPid, if_pos some_runnable]
  rcases nextPid_cases picked with ⟨small, scheduled⟩ | same
  · exact ⟨_, small, picked, scheduled⟩
  · exact ⟨pid, lt, picked.trans (congrArg some same), runnable⟩

/-- The screen the tick maps for a process of terminal `term`: video memory if
`is_active_term`, and `term_data_ptr` otherwise. Both take the index as a `uint8_t`. -/
def screenOf (P : Platform) (k : Kernel) (term : Nat) : Nat :=
  if terminal (term % 256) = some k.terms.activeTerm then 0xB8000
  else P.screenBuffers + 4000 * (term % 256)

/-- `curr->ebp_reg` and `curr->esp_reg` take the registers' values. -/
def saveRegs (k : Kernel) (esp ebp : Nat) : Kernel :=
  (k.setField .ebpReg ebp).setField .espReg esp

/-- `tss.ss0 = KERNEL_DS; tss.esp0 = esp0`. -/
def setTss (k : Kernel) (esp0 : Nat) : Kernel := { k with tss := ⟨0x18, esp0⟩ }

/-- The registers are loaded from a PCB. -/
def loadRegs (k : Kernel) (pcb : Nat) : Kernel :=
  { k with esp := get k.mem pcb .espReg, ebp := get k.mem pcb .ebpReg }

/-- `scheduler_tick`, interrupting the running process with these registers. -/
def schedulerTick (P : Platform) (k : Kernel) (esp ebp : Nat) : Kernel :=
  match nextPid k.sched (k.field .pid) with
  | none => k
  | some next =>
      let nextContext := getPcb next
      let k := (((k.saveRegs esp ebp).setTss (kernelStack next)).pagingUpdateControl next)
      let k := if get k.mem nextContext .vidmap = 1 then
          k.updateVideoPaging (get k.mem nextContext .pid)
            (k.screenOf P (get k.mem nextContext .term))
        else k
      k.loadRegs nextContext

/-- The tick leaves the set of scheduled processes and the terminals alone. -/
theorem schedulerTick_tables (P : Platform) (k : Kernel) (esp ebp : Nat) :
    (k.schedulerTick P esp ebp).sched = k.sched ∧ (k.schedulerTick P esp ebp).terms = k.terms := by
  simp only [schedulerTick]
  split
  · exact ⟨rfl, rfl⟩
  · simp only [loadRegs, pagingUpdateControl]
    split_ifs <;> exact ⟨rfl, rfl⟩

end Kernel

end Linux391
