import Linux391.Library.Memory
import Mathlib.Data.List.FinRange
import Mathlib.Data.Fintype.Fin
import Mathlib.Tactic.FinCases

/-!
Process control blocks (`kernel/pcb.c`, `kernel/pcb.h`).

A PCB is a packed structure at the bottom of its process's 8 KB kernel stack, so
it is modelled where it lives: as bytes of memory at the address `getPcb pid`.
`PcbField` names its fields with their offsets, `get` and `set` read and write
one. Clients reason with `get_set`, which says that fields of the 16 PCBs are
independent of each other; only writes through a wild pointer need the bytes.
-/

namespace Linux391

open Memory

/-- The fields of `pcb_t` other than `args`, which is a byte array (`pcbArgs`). -/
inductive PcbField where
  | fileOperationJmpTbl (fd : Fin 8)
  | inodePtr (fd : Fin 8)
  | filePosition (fd : Fin 8)
  | flags (fd : Fin 8)
  | parentPcb
  | child
  | espReg
  | ebpReg
  | pid
  | vidmap
  | term
  | rtcFd
  | rtc
  | rtcRate
  deriving DecidableEq, Repr

namespace PcbField

/-- Offsets in the packed structure; one descriptor element takes 16 bytes. -/
def offset : PcbField → Nat
  | .fileOperationJmpTbl fd => 16 * fd
  | .inodePtr fd => 16 * fd + 4
  | .filePosition fd => 16 * fd + 8
  | .flags fd => 16 * fd + 12
  | .parentPcb => 128
  | .child => 132
  | .espReg => 136
  | .ebpReg => 140
  | .pid => 144
  | .vidmap => 246
  | .term => 247
  | .rtcFd => 251
  | .rtc => 252
  | .rtcRate => 253

def size : PcbField → Nat
  | .pid => 2
  | .vidmap => 1
  | .rtcFd => 1
  | .rtc => 1
  | _ => 4

theorem offset_size_le (f : PcbField) : f.offset + f.size ≤ 257 := by
  cases f <;> simp only [offset, size] <;> omega

/-- A descriptor element, in the order of its addresses. -/
def element (fd : Fin 8) : List PcbField :=
  [.fileOperationJmpTbl fd, .inodePtr fd, .filePosition fd, .flags fd]

/-- What comes behind the descriptors. -/
def rest : List PcbField :=
  [.parentPcb, .child, .espReg, .ebpReg, .pid, .vidmap, .term, .rtcFd, .rtc, .rtcRate]

/-- The fields in the order of their addresses. -/
def layout : List PcbField := (List.finRange 8).flatMap element ++ rest

theorem mem_layout (f : PcbField) : f ∈ layout := by
  cases f <;> simp [layout, element, rest]

theorem pairwise_layout : layout.Pairwise fun f g => f.offset + f.size ≤ g.offset := by
  decide +kernel

/-- Two fields share no byte. -/
theorem apart {f g : PcbField} (ne : f ≠ g) :
    f.offset + f.size ≤ g.offset ∨ g.offset + g.size ≤ f.offset := by
  have symmetric : Std.Symm fun f g : PcbField =>
      f.offset + f.size ≤ g.offset ∨ g.offset + g.size ≤ f.offset := ⟨fun _ _ => Or.symm⟩
  have ordered : layout.Pairwise fun f g =>
      f.offset + f.size ≤ g.offset ∨ g.offset + g.size ≤ f.offset := pairwise_layout.imp .inl
  exact ordered.forall (mem_layout f) (mem_layout g) ne

/-- The `args` array occupies bytes 146 to 245, away from every other field. -/
theorem apart_args (f : PcbField) : f.offset + f.size ≤ 146 ∨ 246 ≤ f.offset := by
  cases f <;> simp only [offset, size] <;> omega

end PcbField

/-! ### Addresses -/

/-- `get_pcb`: from the end of kernel memory down by one kernel stack for each
pid, rounded down to the stack's bottom. -/
def getPcb (pid : Nat) : Nat := (0x800000 - 1 - 0x2000 * pid) &&& 0xFFFFE000

/-- `pcb_process` for a stack pointer: `esp & PCB_MASK`. -/
def pcbProcess (esp : Nat) : Nat := esp &&& 0xFFFFE000

/-- `KERNEL_STACK(pid)`: where the kernel stack of `pid` starts. -/
def kernelStack (pid : Nat) : Nat := 0x800000 - 0x2000 * pid - 4

theorem getPcb_eq {p : Nat} (lt : p < 16) : getPcb p = 0x7FE000 - 0x2000 * p := by
  revert p
  decide

theorem getPcb_inj {p q : Nat} (hp : p < 16) (hq : q < 16) (same : getPcb p = getPcb q) :
    p = q := by
  rw [getPcb_eq hp, getPcb_eq hq] at same
  omega

theorem getPcb_ne_zero {p : Nat} (lt : p < 16) : getPcb p ≠ 0 := by
  rw [getPcb_eq lt]
  omega

/-- The stack pointer a new process starts with finds its own PCB again. -/
theorem pcbProcess_kernelStack {p : Nat} (lt : p < 16) :
    pcbProcess (kernelStack p) = getPcb p := by
  revert p
  decide

/-- `newPCB + KERNEL_STACK_SIZE - 4` is `KERNEL_STACK(pid)`. -/
theorem getPcb_top {p : Nat} (lt : p < 16) : getPcb p + 0x2000 - 4 = kernelStack p := by
  revert p
  decide

/-! ### Reading and writing fields -/

/-- `((pcb_t *) pcb)->f`. -/
def get (m : Mem) (pcb : Nat) (f : PcbField) : Nat := load m (pcb + f.offset) f.size

/-- `((pcb_t *) pcb)->f = v`. -/
def set (m : Mem) (pcb : Nat) (f : PcbField) (v : Nat) : Mem := store m (pcb + f.offset) f.size v

/-- Several assignments to one PCB, in order. -/
def setAll (m : Mem) (pcb : Nat) (assignments : List (PcbField × Nat)) : Mem :=
  assignments.foldl (fun m a => set m pcb a.1 a.2) m

theorem setAll_append (m : Mem) (pcb : Nat) (xs ys : List (PcbField × Nat)) :
    setAll m pcb (xs ++ ys) = setAll (setAll m pcb xs) pcb ys := List.foldl_append

/-- Writing one field of one PCB changes that field only. -/
theorem get_set {m : Mem} {p q v : Nat} {f g : PcbField} (hp : p < 16) (hq : q < 16) :
    get (set m (getPcb p) f v) (getPcb q) g =
      if p = q ∧ f = g then v % 256 ^ f.size else get m (getPcb q) g := by
  have hf := f.offset_size_le
  have hg := g.offset_size_le
  split
  · rename_i same
    obtain ⟨rfl, rfl⟩ := same
    exact load_store_same _ _ _ _
  · rename_i different
    apply load_store_of_disjoint
    rw [getPcb_eq hp, getPcb_eq hq]
    by_cases pids : p = q
    · have fields : f ≠ g := fun h => different ⟨pids, h⟩
      have := PcbField.apart fields
      omega
    · omega

theorem get_set_other {m : Mem} {p q v : Nat} {f g : PcbField} (hp : p < 16) (hq : q < 16)
    (ne : p ≠ q ∨ f ≠ g) : get (set m (getPcb p) f v) (getPcb q) g = get m (getPcb q) g := by
  rw [get_set hp hq, if_neg]
  rintro ⟨rfl, rfl⟩
  simp at ne

/-- Assignments to one PCB leave every other PCB alone. -/
theorem get_setAll_other {m : Mem} {p q : Nat} {g : PcbField} (hp : p < 16) (hq : q < 16)
    (ne : p ≠ q) (assignments : List (PcbField × Nat)) :
    get (setAll m (getPcb p) assignments) (getPcb q) g = get m (getPcb q) g := by
  induction assignments generalizing m with
  | nil => rfl
  | cons a rest ih =>
      exact (ih (m := set m (getPcb p) a.1 a.2)).trans (get_set_other hp hq (.inl ne))

/-- The value a field holds after a list of assignments: the last one made to
it, or what it held before. -/
def assigned (old : Nat) (f : PcbField) (assignments : List (PcbField × Nat)) : Nat :=
  assignments.foldl (fun v a => if a.1 = f then a.2 % 256 ^ a.1.size else v) old

/-- Assignments to other fields. -/
theorem assigned_of_ne {f : PcbField} {assignments : List (PcbField × Nat)} {old : Nat}
    (others : ∀ a ∈ assignments, a.1 ≠ f) : assigned old f assignments = old := by
  induction assignments with
  | nil => rfl
  | cons a rest ih =>
      obtain ⟨first, others⟩ := List.forall_mem_cons.mp others
      have step := ih others
      unfold assigned at step ⊢
      rw [List.foldl_cons, if_neg first, step]

theorem get_setAll {m : Mem} {p : Nat} {f : PcbField} (hp : p < 16)
    (assignments : List (PcbField × Nat)) :
    get (setAll m (getPcb p) assignments) (getPcb p) f =
      assigned (get m (getPcb p) f) f assignments := by
  induction assignments generalizing m with
  | nil => rfl
  | cons a rest ih =>
      have step := ih (m := set m (getPcb p) a.1 a.2)
      rw [get_set hp hp] at step
      simp only [true_and] at step
      exact step

/-! ### Arguments -/

/-- The `args` array of a PCB. -/
def pcbArgs (m : Mem) (pcb : Nat) : Nat → UInt8 := fun i => m (pcb + 146 + i)

/-- `strcpy(pcb->args, src)`, given the bytes it stores. -/
def setArgs (m : Mem) (pcb : Nat) (bytes : List UInt8) : Mem := storeBytes m (pcb + 146) bytes

/-- A field that `bytes` copied to `args` cannot reach: they stay on the page, and the
field lies before them or after them. -/
def Unreached (bytes : List UInt8) (g : PcbField) : Prop :=
  bytes.length ≤ 0x1000 ∧ (g.offset + g.size ≤ 146 ∨ 146 + bytes.length ≤ g.offset)

/-- Arguments that fit the array reach no field. -/
theorem unreached_of_fit {bytes : List UInt8} (fit : bytes.length ≤ 100) (g : PcbField) :
    Unreached bytes g := by
  have := g.apart_args
  unfold Unreached
  omega

/-- Arguments change no field they cannot reach, of any PCB. -/
theorem get_setArgs {m : Mem} {p q : Nat} {bytes : List UInt8} {g : PcbField} (hp : p < 16)
    (hq : q < 16) (fit : Unreached bytes g) :
    get (setArgs m (getPcb p) bytes) (getPcb q) g = get m (getPcb q) g := by
  have hg := g.offset_size_le
  unfold Unreached at fit
  apply load_storeBytes_of_disjoint
  rw [getPcb_eq hp, getPcb_eq hq]
  by_cases pids : p = q
  · subst pids
    omega
  · omega

/-- The `args` array of `p` is the same in both memories. -/
def SameArgs (m m' : Mem) (p : Nat) : Prop :=
  ∀ i < 100, pcbArgs m' (getPcb p) i = pcbArgs m (getPcb p) i

namespace SameArgs

variable {m m' m'' : Mem} {p q : Nat}

theorem refl (m : Mem) (p : Nat) : SameArgs m m p := fun _ _ => rfl

theorem trans (one : SameArgs m m' p) (two : SameArgs m' m'' p) : SameArgs m m'' p :=
  fun i lt => (two i lt).trans (one i lt)

theorem set (hq : q < 16) (hp : p < 16) (f : PcbField) (v : Nat) :
    SameArgs m (Linux391.set m (getPcb q) f v) p := by
  intro i lt
  have size := f.offset_size_le
  have apart := f.apart_args
  have pcb := getPcb_eq hp
  have pcb' := getPcb_eq hq
  have outside : getPcb p + 146 + i < getPcb q + f.offset ∨
      getPcb q + f.offset + f.size ≤ getPcb p + 146 + i := by
    by_cases pids : p = q
    · subst pids
      omega
    · omega
  rcases outside with before | after
  · exact store_of_lt before
  · exact store_of_ge after

theorem setAll (hq : q < 16) (hp : p < 16) (assignments : List (PcbField × Nat)) :
    SameArgs m (Linux391.setAll m (getPcb q) assignments) p := by
  induction assignments generalizing m with
  | nil => exact refl m p
  | cons a rest ih => exact (set hq hp a.1 a.2).trans ih

/-- Arguments that stay on their page reach those of no other PCB. -/
theorem setArgs {bytes : List UInt8} (hq : q < 16) (hp : p < 16) (ne : p ≠ q)
    (short : bytes.length ≤ 0x1000) : SameArgs m (Linux391.setArgs m (getPcb q) bytes) p := by
  intro i lt
  have pcb := getPcb_eq hp
  have pcb' := getPcb_eq hq
  rcases Nat.lt_or_gt_of_ne ne with before | after
  · exact storeBytes_of_ge (by omega)
  · exact storeBytes_of_lt (by omega)

end SameArgs

/-! ### Initialisation and descriptors -/

/-- The four driver jump tables. -/
inductive Driver where
  | rtc
  | file
  | dir
  | terminal
  deriving DecidableEq, Repr

/-- Where the linker placed the jump tables `rtc_driver`, `file_driver`,
`dir_driver` and `terminal_driver`. -/
structure DriverLayout where
  addr : Driver → Nat
  inj : Function.Injective addr
  lt : ∀ d, addr d < 2 ^ 32

/-- The jump table a pointer designates, if it is one of the four. -/
def DriverLayout.driverAt (D : DriverLayout) (pointer : Nat) : Option Driver :=
  [Driver.rtc, .file, .dir, .terminal].find? fun d => D.addr d == pointer

theorem DriverLayout.driverAt_addr (D : DriverLayout) (d : Driver) :
    D.driverAt (D.addr d) = some d := by
  cases d <;> simp [driverAt, D.inj.eq_iff]

theorem DriverLayout.driverAt_eq_some {D : DriverLayout} {pointer : Nat} {d : Driver} :
    D.driverAt pointer = some d ↔ D.addr d = pointer := by
  constructor
  · intro found
    simpa using List.find?_some found
  · rintro rfl
    exact D.driverAt_addr d

/-- The assignments `pcb_init` makes, in order. -/
def pcbInitAssignments (D : DriverLayout) : List (PcbField × Nat) :=
  [(.term, 0)] ++
    (List.finRange 8).flatMap (fun fd =>
      [(.fileOperationJmpTbl fd, 0), (.inodePtr fd, 0), (.filePosition fd, 0), (.flags fd, 0)]) ++
    [(.fileOperationJmpTbl 0, D.addr .terminal), (.flags 0, 1),
      (.fileOperationJmpTbl 1, D.addr .terminal), (.flags 1, 1)]

def pcbInit (D : DriverLayout) (m : Mem) (pcb : Nat) : Mem := setAll m pcb (pcbInitAssignments D)

section Init

variable {D : DriverLayout} {m : Mem} {p : Nat}

theorem get_pcbInit_flags (hp : p < 16) (fd : Fin 8) :
    get (pcbInit D m (getPcb p)) (getPcb p) (.flags fd) = if fd.val < 2 then 1 else 0 := by
  rw [pcbInit, get_setAll hp]
  fin_cases fd <;> rfl

theorem get_pcbInit_jmpTbl (hp : p < 16) (fd : Fin 8) :
    get (pcbInit D m (getPcb p)) (getPcb p) (.fileOperationJmpTbl fd) =
      if fd.val < 2 then D.addr .terminal else 0 := by
  have small : D.addr .terminal % 256 ^ 4 = D.addr .terminal := Nat.mod_eq_of_lt (D.lt _)
  rw [pcbInit, get_setAll hp]
  fin_cases fd <;> first | exact small | rfl

theorem get_pcbInit_other (hp : p < 16) {q : Nat} (hq : q < 16) (ne : p ≠ q) (f : PcbField) :
    get (pcbInit D m (getPcb p)) (getPcb q) f = get m (getPcb q) f :=
  get_setAll_other hp hq ne _

end Init

/-- The first closed entry from index 2 on, as `pcb_open` searches it. -/
def firstClosed (m : Mem) (pcb : Nat) : Option (Fin 8) :=
  (List.finRange 8).find? fun fd => decide (2 ≤ fd.val) && get m pcb (.flags fd) == 0

/-- `pcb_open`: `none` is the return value -1. -/
def pcbOpen (m : Mem) (pcb fileOpTbl : Nat) : Option (Fin 8 × Mem) :=
  (firstClosed m pcb).map fun fd =>
    (fd, setAll m pcb [(.fileOperationJmpTbl fd, fileOpTbl), (.filePosition fd, 0),
      (.inodePtr fd, 0), (.flags fd, 1)])

/-- `pcb_close` for an index in range; larger ones change nothing and return -1. -/
def pcbClose (m : Mem) (pcb : Nat) (fd : Fin 8) : Mem := set m pcb (.flags fd) 0

end Linux391
