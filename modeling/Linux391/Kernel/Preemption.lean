import Linux391.Kernel.Linkage
import Linux391.Kernel.Pcb
import Mathlib.Logic.Relation

/-!
Changes of process on the kernel stacks (`pit_linkage`, `pit_handler` of `drivers/pit.c`,
`scheduler_tick` of `kernel/scheduling.c`, and the ends of `syscall_execute`, `syscall_init_shell`
and `syscall_halt`).

A process gives up the processor inside one of three functions: `scheduler_tick`,
`syscall_execute` and `syscall_init_shell` store `esp` and `ebp` in its PCB. It gets it back in one
of two, `scheduler_tick` and `syscall_halt`, which load them from there. Nothing says that the
function that goes on is the one that stopped: the `leave` and `ret` at the end of one function run
on the frame of another. `switch_returns` says that this makes no difference, over all runs: to the
process it is as if the function that it had called returned.

For a process that the timer has interrupted the rest of the way is the end of `pit_handler`,
`popal` and `iret`. `preemption_transparent` says that it goes on with all its registers.

The functions are compiled without optimisation, each with a frame of its own. What they do besides
is taken as it is (`Works`): below their frame they use the stack, and of the processes that have
given up the processor they leave alone what those need (`Kept`). The kernel stacks lie in kernel
memory, which every page directory maps alike.
-/

namespace Linux391.Preemption

open X86 FlatMemory Linkage

/-! ### The code -/

/-- What a process that does not run needs: the registers in its PCB, and its kernel stack. -/
def Kept (p : Fin 16) (x : UInt32) : Prop :=
  getPcb p + 136 ≤ x.toNat ∧ x.toNat < getPcb p + 144 ∨
    getPcb p + 257 ≤ x.toNat ∧ x.toNat < getPcb p + 0x2000

/-- That of several processes. -/
def KernelStacks (who : Fin 16 → Prop) (x : UInt32) : Prop := ∃ q, who q ∧ Kept q x

/-- A part of a function that runs on the stack of `p`: the frames stay, its own and the callers',
and so do the stacks of the other processes of `who`. -/
structure Works (who : Fin 16 → Prop) (p : Fin 16) (c c' : Cpu) : Prop where
  esp : c'.esp = c.esp
  ebp : c'.regs.ebp = c.regs.ebp
  cs : c'.cs = c.cs
  ss : c'.ss = c.ss
  mem : Outside (KernelStacks who) (getPcb p + 257) c.regs.ebp.toNat c.mem c'.mem

/-- `curr->ebp_reg` and `curr->esp_reg` are stored in the PCB that `esp` finds. -/
def saveRegs (c : Cpu) : Cpu :=
  let curr := pcbProcess c.esp.toNat
  let mem := store32 c.mem (UInt32.ofNat (curr + PcbField.ebpReg.offset)) c.regs.ebp
  { c with mem := store32 mem (UInt32.ofNat (curr + PcbField.espReg.offset)) c.esp }

/-- `%esp` and `%ebp` are loaded from the PCB of `n`. -/
def loadRegs (n : Fin 16) (c : Cpu) : Cpu :=
  { c with
    esp := load32 c.mem (UInt32.ofNat (getPcb n + PcbField.espReg.offset))
    regs := { c.regs with
      ebp := load32 c.mem (UInt32.ofNat (getPcb n + PcbField.ebpReg.offset)) } }

/-- A function of the kernel has been called on the stack of `p`, with room for its frame. -/
structure Called (p : Fin 16) (locals : Nat) (c : Cpu) : Prop where
  cs : c.cs = UInt32.ofNat kernelCs
  ss : c.ss = kernelDs
  low : getPcb p + 257 + 4 + 4 * locals ≤ c.esp.toNat
  high : c.esp.toNat + 4 ≤ getPcb p + 0x2000

/-- A function called in `c` up to where it has saved the registers and used its stack once more:
`scheduler_tick` for the change of page directory, the other two for the frame of their `iret`. -/
def Saves (who : Fin 16 → Prop) (p : Fin 16) (c c' : Cpu) : Prop :=
  ∃ locals found, Called p locals c ∧ Works who p (c.prologue locals) found ∧
    Works who p (saveRegs found) c'

/-- The end of a function that has changed to the stack of `n`. `syscall_halt` still uses its local
variables. -/
def Resumes (who : Fin 16 → Prop) (n : Fin 16) (c c' : Cpu) : Prop :=
  ∃ r, Works who n (loadRegs n c) r ∧ c' = r.leave.ret

/-- A process is in the middle of a function called in `k`. -/
structure Suspended (m : Space) (p : Fin 16) (k : Cpu) : Prop where
  cs : k.cs = UInt32.ofNat kernelCs
  ss : k.ss = kernelDs
  low : getPcb p + 257 + 4 ≤ k.esp.toNat
  high : k.esp.toNat + 4 ≤ getPcb p + 0x2000
  ebpReg : load32 m (UInt32.ofNat (getPcb p + PcbField.ebpReg.offset)) = k.esp - 4
  frame : load32 m (k.esp - 4) = k.regs.ebp
  stack : Outside (Kept p) 0 k.esp.toNat k.mem m

/-- The function called in `k` has returned to the process `n`. The other callee-saved registers
are those of the process that ran before. -/
structure Resumed (n : Fin 16) (k r : Cpu) : Prop where
  cs : r.cs = k.cs
  ss : r.ss = k.ss
  eip : r.eip = k.word 0
  esp : r.esp = (k.drop 1).esp
  ebp : r.regs.ebp = k.regs.ebp
  stack : Outside (Kept n) 0 k.esp.toNat k.mem r.mem

/-! ### Giving up the processor and getting it back -/

variable {who : Fin 16 → Prop} {m m' : Space} {p n : Fin 16} {c c' k r : Cpu}

theorem toNat_pcb (p : Fin 16) {o : Nat} (small : o ≤ 0x2000) :
    (UInt32.ofNat (getPcb p + o)).toNat = getPcb p + o := by
  have := getPcb_eq p.isLt
  exact toNat_ofNat_of_lt (by omega)

/-- Words on the kernel stack of `p` stay when only other bytes change. -/
theorem holds_keep (p : Fin 16) {ws : List UInt32} {lo hi : Nat} {a : UInt32}
    (out : Outside (Kept p) lo hi m m') (low : getPcb p + 257 ≤ a.toNat)
    (high : a.toNat + 4 * ws.length ≤ getPcb p + 0x2000) (apart : hi ≤ a.toNat)
    (holds : Holds m a ws) : Holds m' a ws := by
  have base := getPcb_eq p.isLt
  exact out.holds (by omega) (fun x ge lt => .inr ⟨by omega, by omega⟩) (.inr apart) holds

/-- So does the frame pointer in its PCB. -/
theorem ebpReg_keep (p : Fin 16) {lo hi : Nat} (out : Outside (Kept p) lo hi m m')
    (apart : getPcb p + 144 ≤ lo ∨ hi ≤ getPcb p + 140) :
    load32 m' (UInt32.ofNat (getPcb p + PcbField.ebpReg.offset)) =
      load32 m (UInt32.ofNat (getPcb p + PcbField.ebpReg.offset)) := by
  have base := getPcb_eq p.isLt
  have pcb : (UInt32.ofNat (getPcb p + PcbField.ebpReg.offset)).toNat = getPcb p + 140 :=
    toNat_pcb p (by decide)
  have held : Holds m (UInt32.ofNat (getPcb p + PcbField.ebpReg.offset))
      [load32 m (UInt32.ofNat (getPcb p + PcbField.ebpReg.offset))] := ⟨rfl, trivial⟩
  have single (w : UInt32) : [w].length = 1 := rfl
  exact (out.holds (by rw [single]; omega)
    (fun x ge lt => .inl ⟨by omega, by rw [single] at lt; omega⟩) (by rw [single]; omega) held).1

theorem Outside.own {lo hi : Nat} (out : Outside (KernelStacks who) lo hi m m') (mem : who p) :
    Outside (Kept p) lo hi m m' := out.within fun _ inside => ⟨p, mem, inside⟩

/-- Any stack pointer into the kernel stack of `p` finds its PCB. -/
theorem pcbProcess_of_block {e : Nat} (low : getPcb p ≤ e) (high : e < getPcb p + 0x2000) :
    pcbProcess e = getPcb p := by
  have base := getPcb_eq p.isLt
  have cleared : e &&& 0xFFFFE000 = e / 2 ^ 13 % 2 ^ 19 * 2 ^ 13 := by
    refine Nat.eq_of_testBit_eq fun i => ?_
    have mask : (0xFFFFE000 : Nat) = (2 ^ 19 - 1) * 2 ^ 13 := rfl
    rw [mask, Nat.testBit_and, Nat.testBit_mul_two_pow, Nat.testBit_mul_two_pow,
      Nat.testBit_two_pow_sub_one, Nat.testBit_mod_two_pow, Nat.testBit_div_two_pow]
    by_cases upper : 13 ≤ i
    · simp [upper, Bool.and_comm]
    · simp [upper]
  rw [pcbProcess, cleared]
  omega

/-- A function is called with `ws` on the stack and has come to some point. -/
theorem Works.frame {ws : List UInt32} {locals : Nat} (mem : who p) (stacked : c.Stacked ws)
    (low : getPcb p + 257 + 4 + 4 * locals ≤ c.esp.toNat)
    (high : c.esp.toNat + 4 * ws.length ≤ getPcb p + 0x2000)
    (works : Works who p (c.prologue locals) c') :
    Holds c'.mem c'.regs.ebp ([c.regs.ebp] ++ ws) ∧
      c'.regs.ebp.toNat = c.esp.toNat - 4 ∧
      c'.esp.toNat = c.esp.toNat - 4 - 4 * locals ∧
      (c'.cs = c.cs ∧ c'.ss = c.ss) ∧
      Outside (KernelStacks who) (getPcb p + 257) c.esp.toNat c.mem c'.mem := by
  have base := getPcb_eq p.isLt
  have frame : (c.esp - 4).toNat = c.esp.toNat - 4 := toNat_sub_ofNat (k := 4) (by omega)
  have stored : Outside (KernelStacks who) (c.esp - 4).toNat ((c.esp - 4).toNat + 4) c.mem
      (c.prologue locals).mem := outside_store32 (by omega)
  have worked : Outside (KernelStacks who) (getPcb p + 257) (c.esp - 4).toNat (c.prologue locals).mem
      c'.mem := works.mem
  have held : Holds (c.prologue locals).mem (c.esp - 4) ([c.regs.ebp] ++ ws) :=
    stacked.prologue (by omega) locals
  have ebp : c'.regs.ebp = c.esp - 4 := works.ebp
  have esp : c'.esp = c.esp - 4 - UInt32.ofNat (4 * locals) := works.esp
  refine ⟨?_, ebp ▸ frame, ?_, ⟨works.cs, works.ss⟩, ?_⟩
  · rw [ebp]
    refine holds_keep p (Outside.own worked mem) (by omega) ?_ le_rfl held
    rw [List.length_append, List.length_singleton]
    omega
  · rw [esp, toNat_sub_ofNat (by omega), frame]
  · exact (stored.mono (by omega) (by omega)).trans (worked.mono le_rfl (by omega))

/-- Saving the registers changes the PCB. -/
theorem saveRegs_spec (low : getPcb p ≤ c.esp.toNat) (high : c.esp.toNat < getPcb p + 0x2000) :
    load32 (saveRegs c).mem (UInt32.ofNat (getPcb p + PcbField.ebpReg.offset)) = c.regs.ebp ∧
      ∀ zone, Outside zone (getPcb p) (getPcb p + 257) c.mem (saveRegs c).mem := by
  have curr : pcbProcess c.esp.toNat = getPcb p := pcbProcess_of_block low high
  have base := getPcb_eq p.isLt
  have ebpReg : (UInt32.ofNat (getPcb p + PcbField.ebpReg.offset)).toNat = getPcb p + 140 :=
    toNat_pcb p (by decide)
  have espReg : (UInt32.ofNat (getPcb p + PcbField.espReg.offset)).toNat = getPcb p + 136 :=
    toNat_pcb p (by decide)
  obtain ⟨mem, stored⟩ : ∃ mem, mem =
      store32 c.mem (UInt32.ofNat (getPcb p + PcbField.ebpReg.offset)) c.regs.ebp := ⟨_, rfl⟩
  have saved : (saveRegs c).mem =
      store32 mem (UInt32.ofNat (getPcb p + PcbField.espReg.offset)) c.esp := by
    simp only [saveRegs, curr, stored]
  have out₁ zone : Outside zone (getPcb p + 140) (getPcb p + 140 + 4) c.mem mem := by
    rw [stored, ← ebpReg]
    exact outside_store32 (by omega)
  have out₂ zone : Outside zone (getPcb p + 136) (getPcb p + 136 + 4) mem (saveRegs c).mem := by
    rw [saved, ← espReg]
    exact outside_store32 (by omega)
  refine ⟨?_, fun zone => ((out₁ zone).mono (by omega) (by omega)).trans
    ((out₂ zone).mono (by omega) (by omega))⟩
  rw [ebpReg_keep p (out₂ _) (.inr (by omega)), stored, load32_store32]

/-- A process that has saved its registers can be resumed, and the stacks of the others are as they
were. -/
theorem Saves.suspended (mem : who p) (saves : Saves who p c c') :
    Suspended c'.mem p c ∧ (c'.cs = c.cs ∧ c'.ss = c.ss) ∧
      ∀ q, who q → q ≠ p → ∀ x, Kept q x → c'.mem x = c.mem x := by
  obtain ⟨locals, found, called, worked, left⟩ := saves
  have low := called.low
  have high := called.high
  have base := getPcb_eq p.isLt
  have nothing : c.Stacked [] := trivial
  obtain ⟨held, ebp, esp, ⟨cs, ss⟩, out⟩ :=
    worked.frame mem nothing low (by rw [List.length_nil]; omega)
  obtain ⟨saved, out₁⟩ := saveRegs_spec (p := p) (c := found) (by omega) (by omega)
  have out₂ : Outside (KernelStacks who) (getPcb p + 257) found.regs.ebp.toNat (saveRegs found).mem
      c'.mem := left.mem
  have all : Outside (KernelStacks who) (getPcb p) c.esp.toNat c.mem c'.mem :=
    ((out.mono (by omega) le_rfl).trans ((out₁ _).mono le_rfl (by omega))).trans
      (out₂.mono (by omega) (by omega))
  have frame : (c.esp - 4).toNat = c.esp.toNat - 4 := toNat_sub_ofNat (k := 4) (by omega)
  have own : found.regs.ebp = c.esp - 4 := by
    rw [← UInt32.toNat_inj, ebp, frame]
  have single (w : UInt32) : ([w] ++ []).length = 1 := rfl
  refine ⟨⟨called.cs, called.ss, by omega, high, ?_, ?_, ?_⟩, ⟨left.cs.trans cs, left.ss.trans ss⟩, ?_⟩
  · rw [ebpReg_keep p (Outside.own out₂ mem) (.inl (by omega)), saved, own]
  · rw [own] at held
    have kept := holds_keep p (out₁ _) (by omega) (by rw [single]; omega) (by omega) held
    exact (holds_keep p (Outside.own out₂ mem) (by omega) (by rw [single]; omega) (by omega) kept).1
  · intro x inside apart
    exact all x ⟨p, mem, inside⟩ (by omega)
  · intro q kept other x inside
    refine all x ⟨q, kept, inside⟩ ?_
    have base' := getPcb_eq q.isLt
    have apart : q.val ≠ p.val := fun same => other (Fin.ext same)
    unfold Kept at inside
    omega

/-- A suspended process stays so when only the part of its stack changes that it does not use. -/
theorem Suspended.keep (suspended : Suspended m p k)
    (out : Outside (Kept p) (getPcb p + 257) (k.esp.toNat - 4) m m') : Suspended m' p k := by
  obtain ⟨cs, ss, low, high, ebpReg, frame, stack⟩ := suspended
  have base := getPcb_eq p.isLt
  have place : (k.esp - 4).toNat = k.esp.toNat - 4 := toNat_sub_ofNat (k := 4) (by omega)
  refine ⟨cs, ss, low, high, ?_, ?_, fun x inside apart => ?_⟩
  · rw [ebpReg_keep p out (.inl (by omega)), ebpReg]
  · have held : Holds m (k.esp - 4) [k.regs.ebp] := ⟨frame, trivial⟩
    exact (holds_keep p out (by omega) (by rw [List.length_singleton]; omega) (by omega) held).1
  · exact (out x inside (by omega)).trans (stack x inside apart)

theorem Suspended.congr (suspended : Suspended m p k) (same : ∀ x, Kept p x → m' x = m x) :
    Suspended m' p k := suspended.keep fun x inside _ => same x inside

/-- The last part of a change, on the stack that it has changed to. -/
theorem Suspended.works (suspended : Suspended c.mem n k) (works : Works who n (loadRegs n c) r) :
    r.regs.ebp = k.esp - 4 ∧
      Outside (KernelStacks who) (getPcb n + 257) (k.esp.toNat - 4) c.mem r.mem := by
  have base := getPcb_eq n.isLt
  have low := suspended.low
  have place : (k.esp - 4).toNat = k.esp.toNat - 4 := toNat_sub_ofNat (k := 4) (by omega)
  refine ⟨works.ebp.trans suspended.ebpReg, ?_⟩
  rw [← place]
  exact suspended.ebpReg ▸ works.mem

/-- Whatever function loads the registers, it returns from the function that saved them. -/
theorem Suspended.resumed (mem : who n) (suspended : Suspended c.mem n k)
    (cs : c.cs = UInt32.ofNat kernelCs) (ss : c.ss = kernelDs) (resumes : Resumes who n c c') :
    Resumed n k c' := by
  obtain ⟨r, works, rfl⟩ := resumes
  obtain ⟨ebp, out⟩ := suspended.works works
  have low := suspended.low
  have high := suspended.high
  have there := suspended.keep (Outside.own out mem)
  -- the return address is where the call has put it
  have back : Holds r.mem k.esp [k.word 0] := by
    have called : Holds k.mem k.esp [k.word 0] := by
      have here : k.esp + UInt32.ofNat (4 * 0) = k.esp := UInt32.add_zero _
      refine ⟨?_, trivial⟩
      rw [Cpu.word, here]
    exact holds_keep n there.stack (by omega) (by rw [List.length_singleton]; omega) le_rfl called
  have up : k.esp - 4 + 4 = k.esp := UInt32.sub_add_cancel ..
  have held : Holds r.mem r.regs.ebp ([k.regs.ebp, k.word 0] ++ []) := by
    rw [ebp]
    exact ⟨there.frame, up.symm ▸ back⟩
  obtain ⟨returned, -⟩ := Cpu.leave_ret held
  have down : k.esp - 4 + 8 = k.esp + 4 := by grind
  rw [returned]
  exact ⟨works.cs.trans (cs.trans suspended.cs.symm), works.ss.trans (ss.trans suspended.ss.symm), rfl,
    ebp ▸ down, rfl, there.stack⟩

/-- The end of a change uses the stack of the process it has changed to only. -/
theorem Suspended.others (suspended : Suspended c.mem n k) (resumes : Resumes who n c c')
    {q : Fin 16} (mem : who q) (other : q ≠ n) (x : UInt32) (inside : Kept q x) :
    c'.mem x = c.mem x := by
  obtain ⟨r, works, rfl⟩ := resumes
  obtain ⟨-, out⟩ := suspended.works works
  have high := suspended.high
  have base := getPcb_eq n.isLt
  have base' := getPcb_eq q.isLt
  have apart : q.val ≠ n.val := fun same => other (Fin.ext same)
  refine out x ⟨q, mem, inside⟩ ?_
  unfold Kept at inside
  omega

/-! ### Runs -/

/-- The process that runs, the processor, and for each process that has given it up the call in
which it is. -/
structure Machine where
  running : Fin 16
  cpu : Cpu
  suspended : Fin 16 → Option Cpu

namespace Machine

/-- Who is suspended once the running process is too. -/
def suspend (m : Machine) : Fin 16 → Option Cpu :=
  Function.update m.suspended m.running (some m.cpu)

/-- The process has given up the processor. -/
def Waiting (suspended : Fin 16 → Option Cpu) (q : Fin 16) : Prop := ∃ k, suspended q = some k

/-- The stacks of suspended processes stay. -/
def Keeps (suspended : Fin 16 → Option Cpu) (c c' : Cpu) : Prop :=
  ∀ q, Waiting suspended q → ∀ x, Kept q x → c'.mem x = c.mem x

/-- A change to a process that was suspended in the call `k`. -/
inductive Switch (m : Machine) (k : Cpu) : Machine → Prop where
  /-- `scheduler_tick`, perhaps back to the process itself. -/
  | tick {n : Fin 16} {saved r : Cpu} : Saves (Waiting m.suspend) m.running m.cpu saved →
      m.suspend n = some k → Resumes (Waiting m.suspend) n saved r →
      Switch m k ⟨n, r, Function.update m.suspend n none⟩
  /-- `syscall_halt`, to the parent. -/
  | halt {n : Fin 16} {r : Cpu} : m.cpu.cs = UInt32.ofNat kernelCs → m.cpu.ss = kernelDs →
      m.suspended n = some k → Resumes (Waiting m.suspended) n m.cpu r →
      Switch m k ⟨n, r, Function.update m.suspended n none⟩

inductive Step (m : Machine) : Machine → Prop where
  /-- The running process goes on, in a program or in the kernel. -/
  | runs {c : Cpu} : Keeps m.suspended m.cpu c → Step m { m with cpu := c }
  /-- `syscall_execute` and `syscall_init_shell` start a program, with a pid that no suspended
  process has. -/
  | starts {n : Fin 16} {saved c : Cpu} : Saves (Waiting m.suspend) m.running m.cpu saved →
      m.suspend n = none → Keeps m.suspend saved c → Step m ⟨n, c, m.suspend⟩
  | switch {k : Cpu} {m' : Machine} : Switch m k m' → Step m m'

/-- Reached from a state in which no process has given up the processor. -/
def Reached (m : Machine) : Prop :=
  ∃ p c, Relation.ReflTransGen Step ⟨p, c, fun _ => none⟩ m

/-- Who is suspended can be resumed, and does not run. -/
structure Sound (m : Machine) : Prop where
  running : m.suspended m.running = none
  each : ∀ q k, m.suspended q = some k → Suspended m.cpu.mem q k

variable {m m' : Machine} {saved : Cpu}

theorem waiting_running (m : Machine) : Waiting m.suspend m.running :=
  ⟨m.cpu, Function.update_self ..⟩

/-- Also with the running process among them. -/
theorem Sound.suspend (sound : Sound m) (saves : Saves (Waiting m.suspend) m.running m.cpu saved)
    (q : Fin 16) (k : Cpu) (found : m.suspend q = some k) : Suspended saved.mem q k := by
  obtain ⟨own, -, others⟩ := saves.suspended m.waiting_running
  by_cases same : q = m.running
  · subst same
    rw [Machine.suspend, Function.update_self, Option.some.injEq] at found
    exact found ▸ own
  · have before : m.suspended q = some k := by
      rwa [Machine.suspend, Function.update_of_ne same] at found
    exact (sound.each q k before).congr (others q ⟨k, found⟩ same)

/-- After a change the process that runs is the one resumed, and the others are still
suspended. -/
theorem sound_resumed {suspended : Fin 16 → Option Cpu}
    (each : ∀ q k, suspended q = some k → Suspended c.mem q k) (found : suspended n = some k)
    (resumes : Resumes (Waiting suspended) n c r) :
    Sound ⟨n, r, Function.update suspended n none⟩ := by
  refine ⟨Function.update_self .., fun q k' other => ?_⟩
  by_cases same : q = n
  · subst same
    have resumed : Function.update suspended q none q = none := Function.update_self ..
    cases resumed.symm.trans other
  · have before : suspended q = some k' := by
      rw [← other]
      exact (Function.update_of_ne same ..).symm
    exact (each q k' before).congr ((each n k found).others resumes ⟨k', before⟩ same)

theorem Sound.switch (sound : Sound m) (switch : Switch m k m') :
    Resumed m'.running k m'.cpu ∧ Sound m' := by
  cases switch with
  | tick saves found resumes =>
    have each := sound.suspend saves
    obtain ⟨own, ⟨cs, ss⟩, -⟩ := saves.suspended m.waiting_running
    exact ⟨(each _ _ found).resumed ⟨k, found⟩ (cs.trans own.cs) (ss.trans own.ss) resumes,
      sound_resumed each found resumes⟩
  | halt cs ss found resumes =>
    exact ⟨(sound.each _ _ found).resumed ⟨k, found⟩ cs ss resumes,
      sound_resumed sound.each found resumes⟩

theorem Sound.step (sound : Sound m) (step : Step m m') : Sound m' := by
  cases step with
  | runs keeps =>
    exact ⟨sound.running, fun q k found => (sound.each q k found).congr (keeps q ⟨k, found⟩)⟩
  | starts saves free keeps =>
    exact ⟨free, fun q k found => (sound.suspend saves q k found).congr (keeps q ⟨k, found⟩)⟩
  | switch switch => exact (sound.switch switch).2

theorem Reached.sound (reached : Reached m) : Sound m := by
  obtain ⟨p, c, steps⟩ := reached
  induction steps with
  | refl => exact ⟨rfl, nofun⟩
  | tail _ step ih => exact ih.step step

end Machine

/-! ### Preemption -/

/-- The compiled code of the timer's interrupt: the address of `pit_linkage`, the addresses behind
the calls of `pit_handler` and of `scheduler_tick`, and the local variables of `pit_handler`. -/
structure PitCode where
  pitLinkage : Nat
  popal : UInt32
  afterTick : UInt32
  handlerLocals : Nat

namespace PitCode

variable (code : PitCode)

def gate : Gate := ⟨code.pitLinkage, kernelCs, 0, .interrupt⟩

/-- Room on the kernel stack above the PCB for the interrupt up to the call of
`scheduler_tick`. -/
def need : Nat := 257 + 4 * (11 + code.handlerLocals)

/-- `tss.esp0` while `p` runs. -/
def esp0 (p : Fin 16) : UInt32 := UInt32.ofNat (kernelStack p)

/-- A state of process `p` in which the timer may interrupt: a program, or the kernel on the kernel
stack of `p` with room left. -/
def Interruptible (p : Fin 16) (c : Cpu) : Prop :=
  UInt32.ofNat kernelCs &&& 3 = c.cs &&& 3 →
    c.ss = kernelDs ∧ getPcb p + code.need + 12 ≤ c.esp.toNat ∧ c.esp.toNat ≤ getPcb p + 0x2000

/-- `k` is the call of `scheduler_tick` in the interrupt of `c`: `pit_linkage` has called
`pit_handler`, which has ended the interrupt. -/
def Interrupts (p : Fin 16) (c k : Cpu) : Prop :=
  code.Interruptible p c ∧ ∃ ended,
    Works (fun _ => True) p
        ((irqEntry (esp0 p) code.gate code.popal c).prologue code.handlerLocals) ended ∧
      k = ended.push code.afterTick

/-- The end of `pit_handler` and of `pit_linkage`. `none` is somewhere else. -/
def ends (c : Cpu) : Option Cpu :=
  if c.eip = code.afterTick then
    let c := c.leave.ret
    if c.eip = code.popal then some c.popal.iret else none
  else none

variable {code}

/-- Where the frame of the interrupt lies. -/
theorem entry_bounds (fits : code.need + 24 ≤ 0x2000) (ready : code.Interruptible p c) :
    getPcb p + code.need ≤ (enterGate (esp0 p) code.gate c).esp.toNat ∧
      (enterGate (esp0 p) code.gate c).esp.toNat +
          4 * (c.frame (UInt32.ofNat code.gate.selector)).length ≤
        getPcb p + 0x2000 := by
  have base := getPcb_eq p.isLt
  have top := getPcb_top p.isLt
  by_cases same : UInt32.ofNat code.gate.selector &&& 3 = c.cs &&& 3
  · obtain ⟨-, low, high⟩ := ready same
    have length : (c.frame (UInt32.ofNat code.gate.selector)).length = 3 := by
      simp [Cpu.frame, same]
    rw [enterGate, Cpu.esp_enter, if_pos same, length, toNat_sub_ofNat (by omega)]
    omega
  · have length : (c.frame (UInt32.ofNat code.gate.selector)).length = 5 := by
      simp [Cpu.frame, same]
    have start : (esp0 p).toNat = kernelStack p := toNat_ofNat_of_lt (by omega)
    rw [enterGate, Cpu.esp_enter, if_neg same, length, toNat_sub_ofNat (by omega)]
    omega

/-- In the kernel the frame of the interrupt lies below what is on the stack. -/
theorem entry_same (code : PitCode) (p : Fin 16)
    (same : UInt32.ofNat code.gate.selector &&& 3 = c.cs &&& 3) (room : 12 ≤ c.esp.toNat) :
    (enterGate (esp0 p) code.gate c).esp.toNat +
        4 * (c.frame (UInt32.ofNat code.gate.selector)).length =
      c.esp.toNat := by
  have length : (c.frame (UInt32.ofNat code.gate.selector)).length = 3 := by simp [Cpu.frame, same]
  rw [enterGate, Cpu.esp_enter, if_pos same, length, toNat_sub_ofNat (by omega)]
  omega

theorem ss_entry (ready : code.Interruptible p c) :
    (enterGate (esp0 p) code.gate c).ss = kernelDs := by
  rw [enterGate, Cpu.ss_enter]
  split_ifs with same
  · exact (ready same).1
  · rfl

/-- The interrupt and `pushal`, before `pit_handler` is called. -/
theorem irqEntry_spec (code : PitCode) {e : Nat}
    (entry : e = (enterGate (esp0 p) code.gate c).esp.toNat) (low : 36 ≤ e)
    (high : e + 20 ≤ 2 ^ 31) :
    (irqEntry (esp0 p) code.gate code.popal c).esp.toNat = e - 36 ∧
      (irqEntry (esp0 p) code.gate code.popal c).regs.ebp = c.regs.ebp ∧
      (irqEntry (esp0 p) code.gate code.popal c).cs = UInt32.ofNat code.gate.selector ∧
      (irqEntry (esp0 p) code.gate code.popal c).ss = (enterGate (esp0 p) code.gate c).ss ∧
      ∀ zone, Outside zone (e - 36)
        (e + 4 * (c.frame (UInt32.ofNat code.gate.selector)).length) c.mem
        (irqEntry (esp0 p) code.gate code.popal c).mem := by
  have short := c.length_frame_le (UInt32.ofNat code.gate.selector)
  have top : (irqEntry (esp0 p) code.gate code.popal c).esp.toNat = e - 36 := by
    rw [irqEntry_eq, Cpu.pushAll_eq]
    show ((enterGate (esp0 p) code.gate c).esp - UInt32.ofNat 36).toNat = _
    rw [toNat_sub_ofNat (by omega), entry]
  have regs : (enterGate (esp0 p) code.gate c).regs = c.regs := Cpu.regs_enter
  refine ⟨top, ?_, ?_, ?_, fun zone x _ apart => ?_⟩
  · rw [irqEntry_eq, Cpu.pushAll_eq]
    exact congrArg Regs.ebp regs
  · rw [irqEntry_eq, Cpu.pushAll_eq]
    rfl
  · rw [irqEntry_eq, Cpu.pushAll_eq]
  · exact mem_irqEntry (far_of_apart (by omega) (by omega))

/-- What the interrupt of `c` has put on the stack of `p` when `scheduler_tick` is called. -/
theorem Interrupts.stacked (fits : code.need + 24 ≤ 0x2000) (interrupts : code.Interrupts p c k) :
    Holds k.mem k.regs.ebp ([c.regs.ebp, code.popal] ++
        (Cpu.saved c.regs (enterGate (esp0 p) code.gate c).esp ++
          c.frame (UInt32.ofNat code.gate.selector))) ∧
      (k.regs.ebp + 40 = (enterGate (esp0 p) code.gate c).esp ∧ k.word 0 = code.afterTick) ∧
      (k.cs = UInt32.ofNat code.gate.selector ∧ k.ss = (enterGate (esp0 p) code.gate c).ss) ∧
      (k.esp.toNat + 44 + 4 * code.handlerLocals = (enterGate (esp0 p) code.gate c).esp.toNat ∧
        getPcb p + 257 ≤ k.esp.toNat ∧ k.esp.toNat ≤ k.regs.ebp.toNat ∧
        k.regs.ebp.toNat + 40 + 4 * (c.frame (UInt32.ofNat code.gate.selector)).length ≤
          getPcb p + 0x2000) ∧
      Outside (KernelStacks fun _ => True) (getPcb p)
        ((enterGate (esp0 p) code.gate c).esp.toNat +
          4 * (c.frame (UInt32.ofNat code.gate.selector)).length) c.mem k.mem := by
  obtain ⟨ready, ended, worked, rfl⟩ := interrupts
  obtain ⟨low, high⟩ := entry_bounds fits ready
  have short := c.length_frame_le (UInt32.ofNat code.gate.selector)
  have base := getPcb_eq p.isLt
  unfold need at low
  obtain ⟨e, entry⟩ : ∃ e, e = (enterGate (esp0 p) code.gate c).esp.toNat := ⟨_, rfl⟩
  rw [← entry] at low high ⊢
  obtain ⟨esp₀, ebp₀, cs₀, ss₀, out₀⟩ := irqEntry_spec code entry (by omega) (by omega)
  have length : ([code.popal] ++ (Cpu.saved c.regs (enterGate (esp0 p) code.gate c).esp ++
      c.frame (UInt32.ofNat code.gate.selector))).length =
        9 + (c.frame (UInt32.ofNat code.gate.selector)).length := by
    simp [Cpu.saved]
    omega
  obtain ⟨held, ebp, esp, ⟨cs₁, ss₁⟩, out₁⟩ :=
    worked.frame trivial stacked_irqEntry (by omega) (by rw [length]; omega)
  rw [ebp₀] at held
  have place : (ended.esp - 4).toNat = ended.esp.toNat - 4 := toNat_sub_ofNat (k := 4) (by omega)
  have out₂ : Outside (KernelStacks fun _ => True) (ended.esp - 4).toNat
      ((ended.esp - 4).toNat + 4) ended.mem (ended.push code.afterTick).mem :=
    outside_store32 (by omega)
  have sum : (ended.regs.ebp + UInt32.ofNat 40).toNat = ended.regs.ebp.toNat + 40 := by
    rw [UInt32.toNat_add, toNat_ofNat_of_lt (by omega)]
    omega
  have esp₂ : (ended.push code.afterTick).esp.toNat = ended.esp.toNat - 4 := place
  have ebp₂ : (ended.push code.afterTick).regs.ebp = ended.regs.ebp := rfl
  have kept : Holds (ended.push code.afterTick).mem ended.regs.ebp ([c.regs.ebp] ++ ([code.popal] ++
      (Cpu.saved c.regs (enterGate (esp0 p) code.gate c).esp ++
        c.frame (UInt32.ofNat code.gate.selector)))) := by
    refine holds_keep p (Outside.own out₂ trivial) (by omega) ?_ (by omega) held
    rw [List.length_append, length, List.length_singleton]
    omega
  rw [ebp₂]
  refine ⟨kept, ⟨?_, ?_⟩, ⟨cs₁.trans cs₀, ss₁.trans ss₀⟩, by omega, ?_⟩
  · rw [← UInt32.toNat_inj, ← entry]
    exact sum.trans (by omega)
  · have top : (ended.push code.afterTick).Stacked [code.afterTick] := ⟨load32_store32, trivial⟩
    exact top.word rfl
  · exact (((out₀ _).mono (by omega) le_rfl).trans
      (out₁.mono (by omega) (by omega))).trans (out₂.mono (by omega) (by omega))

/-- Behind its call of `scheduler_tick` the interrupt of `c` goes back to `c`, whoever has run in
between. -/
theorem Interrupts.ends (fits : code.need + 24 ≤ 0x2000) (interrupts : code.Interrupts p c k)
    (resumed : Resumed p k r) : code.ends r = some { c with mem := r.mem } := by
  obtain ⟨held, ⟨entry, back⟩, ⟨cs, ss⟩, ⟨-, low, below, high⟩, -⟩ := interrupts.stacked fits
  have length : ([c.regs.ebp, code.popal] ++ (Cpu.saved c.regs (enterGate (esp0 p) code.gate c).esp ++
      c.frame (UInt32.ofNat code.gate.selector))).length =
        10 + (c.frame (UInt32.ofNat code.gate.selector)).length := by
    simp [Cpu.saved]
    omega
  have there : Holds r.mem r.regs.ebp ([c.regs.ebp, code.popal] ++
      (Cpu.saved c.regs (enterGate (esp0 p) code.gate c).esp ++
        c.frame (UInt32.ofNat code.gate.selector))) := by
    rw [resumed.ebp]
    exact holds_keep p resumed.stack (by omega) (by rw [length]; omega) below held
  -- the end of `pit_handler`
  obtain ⟨returned, saved⟩ := Cpu.leave_ret there
  obtain ⟨r', eq⟩ : ∃ r', r' = r.leave.ret := ⟨_, rfl⟩
  have onStack : r'.Stacked (Cpu.saved c.regs (enterGate (esp0 p) code.gate c).esp ++
      c.frame (UInt32.ofNat code.gate.selector)) := by
    rw [eq, returned]
    exact saved
  -- `popal` and `iret`
  obtain ⟨restored, frame⟩ := Cpu.popal_of_saved onStack
  have esp : r'.popal.esp = (enterGate (esp0 p) code.gate c).esp := by
    rw [← entry, restored, eq, returned, resumed.ebp]
    exact UInt32.add_assoc ..
  have cs' : r'.popal.cs = UInt32.ofNat code.gate.selector := by
    rw [restored, eq, returned]
    exact resumed.cs.trans cs
  have ss' : r'.popal.ss = (enterGate (esp0 p) code.gate c).ss := by
    rw [restored, eq, returned]
    exact resumed.ss.trans ss
  have same : r'.popal.regs = c.regs ∧ r'.popal.mem = r.mem := by
    rw [restored, eq, returned]
    exact ⟨rfl, rfl⟩
  have last : r'.popal.iret = { c with mem := r.mem } := by
    have back := Cpu.iret_of_frame cs' esp ss' frame
    rw [same.1, same.2] at back
    exact back
  have first : r.eip = code.afterTick := resumed.eip.trans back
  have second : r'.eip = code.popal := by rw [eq, returned]
  simp only [PitCode.ends, if_pos first, ← eq, if_pos second, last]

/-- If it was the kernel that was interrupted, its stack is as it was. -/
theorem Interrupts.kernel (fits : code.need + 24 ≤ 0x2000) (interrupts : code.Interrupts p c k)
    (resumed : Resumed p k r) (inKernel : UInt32.ofNat kernelCs &&& 3 = c.cs &&& 3) :
    Outside (Kept p) 0 c.esp.toNat c.mem r.mem := by
  obtain ⟨-, ⟨entry, -⟩, -, ⟨-, low, below, high⟩, out⟩ := interrupts.stacked fits
  obtain ⟨-, room, -⟩ := interrupts.1 inKernel
  have base := getPcb_eq p.isLt
  have top := entry_same code p inKernel (by omega)
  have sum : (k.regs.ebp + UInt32.ofNat 40).toNat = k.regs.ebp.toNat + 40 := by
    rw [UInt32.toNat_add, toNat_ofNat_of_lt (by omega)]
    omega
  have place : (enterGate (esp0 p) code.gate c).esp.toNat = k.regs.ebp.toNat + 40 :=
    entry ▸ sum
  rw [top] at out
  exact ((Outside.own out trivial).mono (Nat.zero_le _) le_rfl).trans
    (resumed.stack.mono le_rfl (by omega))

/-- The stacks of the other processes are not concerned. -/
theorem Interrupts.others (fits : code.need + 24 ≤ 0x2000) (interrupts : code.Interrupts p c k)
    {q : Fin 16} (other : q ≠ p) (x : UInt32) (inside : Kept q x) : k.mem x = c.mem x := by
  obtain ⟨-, -, -, -, out⟩ := interrupts.stacked fits
  obtain ⟨-, high⟩ := entry_bounds fits interrupts.1
  have base := getPcb_eq p.isLt
  have base' := getPcb_eq q.isLt
  have apart : q.val ≠ p.val := fun same => other (Fin.ext same)
  refine out x ⟨q, trivial, inside⟩ ?_
  unfold Kept at inside
  omega

end PitCode

/-! ### Two shells -/

theorem Works.refl (p : Fin 16) (c : Cpu) : Works who p c c := ⟨rfl, rfl, rfl, rfl, fun _ _ _ => rfl⟩

/-- `pit_linkage` at some address, with functions without local variables. -/
def samplePit : PitCode := ⟨0x400000, 0x400006, 0x401010, 0⟩

/-- Process 1 in the kernel, when it calls `syscall_init_shell`. -/
def sampleCall : Cpu :=
  { sampleCpu with esp := 0x7FDF00, cs := 0x10, ss := 0x18 }.push 0x402345

/-- A function without local variables saves the registers. -/
def sampleSave (c : Cpu) : Cpu := saveRegs (c.prologue 0)

theorem saves_sample (called : Called p 0 c) : Saves who p c (sampleSave c) :=
  ⟨0, c.prologue 0, called, .refl _ _, .refl _ _⟩

/-- The program of process `p` when the timer's interrupt has come to `scheduler_tick`. -/
def sampleTick (p : Fin 16) (mem : Space) : Cpu :=
  ((irqEntry (PitCode.esp0 p) samplePit.gate samplePit.popal { sampleCpu with mem := mem }).prologue
    0).push samplePit.afterTick

theorem samplePit_fits : samplePit.need + 24 ≤ 0x2000 := by decide

theorem sampleCpu_user : ¬ (UInt32.ofNat kernelCs &&& 3 = sampleCpu.cs &&& 3) := by decide

theorem sampleTick_interrupts (p : Fin 16) (mem : Space) :
    samplePit.Interrupts p { sampleCpu with mem := mem } (sampleTick p mem) :=
  ⟨fun same => absurd same sampleCpu_user, _, .refl _ _, rfl⟩

theorem called_sampleTick (p : Fin 16) (mem : Space) : Called p 0 (sampleTick p mem) := by
  obtain ⟨-, -, ⟨cs, ss⟩, ⟨place, -⟩, -⟩ := (sampleTick_interrupts p mem).stacked samplePit_fits
  have ready := (sampleTick_interrupts p mem).1
  have base := getPcb_eq p.isLt
  have top := getPcb_top p.isLt
  have start : (PitCode.esp0 p).toNat = kernelStack p := toNat_ofNat_of_lt (by omega)
  have entry : (enterGate (PitCode.esp0 p) samplePit.gate { sampleCpu with mem := mem }).esp =
      PitCode.esp0 p - UInt32.ofNat 20 := by
    have user : ¬ (UInt32.ofNat samplePit.gate.selector &&& 3 = sampleCpu.cs &&& 3) := sampleCpu_user
    rw [enterGate, Cpu.esp_enter, if_neg user, Cpu.frame, if_neg user]
    rfl
  rw [entry, toNat_sub_ofNat (by omega), start] at place
  have none : samplePit.handlerLocals = 0 := rfl
  exact ⟨cs, ss.trans (PitCode.ss_entry ready), by omega, by omega⟩

theorem called_sampleCall : Called 1 0 sampleCall := ⟨rfl, rfl, by decide, by decide⟩

/-- Process 1 has started the shell of process 2, and the timer interrupts it. -/
def sampleStarted : Machine where
  running := 2
  cpu := sampleTick 2 (sampleSave sampleCall).mem
  suspended := Function.update (fun _ => none) 1 (some sampleCall)

theorem reached_sampleStarted : Machine.Reached sampleStarted := by
  refine ⟨1, sampleCall, .single (.starts (saves_sample called_sampleCall) rfl ?_)⟩
  rintro q ⟨k, found⟩
  have one : q = 1 := by
    by_contra other
    cases (Function.update_of_ne other _ _).symm.trans found
  exact (sampleTick_interrupts 2 _).others samplePit_fits (one ▸ by decide)

/-- The tick changes to process 1, behind its call of `syscall_init_shell`. -/
def sampleBack : Cpu := (loadRegs 1 (sampleSave sampleStarted.cpu)).leave.ret

theorem switch_sampleBack : Machine.Switch sampleStarted sampleCall
    ⟨1, sampleBack, Function.update sampleStarted.suspend 1 none⟩ :=
  .tick (saves_sample (called_sampleTick 2 _)) rfl ⟨_, .refl _ _, rfl⟩

/-! ### What a process notices -/

namespace Machine

variable {code : PitCode} {m m' : Machine}

/-- However the processes have changed before, a process that gets the processor back finds itself
behind the call in which it gave it up: the return address, its frame pointer, its stack pointer
and all of its stack are as that call left them. -/
theorem switch_returns (reached : Reached m) (switch : Switch m k m') :
    m.suspend m'.running = some k ∧ Resumed m'.running k m'.cpu := by
  have sound := reached.sound
  refine ⟨?_, (sound.switch switch).1⟩
  cases switch with
  | tick _ found _ => exact found
  | @halt n _ _ _ found _ =>
    have other : n ≠ m.running := by
      rintro rfl
      cases sound.running.symm.trans found
    exact (Function.update_of_ne other ..).trans found

end Machine

theorem switch_returns_initShell :
    Resumed 1 sampleCall sampleBack ∧ sampleBack.eip = 0x402345 := by
  obtain ⟨-, resumed⟩ := Machine.switch_returns reached_sampleStarted switch_sampleBack
  have top : sampleCall.Stacked [0x402345] := ⟨load32_store32, trivial⟩
  exact ⟨resumed, resumed.eip.trans (top.word rfl)⟩

namespace Machine

variable {code : PitCode} {m m' : Machine}

/-- In every run, a process that the timer has interrupted goes on as it was, in a program or in
the kernel: with its registers and flags, and in the kernel with its stack. -/
theorem preemption_transparent (fits : code.need + 24 ≤ 0x2000) (reached : Reached m)
    (switch : Switch m k m') (interrupts : code.Interrupts m'.running c k) :
    code.ends m'.cpu = some { c with mem := m'.cpu.mem } ∧
      (UInt32.ofNat kernelCs &&& 3 = c.cs &&& 3 →
        Outside (Kept m'.running) 0 c.esp.toNat c.mem m'.cpu.mem) := by
  obtain ⟨resumed, -⟩ := reached.sound.switch switch
  exact ⟨interrupts.ends fits resumed, interrupts.kernel fits resumed⟩

end Machine

/-- Process 1 goes on in its program, where the timer interrupts it. -/
def sampleAgain : Machine where
  running := 1
  cpu := sampleTick 1 sampleBack.mem
  suspended := Function.update sampleStarted.suspend 1 none

theorem reached_sampleAgain : Machine.Reached sampleAgain := by
  obtain ⟨p, c, steps⟩ := reached_sampleStarted
  refine ⟨p, c, (steps.tail (.switch switch_sampleBack)).tail (.runs fun q waiting => ?_)⟩
  obtain ⟨k, found⟩ := waiting
  have other : q ≠ 1 := by
    rintro rfl
    have resumed : Function.update sampleStarted.suspend 1 none 1 = none := Function.update_self ..
    cases resumed.symm.trans found
  exact (sampleTick_interrupts 1 _).others samplePit_fits other

/-- The tick changes to process 2, which goes on with the registers it had. -/
theorem preemption_transparent_shell : ∃ r,
    Machine.Switch sampleAgain (sampleTick 2 (sampleSave sampleCall).mem)
      ⟨2, r, Function.update sampleAgain.suspend 2 none⟩ ∧
    samplePit.ends r = some { sampleCpu with mem := r.mem } := by
  have switch : Machine.Switch sampleAgain (sampleTick 2 (sampleSave sampleCall).mem)
      ⟨2, (loadRegs 2 (sampleSave sampleAgain.cpu)).leave.ret,
        Function.update sampleAgain.suspend 2 none⟩ :=
    .tick (saves_sample (called_sampleTick 1 _)) rfl ⟨_, .refl _ _, rfl⟩
  exact ⟨_, switch, (Machine.preemption_transparent samplePit_fits reached_sampleAgain switch
    (sampleTick_interrupts 2 _)).1⟩

end Linux391.Preemption
