import Linux391.Library.FlatMemory

/-!
The stack of a 32-bit x86 processor, and how control enters and leaves through it.

`Holds m a ws` says that the words `ws` lie in memory from address `a` on, which is what a stack
is once its pointer is `a`. A sequence of pushes puts the words there in reverse order and
changes nothing else (`holds_pushed`, `pushed_outside`).
-/

namespace Linux391.X86

open FlatMemory

/-! ### Words in memory -/

section Words

variable {m m' : Space} {a x v : UInt32} {k : Nat} {ws vs : List UInt32}

theorem load32_congr (same : ∀ i < 4, m (a + UInt32.ofNat i) = m' (a + UInt32.ofNat i)) :
    load32 m a = load32 m' a := by
  have zero : m (a + 0) = m' (a + 0) := same 0 (by decide)
  have one : m (a + 1) = m' (a + 1) := same 1 (by decide)
  have two : m (a + 2) = m' (a + 2) := same 2 (by decide)
  have three : m (a + 3) = m' (a + 3) := same 3 (by decide)
  rw [UInt32.add_zero] at zero
  rw [load32, load32, zero, one, two, three]

theorem toNat_byteOf (v : UInt32) (i : Nat) : (byteOf v i).toNat = v.toNat / 256 ^ i % 256 := by
  rw [byteOf, UInt8.toNat_ofNat']

theorem store32_apply {i : Nat} (inside : i < 4) :
    store32 m a v (a + UInt32.ofNat i) = byteOf v i := by
  have offset : (a + UInt32.ofNat i - a).toNat = i := by
    rw [UInt32.add_comm, UInt32.add_sub_cancel, toNat_ofNat_of_lt (by omega)]
  rw [store32, offset, if_pos inside]

theorem store32_of_far (far : 4 ≤ (x - a).toNat) : store32 m a v x = m x :=
  if_neg (Nat.not_lt.mpr far)

theorem load32_store32 : load32 (store32 m a v) a = v := by
  have zero : store32 m a v (a + 0) = byteOf v 0 := store32_apply (i := 0) (by decide)
  have one : store32 m a v (a + 1) = byteOf v 1 := store32_apply (i := 1) (by decide)
  have two : store32 m a v (a + 2) = byteOf v 2 := store32_apply (i := 2) (by decide)
  have three : store32 m a v (a + 3) = byteOf v 3 := store32_apply (i := 3) (by decide)
  rw [UInt32.add_zero] at zero
  rw [← UInt32.toNat_inj, toNat_load32, zero, one, two, three]
  simp only [toNat_byteOf]
  have lt := v.toNat_lt
  omega

/-- The words lie in memory from `a` on. -/
def Holds (m : Space) (a : UInt32) : List UInt32 → Prop
  | [] => True
  | w :: ws => load32 m a = w ∧ Holds m (a + 4) ws

theorem Holds.congr (same : ∀ i < 4 * ws.length, m' (a + UInt32.ofNat i) = m (a + UInt32.ofNat i))
    (holds : Holds m a ws) : Holds m' a ws := by
  induction ws generalizing a with
  | nil => trivial
  | cons w ws ih =>
    obtain ⟨first, rest⟩ := holds
    have length : 4 * (w :: ws).length = 4 * ws.length + 4 := by rw [List.length_cons]; omega
    refine ⟨(load32_congr fun i inside => same i (by omega)).trans first, ih (fun i inside => ?_) rest⟩
    have moved := same (4 + i) (by omega)
    rw [← add_ofNat_add] at moved
    exact moved

theorem Holds.append (holds : Holds m a (vs ++ ws)) :
    Holds m (a + UInt32.ofNat (4 * vs.length)) ws := by
  induction vs generalizing a with
  | nil =>
    have here : a + UInt32.ofNat 0 = a := UInt32.add_zero a
    simpa [here] using holds
  | cons v vs ih =>
    have rest := ih holds.2
    have moved : a + 4 + UInt32.ofNat (4 * vs.length) = a + UInt32.ofNat (4 * (v :: vs).length) := by
      have sum := add_ofNat_add a 4 (4 * vs.length)
      rw [List.length_cons, Nat.mul_succ, Nat.add_comm]
      exact sum
    rwa [moved] at rest

theorem Holds.load {w : UInt32} (holds : Holds m a ws) (found : ws[k]? = some w) :
    load32 m (a + UInt32.ofNat (4 * k)) = w := by
  induction ws generalizing a k with
  | nil => cases found
  | cons v ws ih =>
    cases k with
    | zero =>
      have here : a + UInt32.ofNat 0 = a := UInt32.add_zero a
      rw [Nat.mul_zero, here]
      exact holds.1.trans (Option.some.inj found)
    | succ k =>
      rw [Nat.mul_succ, Nat.add_comm, ← add_ofNat_add]
      exact ih holds.2 found

/-! ### Pushes -/

/-- Memory after pushes below `a`, the last one lowest. -/
def pushed (m : Space) (a : UInt32) : List UInt32 → Space
  | [] => m
  | v :: vs => pushed (store32 m (a - 4) v) (a - 4) vs

theorem sub_four_sub (a : UInt32) (k : Nat) :
    a - 4 - UInt32.ofNat k = a - UInt32.ofNat (k + 4) := by
  rw [UInt32.ofNat_add]
  grind

/-- Pushes change nothing outside the words they write. -/
theorem pushed_outside (far : 4 * vs.length ≤ (x - (a - UInt32.ofNat (4 * vs.length))).toNat) :
    pushed m a vs x = m x := by
  induction vs generalizing m a with
  | nil => rfl
  | cons v vs ih =>
    rw [List.length_cons, Nat.mul_succ, ← sub_four_sub] at far
    have bound := (x - (a - 4 - UInt32.ofNat (4 * vs.length))).toNat_lt
    have apart : (x - (a - 4)).toNat =
        (x - (a - 4 - UInt32.ofNat (4 * vs.length))).toNat - 4 * vs.length := by
      have split : x - (a - 4) =
          x - (a - 4 - UInt32.ofNat (4 * vs.length)) - UInt32.ofNat (4 * vs.length) := by grind
      have less : UInt32.ofNat (4 * vs.length) ≤ x - (a - 4 - UInt32.ofNat (4 * vs.length)) := by
        rw [UInt32.le_iff_toNat_le, toNat_ofNat_of_lt (by omega)]
        omega
      rw [split, UInt32.toNat_sub_of_le _ _ less, toNat_ofNat_of_lt (by omega)]
    rw [pushed, ih (by omega), store32_of_far (by omega)]

theorem pushed_append (vs us : List UInt32) :
    pushed m a (vs ++ us) = pushed (pushed m a vs) (a - UInt32.ofNat (4 * vs.length)) us := by
  induction vs generalizing m a with
  | nil =>
    have here : a - UInt32.ofNat 0 = a := UInt32.sub_zero a
    rw [List.nil_append, List.length_nil, Nat.mul_zero, here]
    rfl
  | cons v vs ih =>
    rw [List.cons_append, pushed, ih, List.length_cons, Nat.mul_succ, ← sub_four_sub]
    rfl

theorem holds_pushed (fits : 4 * (vs.length + ws.length) ≤ 2 ^ 32) (holds : Holds m a ws) :
    Holds (pushed m a vs) (a - UInt32.ofNat (4 * vs.length)) (vs.reverse ++ ws) := by
  induction vs generalizing m a ws with
  | nil =>
    have here : a - UInt32.ofNat 0 = a := UInt32.sub_zero a
    simpa [pushed, here] using holds
  | cons v vs ih =>
    rw [List.length_cons] at fits
    have above : Holds (store32 m (a - 4) v) a ws := by
      refine holds.congr fun i inside => store32_of_far ?_
      have distance : a + UInt32.ofNat i - (a - 4) = UInt32.ofNat (i + 4) := by
        rw [UInt32.ofNat_add]
        grind
      rw [distance, toNat_ofNat_of_lt (by omega)]
      omega
    have top : Holds (store32 m (a - 4) v) (a - 4) (v :: ws) := by
      refine ⟨load32_store32, ?_⟩
      rwa [UInt32.sub_add_cancel]
    have rest := ih (by rw [List.length_cons]; omega) top
    rw [sub_four_sub] at rest
    rw [List.length_cons, Nat.mul_succ, List.reverse_cons, List.append_assoc]
    exact rest

/-- In a zone of memory only the bytes from `lo` up to `hi` may differ. -/
def Outside (zone : UInt32 → Prop) (lo hi : Nat) (m m' : Space) : Prop :=
  ∀ x, zone x → x.toNat < lo ∨ hi ≤ x.toNat → m' x = m x

section Outside

variable {zone : UInt32 → Prop} {lo hi lo' hi' : Nat} {m'' : Space}

theorem Outside.trans (one : Outside zone lo hi m m') (two : Outside zone lo hi m' m'') :
    Outside zone lo hi m m'' :=
  fun x inside apart => (two x inside apart).trans (one x inside apart)

theorem Outside.mono (out : Outside zone lo hi m m') (le : lo' ≤ lo) (ge : hi ≤ hi') :
    Outside zone lo' hi' m m' :=
  fun x inside apart => out x inside (by omega)

theorem Outside.within {zone' : UInt32 → Prop} (out : Outside zone lo hi m m')
    (sub : ∀ x, zone' x → zone x) : Outside zone' lo hi m m' :=
  fun x inside => out x (sub x inside)

theorem toNat_sub_ofNat (le : k ≤ a.toNat) : (a - UInt32.ofNat k).toNat = a.toNat - k := by
  have := a.toNat_lt
  have value : (UInt32.ofNat k).toNat = k := toNat_ofNat_of_lt (by omega)
  rw [UInt32.toNat_sub_of_le _ _ (by rw [UInt32.le_iff_toNat_le]; omega), value]

/-- An address that the bytes from `a` on do not reach. -/
theorem far_of_apart {n : Nat} (fits : a.toNat + n ≤ 2 ^ 32)
    (apart : x.toNat < a.toNat ∨ a.toNat + n ≤ x.toNat) : n ≤ (x - a).toNat := by
  have := x.toNat_lt
  rw [UInt32.toNat_sub]
  omega

theorem outside_store32 (fits : a.toNat + 4 ≤ 2 ^ 32) :
    Outside zone a.toNat (a.toNat + 4) m (store32 m a v) :=
  fun _ _ apart => store32_of_far (far_of_apart fits apart)

theorem Outside.holds (out : Outside zone lo hi m m') (fits : a.toNat + 4 * ws.length ≤ 2 ^ 32)
    (within : ∀ x : UInt32, a.toNat ≤ x.toNat → x.toNat < a.toNat + 4 * ws.length → zone x)
    (apart : a.toNat + 4 * ws.length ≤ lo ∨ hi ≤ a.toNat) (holds : Holds m a ws) :
    Holds m' a ws := by
  refine holds.congr fun i inside => ?_
  have place : (a + UInt32.ofNat i).toNat = a.toNat + i := by
    rw [UInt32.toNat_add, toNat_ofNat_of_lt (by omega)]
    omega
  exact out _ (within _ (by omega) (by omega)) (by omega)

end Outside

end Words

/-! ### The processor -/

structure Regs where
  eax : UInt32
  ebx : UInt32
  ecx : UInt32
  edx : UInt32
  esi : UInt32
  edi : UInt32
  ebp : UInt32

structure Cpu where
  regs : Regs
  esp : UInt32
  eip : UInt32
  eflags : UInt32
  cs : UInt32
  ss : UInt32
  mem : Space

namespace Cpu

variable (c : Cpu)

def push (v : UInt32) : Cpu :=
  { c with esp := c.esp - 4, mem := store32 c.mem (c.esp - 4) v }

def pushAll (vs : List UInt32) : Cpu := vs.foldl push c

/-- The word `k` places above the top of the stack. -/
def word (k : Nat) : UInt32 := load32 c.mem (c.esp + UInt32.ofNat (4 * k))

/-- Words are taken off the stack. -/
def drop (k : Nat) : Cpu := { c with esp := c.esp + UInt32.ofNat (4 * k) }

def pushal : Cpu :=
  c.pushAll [c.regs.eax, c.regs.ecx, c.regs.edx, c.regs.ebx, c.esp, c.regs.ebp, c.regs.esi,
    c.regs.edi]

/-- The word of the stack pointer is skipped. -/
def popal : Cpu :=
  { c.drop 8 with
    regs := { edi := c.word 0, esi := c.word 1, ebp := c.word 2, ebx := c.word 4, edx := c.word 5,
              ecx := c.word 6, eax := c.word 7 } }

/-- The beginning of a compiled function: the caller's frame pointer is saved, and room is made
for the local variables. -/
def prologue (locals : Nat) : Cpu :=
  let c' := c.push c.regs.ebp
  { c' with
    esp := c'.esp - UInt32.ofNat (4 * locals)
    regs := { c'.regs with ebp := c'.esp } }

/-- The frame of a function is given up. -/
def leave : Cpu :=
  { c with esp := c.regs.ebp + 4, regs := { c.regs with ebp := load32 c.mem c.regs.ebp } }

/-- A near return. -/
def ret : Cpu := { c.drop 1 with eip := c.word 0 }

/-- Entry through a gate: to another privilege it goes with a change of stack. -/
def enter (esp0 ss0 selector offset : UInt32) (flags : UInt32 → UInt32) : Cpu :=
  let c' := if selector &&& 3 = c.cs &&& 3 then c.pushAll [c.eflags, c.cs, c.eip]
    else { c with esp := esp0, ss := ss0 }.pushAll [c.ss, c.esp, c.eflags, c.cs, c.eip]
  { c' with cs := selector, eip := offset, eflags := flags c.eflags }

def iret : Cpu :=
  let r := { c with eip := c.word 0, cs := c.word 1, eflags := c.word 2 }
  if c.word 1 &&& 3 = c.cs &&& 3 then r.drop 3 else { r with esp := c.word 3, ss := c.word 4 }

/-- What lies on the stack for `iret` to find. -/
def frame (selector : UInt32) : List UInt32 :=
  [c.eip, c.cs, c.eflags] ++ if selector &&& 3 = c.cs &&& 3 then [] else [c.esp, c.ss]

variable {c} {r : Cpu} {ws vs : List UInt32} {esp0 ss0 selector offset : UInt32}
  {flags : UInt32 → UInt32}

theorem pushAll_eq (vs : List UInt32) :
    c.pushAll vs = { c with esp := c.esp - UInt32.ofNat (4 * vs.length),
                            mem := pushed c.mem c.esp vs } := by
  induction vs generalizing c with
  | nil =>
    simp [pushAll, pushed]
  | cons v vs ih =>
    have first : c.pushAll (v :: vs) = (c.push v).pushAll vs := rfl
    rw [first, ih, List.length_cons, Nat.mul_succ, ← sub_four_sub]
    rfl

/-- The words are on the stack, the top one first. -/
def Stacked (c : Cpu) (ws : List UInt32) : Prop := Holds c.mem c.esp ws

theorem Stacked.pushAll (stacked : c.Stacked ws) (fits : 4 * (vs.length + ws.length) ≤ 2 ^ 32) :
    (c.pushAll vs).Stacked (vs.reverse ++ ws) := by
  rw [pushAll_eq]
  exact holds_pushed fits stacked

/-- The prologue puts the caller's frame pointer below what is on the stack. -/
theorem Stacked.prologue (stacked : c.Stacked ws) (fits : 4 * (1 + ws.length) ≤ 2 ^ 32)
    (locals : Nat) :
    Holds (c.prologue locals).mem (c.prologue locals).regs.ebp ([c.regs.ebp] ++ ws) := by
  have top : Holds (pushed c.mem c.esp [c.regs.ebp]) (c.esp - UInt32.ofNat (4 * 1))
      ([c.regs.ebp].reverse ++ ws) := holds_pushed fits stacked
  exact top

theorem Stacked.word {k : Nat} {w : UInt32} (stacked : c.Stacked ws) (found : ws[k]? = some w) :
    c.word k = w := Holds.load stacked found

theorem drop_zero : c.drop 0 = c := by
  have here : c.esp + UInt32.ofNat 0 = c.esp := UInt32.add_zero c.esp
  rw [drop, Nat.mul_zero, here]

theorem Stacked.drop (stacked : c.Stacked (vs ++ ws)) : (c.drop vs.length).Stacked ws :=
  Holds.append stacked

/-- The words of `pushal`, the last one first. -/
def saved (r : Regs) (esp : UInt32) : List UInt32 :=
  [r.edi, r.esi, r.ebp, esp, r.ebx, r.edx, r.ecx, r.eax]

theorem popal_of_saved {regs : Regs} {esp : UInt32} (stacked : c.Stacked (saved regs esp ++ ws)) :
    c.popal = { c.drop 8 with regs := regs } ∧ c.popal.Stacked ws := by
  have restored : c.popal = { c.drop 8 with regs := regs } := by
    rw [popal, stacked.word (k := 0) rfl, stacked.word (k := 1) rfl, stacked.word (k := 2) rfl,
      stacked.word (k := 4) rfl, stacked.word (k := 5) rfl, stacked.word (k := 6) rfl,
      stacked.word (k := 7) rfl]
  refine ⟨restored, ?_⟩
  rw [restored]
  exact stacked.drop

/-- A function returns: the caller's frame pointer and the return address are taken from where the
prologue and the call have put them. -/
theorem leave_ret {ebp ra : UInt32} (holds : Holds c.mem c.regs.ebp ([ebp, ra] ++ ws)) :
    c.leave.ret = { c with
        esp := c.regs.ebp + 8, eip := ra, regs := { c.regs with ebp := ebp } } ∧
      Holds c.mem (c.regs.ebp + 8) ws := by
  obtain ⟨saved, back, rest⟩ := holds
  have up : c.regs.ebp + 4 + 4 = c.regs.ebp + 8 := UInt32.add_assoc ..
  have here : c.regs.ebp + 4 + UInt32.ofNat (4 * 0) = c.regs.ebp + 4 := UInt32.add_zero _
  have next : c.regs.ebp + 4 + UInt32.ofNat (4 * 1) = c.regs.ebp + 8 := up
  refine ⟨?_, up ▸ rest⟩
  simp only [leave, ret, drop, word, here, next, saved, back]

theorem regs_enter : (c.enter esp0 ss0 selector offset flags).regs = c.regs := by
  by_cases same : selector &&& 3 = c.cs &&& 3
  · simp only [enter, if_pos same, pushAll_eq]
  · simp only [enter, if_neg same, pushAll_eq]

theorem ss_enter : (c.enter esp0 ss0 selector offset flags).ss =
    if selector &&& 3 = c.cs &&& 3 then c.ss else ss0 := by
  by_cases same : selector &&& 3 = c.cs &&& 3
  · simp only [enter, if_pos same, pushAll_eq]
  · simp only [enter, if_neg same, pushAll_eq]

theorem esp_enter : (c.enter esp0 ss0 selector offset flags).esp =
    (if selector &&& 3 = c.cs &&& 3 then c.esp else esp0) -
      UInt32.ofNat (4 * (c.frame selector).length) := by
  by_cases same : selector &&& 3 = c.cs &&& 3
  · simp only [enter, frame, if_pos same, pushAll_eq]
    rfl
  · simp only [enter, frame, if_neg same, pushAll_eq]
    rfl

/-- What is changed by an entry and by what is pushed after it lies on the stack. -/
theorem mem_enter_pushAll {x : UInt32}
    (far : 4 * ((c.frame selector).length + vs.length) ≤
      (x - ((c.enter esp0 ss0 selector offset flags).pushAll vs).esp).toNat) :
    ((c.enter esp0 ss0 selector offset flags).pushAll vs).mem x = c.mem x := by
  have outside : ∀ (b : Cpu) (us : List UInt32),
      4 * (us.length + vs.length) ≤
          (x - (b.esp - UInt32.ofNat (4 * us.length) - UInt32.ofNat (4 * vs.length))).toNat →
      pushed (pushed b.mem b.esp us) (b.esp - UInt32.ofNat (4 * us.length)) vs x = b.mem x := by
    intro b us far
    rw [← pushed_append]
    refine pushed_outside ?_
    have joined : b.esp - UInt32.ofNat (4 * (us ++ vs).length) =
        b.esp - UInt32.ofNat (4 * us.length) - UInt32.ofNat (4 * vs.length) := by
      rw [List.length_append, Nat.mul_add, UInt32.ofNat_add]
      grind
    rw [joined, List.length_append]
    exact far
  by_cases same : selector &&& 3 = c.cs &&& 3
  · simp only [enter, frame, if_pos same, pushAll_eq] at far ⊢
    exact outside c [c.eflags, c.cs, c.eip] far
  · simp only [enter, frame, if_neg same, pushAll_eq] at far ⊢
    exact outside { c with esp := esp0, ss := ss0 } [c.ss, c.esp, c.eflags, c.cs, c.eip] far

theorem length_frame_le (c : Cpu) (selector : UInt32) : (c.frame selector).length ≤ 5 := by
  by_cases same : selector &&& 3 = c.cs &&& 3
  · simp [frame, same]
  · simp [frame, same]

theorem stacked_enter : (c.enter esp0 ss0 selector offset flags).Stacked (c.frame selector) := by
  have empty : ∀ c : Cpu, c.Stacked [] := fun _ => trivial
  by_cases same : selector &&& 3 = c.cs &&& 3
  · simp only [enter, frame, if_pos same]
    exact (empty c).pushAll (by simp)
  · simp only [enter, frame, if_neg same]
    exact (empty { c with esp := esp0, ss := ss0 }).pushAll (by simp)

/-- `iret` on the frame of an entry goes back to where it was, with the registers and memory
of now. -/
theorem iret_of_frame (cs : r.cs = selector)
    (esp : r.esp = (c.enter esp0 ss0 selector offset flags).esp)
    (ss : r.ss = (c.enter esp0 ss0 selector offset flags).ss)
    (stacked : r.Stacked (c.frame selector)) : r.iret = { c with regs := r.regs, mem := r.mem } := by
  have eip : r.word 0 = c.eip := stacked.word rfl
  have code : r.word 1 = c.cs := stacked.word rfl
  have eflags : r.word 2 = c.eflags := stacked.word rfl
  rw [iret, eip, code, eflags, cs]
  by_cases same : selector &&& 3 = c.cs &&& 3
  · rw [if_pos same.symm]
    simp only [enter, if_pos same, pushAll_eq] at esp ss
    have back : r.esp + UInt32.ofNat (4 * 3) = c.esp := by
      rw [esp]
      exact UInt32.sub_add_cancel ..
    simp only [Cpu.drop, back, ss]
  · have outer : c.frame selector = [c.eip, c.cs, c.eflags, c.esp, c.ss] := by
      rw [frame, if_neg same]
      rfl
    rw [outer] at stacked
    rw [if_neg (Ne.symm same), stacked.word (k := 3) rfl, stacked.word (k := 4) rfl]

end Cpu

end Linux391.X86
