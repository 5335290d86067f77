import Linux391.Drivers.RtcPorts
import Linux391.Kernel.DescriptorEffects

/-!
The rate a process has recorded for the clock.

`syscall_write` copies the word it is given to `rtc_rate` before the driver has looked at
it, whenever the descriptor is the one in `rtc_fd`. That field is set by `syscall_open` for
almost every name and is never cleared. Apart from that only the stray pointers of
`file_close` and `terminal_close` can reach the field. `rtc_rate_recorded` says for which
calls the field ends up as it should, in every sequence of calls.
-/

namespace Linux391

open Memory

namespace Platform

variable {P : Platform} {k k' : Kernel} {p : Nat}

/-- The word that a call programs into the clock: that of an accepted write to a descriptor
open on the clock, when `rtc_write` returns 0. -/
def programmed (P : Platform) (k : Kernel) : FdCall → Option Nat
  | .write fd (some buf) nbytes =>
      match descriptor fd with
      | some i =>
          if nbytes ≠ 0 ∧ i.val ≠ 0 ∧ k.field (.flags i) ≠ 0 ∧ P.driver k i = some .rtc ∧
              (rtcWrite k.rtcRegA (int32 (load buf 0 4))).1 = 0 then
            some (load buf 0 4)
          else none
      | none => none
  | _ => none

/-- After the call the recorded rate is the one just programmed, or else the old one. -/
def RecordsRate (P : Platform) (k : Kernel) (c : FdCall) (k' : Kernel) : Prop :=
  k'.field .rtcRate = (P.programmed k c).getD (k.field .rtcRate)

/-- The bytes of the running process's `rtc_rate`. -/
def InRate (k : Kernel) (x : Nat) : Prop := k.curr + 253 ≤ x ∧ x < k.curr + 257

/-- What the stray pointer of a close must not do: zero a byte of the rate that is not zero,
or count down a byte of it. -/
def StrayCloseSafe (P : Platform) (k : Kernel) (i : Fin 8) (u : Unspecified) : Prop :=
  match P.driver k i with
  | some .file =>
      ∀ x, InRate k x → u.closePcb + (16 * i.val + 12) ≤ x →
        x < u.closePcb + (16 * i.val + 12) + 4 → k.mem x = 0
  | some .terminal =>
      ¬ InRate k (u.termData + 153) ∧
        (InRate k (u.termData + 152) → k.mem (u.termData + 153) = 1 → k.mem (u.termData + 152) = 0)
  | _ => True

/-- The calls that treat the recorded rate as they should: a write goes to the recorded
descriptor exactly if that is open on the clock and the rate can be programmed, or it
carries the rate already recorded. -/
def RateSafe (P : Platform) (k : Kernel) : FdCall → Prop
  | .write fd (some buf) nbytes =>
      ∀ i, descriptor fd = some i → nbytes ≠ 0 → i.val ≠ 0 → k.field (.flags i) ≠ 0 →
        k.field .rtcRate = load buf 0 4 ∨
          (i.val = k.field .rtcFd ↔
            P.driver k i = some .rtc ∧ Cmos.Programmable (int32 (load buf 0 4)))
  | .close fd u =>
      ∀ i, descriptor fd = some i → 2 ≤ i.val → k.field (.flags i) ≠ 0 → StrayCloseSafe P k i u
  | _ => True

/-- The steps of a sequence of calls, each as the state before it, the call and the state
after it, up to the first call that does not return. -/
def fdSteps (P : Platform) (k : Kernel) : List FdCall → List (Kernel × FdCall × Kernel)
  | [] => []
  | c :: rest =>
      match P.fdCall k c with
      | none => []
      | some (_, k') => (k, c, k') :: fdSteps P k' rest

/-! ### Calls that leave the field alone -/

/-- The same process runs, with the same recorded rate. -/
structure SameRate (k k' : Kernel) : Prop where
  curr : k'.curr = k.curr
  rate : k'.field .rtcRate = k.field .rtcRate

namespace SameRate

theorem refl (k : Kernel) : SameRate k k := ⟨rfl, rfl⟩

theorem trans {k₁ k₂ k₃ : Kernel} (first : SameRate k₁ k₂) (second : SameRate k₂ k₃) :
    SameRate k₁ k₃ :=
  ⟨second.curr.trans first.curr, second.rate.trans first.rate⟩

/-- Terminals and the clock's register are not in memory. -/
theorem terms (s : Terms) : SameRate k { k with terms := s } := ⟨rfl, rfl⟩

theorem rtcRegA (a : UInt8) : SameRate k { k with rtcRegA := a } := ⟨rfl, rfl⟩

theorem setField (here : k.curr = getPcb p) (lt : p < 16) {g : PcbField} (other : g ≠ .rtcRate)
    (v : Nat) : SameRate k (k.setField g v) := by
  refine ⟨rfl, ?_⟩
  rw [Kernel.field_setField here lt, if_neg other]

theorem setAll (here : k.curr = getPcb p) (lt : p < 16) {assignments : List (PcbField × Nat)}
    (others : ∀ a ∈ assignments, a.1 ≠ .rtcRate) :
    SameRate k (k.withMem (Linux391.setAll k.mem k.curr assignments)) := by
  refine ⟨rfl, ?_⟩
  rw [Kernel.field_setAll here lt, assigned_of_ne others]

theorem ne_rtcRate {g : PcbField} (files : g.OfFiles) : g ≠ .rtcRate := by
  rintro rfl
  exact files

/-- Changes that neither assign the field nor use a stray pointer. -/
theorem of_steps {may : PcbField → Prop} (here : k.curr = getPcb p) (lt : p < 16)
    (others : ∀ g, may g → g ≠ .rtcRate) (steps : FileSteps may (fun _ => False) k k') :
    SameRate k k' := by
  induction steps with
  | refl => exact .refl k
  | tail _ step ih =>
      refine ih.trans ?_
      cases step with
      | rtcRegA a => exact rtcRegA a
      | terms s => exact terms s
      | assign assignments allowed =>
          exact setAll (ih.curr.trans here) lt fun a mem => others _ (allowed a mem)
      | fileClose fd used => exact used.elim
      | terminalClose used => exact used.elim

end SameRate

/-! ### Closing -/

/-- The field keeps its value exactly if its bytes do. -/
theorem rate_eq_iff (curr : k'.curr = k.curr) :
    k'.field .rtcRate = k.field .rtcRate ↔ ∀ x, InRate k x → k'.mem x = k.mem x := by
  unfold Kernel.field get
  rw [curr]
  constructor
  · intro same x inside
    obtain ⟨i, rfl⟩ := Nat.exists_eq_add_of_le inside.1
    exact load_inj same i (by have := inside.2; simp only [PcbField.size]; omega)
  · intro same
    apply load_congr
    intro i small
    simp only [PcbField.size, PcbField.offset] at small ⊢
    exact same _ ⟨by omega, by omega⟩

/-- The process's own entry is no part of the field. -/
theorem close_mem_inRate {i : Fin 8} {x : Nat} (inside : InRate k x) :
    (k.close k.curr i).mem x = k.mem x := by
  rw [close_mem, if_neg]
  have := inside.1
  omega

theorem close_rate_iff (i : Fin 8) (pointer : Nat) :
    ((k.close k.curr i).close pointer i).field .rtcRate = k.field .rtcRate ↔
      ∀ x, InRate k x → pointer + (16 * i.val + 12) ≤ x →
        x < pointer + (16 * i.val + 12) + 4 → k.mem x = 0 := by
  refine (rate_eq_iff (k := k) (by rfl)).trans ?_
  refine forall₂_congr fun x inside => ?_
  rw [close_mem, close_mem_inRate inside]
  constructor
  · intro same low high
    rw [if_pos ⟨low, high⟩] at same
    exact same.symm
  · intro zero
    split_ifs with hit
    · exact (zero hit.1 hit.2).symm
    · rfl

theorem terminalClose_rate_iff (i : Fin 8) (termData : Nat) :
    (terminalClose (k.close k.curr i) termData).field .rtcRate = k.field .rtcRate ↔
      ¬ InRate k (termData + 153) ∧
        (InRate k (termData + 152) → k.mem (termData + 153) = 1 → k.mem (termData + 152) = 0) := by
  have changes : ∀ v : UInt8, v - 1 ≠ v := by grind
  -- above the field no byte is in an entry of the array
  have counter : InRate k (termData + 152) →
      (k.close k.curr i).mem (termData + 153) = k.mem (termData + 153) := by
    intro inside
    have := inside.1
    rw [close_mem, if_neg (by omega)]
  refine (rate_eq_iff (k := k) (by rfl)).trans ?_
  constructor
  · intro same
    have uncounted : ¬ InRate k (termData + 153) := by
      intro inside
      have kept := same _ inside
      rw [terminalClose_mem, if_neg (by omega), if_pos rfl, close_mem_inRate inside] at kept
      exact changes _ kept
    refine ⟨uncounted, fun inside one => ?_⟩
    have kept := same _ inside
    rw [terminalClose_mem, counter inside, if_pos ⟨rfl, one⟩] at kept
    exact kept.symm
  · rintro ⟨uncounted, zeroed⟩ x inside
    rw [terminalClose_mem]
    split_ifs with hit counted
    · obtain ⟨rfl, one⟩ := hit
      rw [counter inside] at one
      exact (zeroed inside one).symm
    · subst counted
      exact absurd inside uncounted
    · exact close_mem_inRate inside

/-- The driver's close keeps the rate exactly if its stray pointer does. -/
theorem driverClose_rate_iff (here : k.curr = getPcb p) (lt : p < 16) {i : Fin 8} {value : Int}
    {u : Unspecified} (call : P.driverClose (k.close k.curr i) i u = some (value, k')) :
    k'.curr = k.curr ∧ (k'.field .rtcRate = k.field .rtcRate ↔ StrayCloseSafe P k i u) := by
  have own : SameRate k (k.close k.curr i) := .setField here lt (by simp) 0
  unfold driverClose at call
  rw [driver_close here lt] at call
  unfold StrayCloseSafe
  cases driver : P.driver k i with
  | none =>
      rw [driver] at call
      cases call
  | some d =>
      rw [driver] at call
      cases d with
      | rtc =>
          cases call
          exact ⟨rfl, iff_of_true own.rate trivial⟩
      | file =>
          cases call
          exact ⟨rfl, close_rate_iff i u.closePcb⟩
      | dir =>
          cases call
          exact ⟨rfl, iff_of_true own.rate trivial⟩
      | terminal =>
          cases call
          exact ⟨rfl, terminalClose_rate_iff i u.termData⟩

theorem rateSafe_close_iff {fd : Int} {u : Unspecified} {i : Fin 8} (named : descriptor fd = some i) :
    P.RateSafe k (.close fd u) ↔ (2 ≤ i.val → k.field (.flags i) ≠ 0 → StrayCloseSafe P k i u) := by
  simp only [RateSafe, named, Option.some.injEq]
  constructor
  · intro safe
    exact safe i rfl
  · rintro safe j rfl
    exact safe

theorem syscallClose_rate_iff (here : k.curr = getPcb p) (lt : p < 16) {fd value : Int}
    {u : Unspecified} (call : P.syscallClose k fd u = some (value, k')) :
    k'.curr = k.curr ∧ (k'.field .rtcRate = k.field .rtcRate ↔ P.RateSafe k (.close fd u)) := by
  unfold Platform.syscallClose at call
  cases named : descriptor fd with
  | none =>
      rw [named] at call
      cases call
      exact ⟨rfl, by simp [RateSafe, named]⟩
  | some i =>
      rw [named] at call
      rw [rateSafe_close_iff named]
      simp only at call
      split_ifs at call with refused
      · cases call
        refine ⟨rfl, iff_of_true rfl fun isTwo isOpen => ?_⟩
        exact absurd refused (not_or.mpr ⟨by omega, isOpen⟩)
      · obtain ⟨curr, kept⟩ := driverClose_rate_iff here lt call
        refine ⟨curr, kept.trans ⟨fun safe _ _ => safe, fun safe => ?_⟩⟩
        exact safe (by omega) fun closed => refused (.inr closed)

/-! ### Writing -/

theorem rtcWrite_int32_eq_zero_iff (regA : UInt8) (word : Nat) :
    (rtcWrite regA (int32 word)).1 = 0 ↔ Cmos.Programmable (int32 word) := by
  have signed : (BitVec.ofNat 32 word).toInt = int32 word := by
    rw [BitVec.toInt_eq_toNat_cond, BitVec.toNat_ofNat, int32]
    split_ifs <;> omega
  have ports := Cmos.rtcWrite_eq ⟨0, fun _ => regA, []⟩ (BitVec.ofNat 32 word) 0
  rw [← signed, ports]
  exact Cmos.rtcWrite_eq_zero_iff _ _ _

theorem rateSafe_write_iff {fd nbytes : Int} {buf : CStr} {i : Fin 8}
    (named : descriptor fd = some i) :
    P.RateSafe k (.write fd (some buf) nbytes) ↔
      (nbytes ≠ 0 → i.val ≠ 0 → k.field (.flags i) ≠ 0 →
        k.field .rtcRate = load buf 0 4 ∨
          (i.val = k.field .rtcFd ↔
            P.driver k i = some .rtc ∧ Cmos.Programmable (int32 (load buf 0 4)))) := by
  simp only [RateSafe, named, Option.some.injEq]
  constructor
  · intro safe
    exact safe i rfl
  · rintro safe j rfl
    exact safe

/-- Once a write is accepted, the field holds the caller's word or its old value, by the
recorded descriptor alone. -/
theorem accepted_write_rate (here : k.curr = getPcb p) (lt : p < 16) {i : Fin 8} {buf : CStr}
    {nbytes value : Int}
    (call : P.driverWrite
      (if i.val = k.field .rtcFd then k.setField .rtcRate (load buf 0 4) else k) i buf nbytes =
        some (value, k')) :
    k'.curr = k.curr ∧ k'.field .rtcRate =
      if i.val = k.field .rtcFd then load buf 0 4 else k.field .rtcRate := by
  have here' : (if i.val = k.field .rtcFd then k.setField .rtcRate (load buf 0 4) else k).curr =
      getPcb p := by
    split_ifs <;> exact here
  have driven := SameRate.of_steps here' lt (fun _ => False.elim) (.driverWrite call)
  split_ifs at driven ⊢ with recorded
  · refine ⟨driven.curr, driven.rate.trans ?_⟩
    rw [Kernel.field_setField here lt, if_pos rfl]
    exact Nat.mod_eq_of_lt (load_lt buf 0 4)
  · exact ⟨driven.curr, driven.rate⟩

/-- The word or the old value, as it is kept and as it should be. -/
theorem recorded_iff {recorded accepted : Prop} [Decidable recorded] [Decidable accepted]
    {word rate : Nat} :
    (if recorded then word else rate) = (if accepted then some word else none).getD rate ↔
      rate = word ∨ (recorded ↔ accepted) := by
  by_cases recorded <;> by_cases accepted <;> simp [*, eq_comm]

theorem syscallWrite_records_iff (here : k.curr = getPcb p) (lt : p < 16) {fd nbytes value : Int}
    {buf : Option CStr} (call : P.syscallWrite k fd buf nbytes = some (value, k')) :
    k'.curr = k.curr ∧
      (P.RecordsRate k (.write fd buf nbytes) k' ↔ P.RateSafe k (.write fd buf nbytes)) := by
  unfold Platform.syscallWrite at call
  cases named : descriptor fd with
  | none =>
      rw [named] at call
      cases call
      refine ⟨rfl, ?_⟩
      cases buf <;> simp [RecordsRate, RateSafe, programmed, named]
  | some i =>
      cases buf with
      | none =>
          rw [named] at call
          cases call
          exact ⟨rfl, by simp [RecordsRate, RateSafe, programmed]⟩
      | some buf =>
          rw [named] at call
          rw [rateSafe_write_iff named]
          simp only [RecordsRate, programmed, named]
          simp only at call
          by_cases refused : nbytes = 0 ∨ i.val = 0 ∨ k.field (.flags i) = 0
          · rw [if_pos refused] at call
            cases call
            refine ⟨rfl, iff_of_true ?_ ?_⟩
            · rw [if_neg]
              · rfl
              · rintro ⟨asked, nonzero, isOpen, -⟩
                simp [asked, nonzero, isOpen] at refused
            · intro asked nonzero isOpen
              simp [asked, nonzero, isOpen] at refused
          · rw [if_neg refused] at call
            obtain ⟨asked, nonzero, isOpen⟩ : nbytes ≠ 0 ∧ i.val ≠ 0 ∧ k.field (.flags i) ≠ 0 := by
              simpa using refused
            obtain ⟨curr, rate⟩ := accepted_write_rate here lt call
            refine ⟨curr, ?_⟩
            rw [rate, ← rtcWrite_int32_eq_zero_iff k.rtcRegA]
            simp only [asked, nonzero, isOpen, ne_eq, not_false_eq_true, true_and, forall_const]
            exact recorded_iff

/-! ### Sequences of calls -/

theorem fdCall_records_iff (here : k.curr = getPcb p) (lt : p < 16) {c : FdCall} {value : Int}
    (call : P.fdCall k c = some (value, k')) :
    k'.curr = k.curr ∧ (P.RecordsRate k c k' ↔ P.RateSafe k c) := by
  cases c with
  | openFile name u =>
      have same : SameRate k k' :=
        .of_steps here lt (fun _ => SameRate.ne_rtcRate) (.syscallOpen (fun _ => id) call)
      exact ⟨same.curr, iff_of_true same.rate trivial⟩
  | read fd bufNull nbytes =>
      obtain ⟨io, read, eq⟩ := Option.map_eq_some_iff.mp call
      cases eq
      have same : SameRate k io.kernel :=
        .of_steps here lt (fun _ => SameRate.ne_rtcRate) (.syscallRead (fun _ => id) read)
      exact ⟨same.curr, iff_of_true same.rate trivial⟩
  | write fd buf nbytes => exact syscallWrite_records_iff here lt call
  | close fd u => exact syscallClose_rate_iff here lt call

/-- Every process and every sequence of its calls on files, of any type and name: the
recorded rate changes only when a rate has been programmed, and is then that rate, at every
step of the sequence exactly if every call of it is safe in the sense of `RateSafe`. -/
theorem rtc_rate_recorded (here : k.curr = getPcb p) (lt : p < 16) (calls : List FdCall) :
    (∀ step ∈ P.fdSteps k calls, P.RecordsRate step.1 step.2.1 step.2.2) ↔
      ∀ step ∈ P.fdSteps k calls, P.RateSafe step.1 step.2.1 := by
  induction calls generalizing k with
  | nil => simp [fdSteps]
  | cons c rest ih =>
      unfold fdSteps
      cases call : P.fdCall k c with
      | none => simp
      | some out =>
          obtain ⟨curr, recorded⟩ := fdCall_records_iff here lt call
          rw [List.forall_mem_cons, List.forall_mem_cons, recorded, ih (curr.trans here)]

/-- The clock is opened and set to 4 Hz. -/
def sampleClockCalls : List FdCall :=
  [.openFile (some (cLit [114, 116, 99])) .sample, .write 2 (some (cLit [4])) 4]

theorem rtc_rate_recorded_clock :
    (sample.fdSteps (Kernel.blank 1) sampleClockCalls).map (fun step =>
      step.2.2.field .rtcRate) = [0, 4] ∧
    ∀ step ∈ sample.fdSteps (Kernel.blank 1) sampleClockCalls,
      sample.RecordsRate step.1 step.2.1 step.2.2 := by
  refine ⟨by decide +kernel, ?_⟩
  refine (rtc_rate_recorded (Kernel.blank_curr (by decide)) (by decide) sampleClockCalls).mpr ?_
  have opened : (sample.fdCall (Kernel.blank 1) (.openFile (some (cLit [114, 116, 99])) .sample)).map
      (fun out => (out.2.field .rtcFd, sample.driver out.2 2)) = some (2, some .rtc) := by
    decide +kernel
  obtain ⟨⟨value, k₁⟩, call, facts⟩ := Option.map_eq_some_iff.mp opened
  obtain ⟨recorded, driver⟩ := Prod.mk.inj facts
  have second : sample.RateSafe k₁ (.write 2 (some (cLit [4])) 4) := by
    rw [rateSafe_write_iff (i := 2) (by decide)]
    intro _ _ _
    refine .inr (iff_of_true recorded.symm ⟨driver, 2, ?_⟩)
    decide +kernel
  intro step mem
  unfold sampleClockCalls fdSteps at mem
  rw [call] at mem
  rcases List.mem_cons.mp mem with rfl | rest
  · exact trivial
  · unfold fdSteps at rest
    split at rest
    · cases rest
    · rw [List.mem_singleton.mp rest]
      exact second

/-- A regular file named `bad` is opened and written to. The write is refused, with its word
recorded as the rate. -/
theorem rtc_rate_recorded_file :
    ((sample.fdCall (Kernel.blank 1) (.openFile (some (cLit [98, 97, 100])) .sample)).bind
      fun first => (sample.fdCall first.2 (.write 2 (some (cLit [1])) 4)).map fun second =>
        (first.1, sample.driver first.2 2, sample.programmed first.2 (.write 2 (some (cLit [1])) 4),
          first.2.field .rtcRate, second.1, second.2.field .rtcRate)) =
      some (2, some .file, none, 0, -1, 1) := by
  decide +kernel

end Platform

end Linux391
