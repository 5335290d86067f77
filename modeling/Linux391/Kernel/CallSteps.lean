import Linux391.Kernel.Descriptors
import Mathlib.Logic.Relation

/-!
The calls on files as sequences of elementary changes.

Whatever a call does, it does by a few kinds of store: to the clock's register, to the
terminals, to some fields of the caller's PCB, and through the two pointers that the
closing drivers never set. `FileSteps` is any sequence of these, and each call is one. A
relation between states that each kind keeps is then kept by every call, without looking
at the calls again.
-/

namespace Linux391

/-- The fields of its own PCB that a call may assign without writing to the clock. -/
def PcbField.OfFiles : PcbField → Prop
  | .fileOperationJmpTbl _ | .inodePtr _ | .filePosition _ | .flags _ | .rtcFd | .rtc => True
  | _ => False

namespace Platform

/-- The elementary changes: `may` are the fields assigned, `stray` the unspecified values
whose pointers are used. -/
inductive FileStep (may : PcbField → Prop) (stray : Unspecified → Prop) (k : Kernel) :
    Kernel → Prop where
  | rtcRegA (a : UInt8) : FileStep may stray k { k with rtcRegA := a }
  | terms (s : Terms) : FileStep may stray k { k with terms := s }
  | assign (assignments : List (PcbField × Nat)) : (∀ a ∈ assignments, may a.1) →
      FileStep may stray k (k.withMem (setAll k.mem k.curr assignments))
  | fileClose {u : Unspecified} (fd : Fin 8) : stray u →
      FileStep may stray k (k.close u.closePcb fd)
  | terminalClose {u : Unspecified} : stray u →
      FileStep may stray k (terminalClose k u.termData)

/-- Any number of them. -/
abbrev FileSteps (may : PcbField → Prop) (stray : Unspecified → Prop) :
    Kernel → Kernel → Prop :=
  Relation.ReflTransGen (FileStep may stray)

namespace FileSteps

variable {P : Platform} {k k' : Kernel} {may : PcbField → Prop} {stray : Unspecified → Prop}

theorem setField {g : PcbField} (allowed : may g) (v : Nat) :
    FileSteps may stray k (k.setField g v) := by
  refine .single (.assign [(g, v)] fun a mem => ?_)
  rw [List.mem_singleton.mp mem]
  exact allowed

/-- The drivers' writes assign no field. -/
theorem driverWrite {fd : Fin 8} {buf : CStr} {nbytes value : Int}
    (call : P.driverWrite k fd buf nbytes = some (value, k')) : FileSteps may stray k k' := by
  unfold Platform.driverWrite at call
  split at call
  · cases call
    exact .single (.rtcRegA _)
  · cases call
    exact .refl
  · cases call
    exact .refl
  · simp only [Option.bind_eq_bind, Option.bind_eq_some_iff] at call
    obtain ⟨t, -, eq⟩ := call
    cases eq
    exact .single (.terms _)
  · cases call

theorem syscallWrite {fd nbytes value : Int} {buf : Option CStr} (rate : may .rtcRate)
    (call : P.syscallWrite k fd buf nbytes = some (value, k')) : FileSteps may stray k k' := by
  simp only [Platform.syscallWrite] at call
  split at call
  · split_ifs at call
    · cases call
      exact .refl
    · exact (setField rate _).trans (driverWrite call)
    · exact driverWrite call
  · cases call
    exact .refl

section Own

variable (own : ∀ g : PcbField, g.OfFiles → may g)

include own

theorem fileOpen {filename : CStr} {fileOpTbl : Nat} {fd : Fin 8}
    (opened : P.fileOpen k filename fileOpTbl = some (fd, k')) : FileSteps may stray k k' := by
  obtain ⟨dentry, -, -, rfl⟩ := fileOpen_eq_some opened
  refine .single (.assign _ fun a mem => own _ ?_)
  simp only [List.mem_append, List.mem_cons, List.not_mem_nil, or_false] at mem
  rcases mem with (rfl | rfl | rfl | rfl) | mem
  · trivial
  · trivial
  · trivial
  · trivial
  · unfold openAssignments at mem
    split_ifs at mem <;> simp only [List.mem_cons, List.not_mem_nil, or_false] at mem
    · rcases mem with rfl | rfl <;> trivial
    · subst mem
      trivial
    · rcases mem with rfl | rfl <;> trivial

theorem driverOpen {fd : Fin 8} {u : Unspecified} (call : P.driverOpen k fd u = some k') :
    FileSteps may stray k k' := by
  unfold Platform.driverOpen at call
  split at call
  · cases call
    exact .single (.rtcRegA _)
  · cases call
    cases again : P.fileOpen k u.openName u.fileOpTbl' with
    | none => exact .refl
    | some result => exact fileOpen own again
  · cases call
    exact .refl
  · obtain ⟨t, -, rfl⟩ := Option.map_eq_some_iff.mp call
    exact .single (.terms _)
  · cases call

theorem syscallOpen {filename : Option CStr} {u : Unspecified} {value : Int}
    (call : P.syscallOpen k filename u = some (value, k')) : FileSteps may stray k k' := by
  cases filename with
  | none =>
      cases call
      exact .refl
  | some filename =>
      simp only [Platform.syscallOpen] at call
      split at call
      · cases call
        exact .refl
      rename_i fd opened first
      obtain ⟨last, driven, eq⟩ := Option.map_eq_some_iff.mp call
      cases eq
      refine (fileOpen own first).trans (.trans ?_ (driverOpen own driven))
      split_ifs
      · exact setField (own .rtcFd trivial) _
      · exact .refl

theorem driverRead {fd : Fin 8} {nbytes : Int} {io : Io}
    (call : P.driverRead k fd nbytes = some io) : FileSteps may stray k io.kernel := by
  unfold Platform.driverRead at call
  split at call
  · cases call
    exact .refl
  · cases call
    simp only [Platform.fileRead]
    split
    · exact .refl
    · exact setField (own (.filePosition fd) trivial) _
  · cases call
    simp only [Platform.dirRead]
    split
    · exact .refl
    · exact setField (own (.filePosition fd) trivial) _
  · simp only [Option.bind_eq_bind, Option.bind_eq_some_iff] at call
    obtain ⟨t, -, ⟨chars, s⟩, -, eq⟩ := call
    cases eq
    exact .single (.terms s)
  · cases call

theorem syscallRead {fd nbytes : Int} {bufNull : Bool} {io : Io}
    (call : P.syscallRead k fd bufNull nbytes = some io) : FileSteps may stray k io.kernel := by
  unfold Platform.syscallRead at call
  split_ifs at call
  · cases call
    exact .refl
  split at call
  · cases call
    exact .refl
  split_ifs at call
  · cases call
    exact .refl
  · exact driverRead own call

theorem syscallClose {fd value : Int} {u : Unspecified} (used : stray u)
    (call : P.syscallClose k fd u = some (value, k')) : FileSteps may stray k k' := by
  unfold Platform.syscallClose at call
  split at call
  · cases call
    exact .refl
  rename_i i _
  split_ifs at call
  · cases call
    exact .refl
  have entry : FileSteps may stray k (k.close k.curr i) := setField (own (.flags i) trivial) 0
  refine entry.trans ?_
  unfold Platform.driverClose at call
  split at call <;> cases call
  · exact .refl
  · exact .single (.fileClose i used)
  · exact .refl
  · exact .single (.terminalClose used)

end Own

end FileSteps

end Platform

end Linux391
