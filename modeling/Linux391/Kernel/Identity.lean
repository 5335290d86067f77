import Linux391.Kernel.Events

/-!
What the calls on files leave alone.

Of a PCB they write the descriptors, the clock's fields and `vidmap`, never the fields
that say whose PCB it is and where its process resumes (`Identity`), and never its
arguments. Two of the pointers they write through are uninitialised; `Harmless` says that
these do not point into the middle of a PCB.
-/

namespace Linux391

open Memory Platform

/-- The fields that say whose PCB it is and where it resumes. They lie before `args`. -/
def Identity (g : PcbField) : Prop := g = .pid ∨ g = .espReg ∨ g = .ebpReg ∨ g = .parentPcb

variable {P : Platform} {k k' k'' : Kernel} {r q : Nat}

/-! ### Calls that keep identities -/

/-- At most files, terminals and frames changed. -/
structure SameIdentity (k k' : Kernel) : Prop where
  usage : k'.pidUsage = k.pidUsage
  sched : k'.sched = k.sched
  cr3 : k'.cr3 = k.cr3
  curr : k'.curr = k.curr
  paging : k'.paging = k.paging
  fields : ∀ p < 16, ∀ g, Identity g → get k'.mem (getPcb p) g = get k.mem (getPcb p) g
  args : ∀ p < 16, SameArgs k.mem k'.mem p

namespace SameIdentity

theorem refl (k : Kernel) : SameIdentity k k :=
  ⟨rfl, rfl, rfl, rfl, rfl, fun _ _ _ _ => rfl, fun _ _ => .refl _ _⟩

theorem trans (one : SameIdentity k k') (two : SameIdentity k' k'') : SameIdentity k k'' :=
  ⟨two.usage.trans one.usage, two.sched.trans one.sched, two.cr3.trans one.cr3,
    two.curr.trans one.curr, two.paging.trans one.paging,
    fun p lt g id => (two.fields p lt g id).trans (one.fields p lt g id),
    fun p lt => (one.args p lt).trans (two.args p lt)⟩

/-- Other contents of memory with the same identities and arguments. -/
theorem withMem {m : Mem}
    (fields : ∀ p < 16, ∀ g, Identity g → get m (getPcb p) g = get k.mem (getPcb p) g)
    (args : ∀ p < 16, SameArgs k.mem m p) : SameIdentity k (k.withMem m) :=
  ⟨rfl, rfl, rfl, rfl, rfl, fields, args⟩

theorem terms (s : Terms) : SameIdentity k { k with terms := s } :=
  ⟨rfl, rfl, rfl, rfl, rfl, fun _ _ _ _ => rfl, fun _ _ => .refl _ _⟩

theorem frames (m : Mem) : SameIdentity k { k with frames := m } :=
  ⟨rfl, rfl, rfl, rfl, rfl, fun _ _ _ _ => rfl, fun _ _ => .refl _ _⟩

theorem rtcRegA (v : UInt8) : SameIdentity k { k with rtcRegA := v } :=
  ⟨rfl, rfl, rfl, rfl, rfl, fun _ _ _ _ => rfl, fun _ _ => .refl _ _⟩

theorem set (lt : q < 16) {g : PcbField} (other : ¬ Identity g) (v : Nat) :
    SameIdentity k (k.withMem (Linux391.set k.mem (getPcb q) g v)) :=
  withMem (fun _ ltp _ id => get_set_other lt ltp (.inr fun same => other (same ▸ id)))
    fun _ ltp => .set lt ltp g v

theorem setField (here : k.curr = getPcb r) (lt : r < 16) {g : PcbField} (other : ¬ Identity g)
    (v : Nat) : SameIdentity k (k.setField g v) := by
  rw [Kernel.setField, here]
  exact set lt other v

theorem setAll (lt : q < 16) (assignments : List (PcbField × Nat))
    (others : ∀ a ∈ assignments, ¬ Identity a.1) :
    SameIdentity k (k.withMem (Linux391.setAll k.mem (getPcb q) assignments)) := by
  induction assignments generalizing k with
  | nil => exact .refl k
  | cons a rest ih =>
      have first : SameIdentity k _ := set lt (others a List.mem_cons_self) a.2
      exact first.trans (ih fun a mem => others a (List.mem_cons_of_mem _ mem))

end SameIdentity

/-! ### Files -/

/-- The pointers the code never sets do not point into the middle of a PCB: that of
`file_close` is a PCB's or outside every PCB, and the two bytes `terminal_close` may
write are in no PCB. -/
structure Unspecified.Harmless (u : Unspecified) : Prop where
  closePcb : (∃ q < 16, u.closePcb = getPcb q) ∨ OutsidePcbs u.closePcb
  termData : ∀ q < 16, u.termData + 153 < getPcb q ∨ getPcb q + 257 ≤ u.termData + 152

/-- Of the PCBs, `file_close` changes one flag of one at most. -/
theorem Unspecified.Harmless.get_close {u : Unspecified} (harmless : u.Harmless) {fd : Fin 8}
    {p : Nat} (lt : p < 16) {g : PcbField} (other : g ≠ .flags fd) :
    get (k.close u.closePcb fd).mem (getPcb p) g = get k.mem (getPcb p) g := by
  rcases harmless.closePcb with ⟨q, ltq, eq⟩ | outside
  · rw [eq]
    exact get_set_other ltq lt (.inr (Ne.symm other))
  · apply load_store_of_disjoint
    have apart := outside p lt
    have inside := g.offset_size_le
    have inside' := (PcbField.flags fd).offset_size_le
    omega

/-- `terminal_close` changes none. -/
theorem Unspecified.Harmless.get_terminalClose {u : Unspecified} (harmless : u.Harmless) {p : Nat}
    (lt : p < 16) (g : PcbField) :
    get (Platform.terminalClose k u.termData).mem (getPcb p) g = get k.mem (getPcb p) g := by
  apply load_congr
  intro i inside
  have apart := harmless.termData p lt
  have offset := g.offset_size_le
  have ne : getPcb p + g.offset + i ≠ u.termData + 153 := by omega
  have ne' : getPcb p + g.offset + i ≠ u.termData + 152 := by omega
  simp only [Platform.terminalClose, Kernel.withMem_mem]
  split
  · rw [Function.update_of_ne ne', Function.update_of_ne ne]
  · rw [Function.update_of_ne ne]

/-- Neither of the two reaches the arguments of a process. -/
theorem Unspecified.Harmless.args_close {u : Unspecified} (harmless : u.Harmless) (fd : Fin 8)
    {p : Nat} (lt : p < 16) : SameArgs k.mem (k.close u.closePcb fd).mem p := by
  rcases harmless.closePcb with ⟨q, ltq, eq⟩ | outside
  · rw [eq]
    exact .set ltq lt _ _
  · intro i inside
    have apart := outside p lt
    have offset := (PcbField.flags fd).offset_size_le
    rcases apart with below | above
    · exact store_of_ge (by omega)
    · exact store_of_lt (by omega)

theorem Unspecified.Harmless.args_terminalClose {u : Unspecified} (harmless : u.Harmless)
    {p : Nat} (lt : p < 16) : SameArgs k.mem (Platform.terminalClose k u.termData).mem p := by
  intro i inside
  have apart := harmless.termData p lt
  have ne : getPcb p + 146 + i ≠ u.termData + 153 := by omega
  have ne' : getPcb p + 146 + i ≠ u.termData + 152 := by omega
  simp only [pcbArgs, Platform.terminalClose, Kernel.withMem_mem]
  split
  · rw [Function.update_of_ne ne', Function.update_of_ne ne]
  · rw [Function.update_of_ne ne]

/-- No call assigns an identity. -/
theorem not_identity {g : PcbField} (assigned : g.OfFiles ∨ g = .rtcRate) : ¬ Identity g := by
  rintro (rfl | rfl | rfl | rfl) <;> simp [PcbField.OfFiles] at assigned

/-- The closing loop of `syscall_halt` uses the pointers of each descriptor. -/
theorem Platform.FileSteps.closeAll {stray : Unspecified → Prop} {u : Fin 8 → Unspecified}
    (used : ∀ fd, stray (u fd)) (closed : P.closeAll k u = some k') :
    FileSteps (fun g => g.OfFiles ∨ g = .rtcRate) stray k k' := by
  unfold Platform.closeAll at closed
  generalize List.finRange 8 = fds at closed
  induction fds generalizing k with
  | nil =>
      cases closed
      exact .refl
  | cons fd rest ih =>
      rw [List.foldlM_cons] at closed
      obtain ⟨next, one, others⟩ := Option.bind_eq_some_iff.mp closed
      refine .trans ?_ (ih others)
      split_ifs at one
      · obtain ⟨⟨value, k₁⟩, call, rfl⟩ := Option.map_eq_some_iff.mp one
        exact syscallClose (fun _ => .inl) (used fd) call
      · cases one
        exact .refl

/-- The calls whose unspecified values are harmless. -/
def Platform.FdCall.Harmless : FdCall → Prop
  | .close _ u => u.Harmless
  | _ => True

namespace SameIdentity

theorem close {u : Unspecified} (harmless : u.Harmless) (fd : Fin 8) :
    SameIdentity k (k.close u.closePcb fd) :=
  withMem (fun _ lt _ id => harmless.get_close lt fun same => by simp [same, Identity] at id)
    fun _ lt => harmless.args_close fd lt

theorem terminalClose {u : Unspecified} (harmless : u.Harmless) :
    SameIdentity k (Platform.terminalClose k u.termData) :=
  withMem (fun _ lt g _ => harmless.get_terminalClose lt g)
    fun _ lt => harmless.args_terminalClose lt

theorem of_steps {may : PcbField → Prop} {stray : Unspecified → Prop} (here : k.curr = getPcb r)
    (lt : r < 16) (others : ∀ g, may g → ¬ Identity g) (harmless : ∀ u, stray u → u.Harmless)
    (steps : FileSteps may stray k k') : SameIdentity k k' := by
  induction steps with
  | refl => exact .refl k
  | tail _ step ih =>
      refine ih.trans ?_
      cases step with
      | rtcRegA a => exact rtcRegA a
      | terms s => exact terms s
      | assign assignments allowed =>
          rw [ih.curr, here]
          exact setAll lt assignments fun a mem => others _ (allowed a mem)
      | fileClose fd used => exact close (harmless _ used) fd
      | terminalClose used => exact terminalClose (harmless _ used)

theorem syscallClose {fd : Int} {u : Unspecified} {value : Int} (here : k.curr = getPcb r)
    (lt : r < 16) (harmless : u.Harmless) (call : P.syscallClose k fd u = some (value, k')) :
    SameIdentity k k' :=
  of_steps here lt (fun _ => not_identity) (fun _ => id)
    (FileSteps.syscallClose (fun _ => .inl) harmless call)

/-- Every call on files. -/
theorem fdCall {c : FdCall} {value : Int} (here : k.curr = getPcb r) (lt : r < 16)
    (harmless : c.Harmless) (call : P.fdCall k c = some (value, k')) : SameIdentity k k' := by
  refine of_steps here lt (fun _ => not_identity) (fun _ => id)
    (FileSteps.fdCall (fun _ => .inl) (.inr rfl) ?_ call)
  rintro fd u rfl
  exact harmless

/-- The closing loop of `syscall_halt`. -/
theorem closeAll {u : Fin 8 → Unspecified} (here : k.curr = getPcb r) (lt : r < 16)
    (harmless : ∀ fd, (u fd).Harmless) (closed : P.closeAll k u = some k') : SameIdentity k k' :=
  of_steps here lt (fun _ => not_identity) (fun _ => id) (FileSteps.closeAll harmless closed)

end SameIdentity

/-! ### The store of vidmap -/

/-- Stores above kernel memory reach no PCB. -/
theorem SameIdentity.storeUser (regular : Paging.Regular P.pages k.paging) (pos : 1 ≤ k.cr3)
    (lt : k.cr3 < 16) {bytes : List UInt8} {va : Nat} (above : 0x800000 ≤ va)
    (stored : k.storeUser P va bytes = some k') : SameIdentity k k' := by
  induction bytes generalizing k va with
  | nil =>
      cases stored
      exact .refl _
  | cons b rest ih =>
      obtain ⟨pa, found, others⟩ := Option.bind_eq_some_iff.mp stored
      have frame := Paging.walk_frame regular pos lt (.inr above) found
      have one : SameIdentity k (k.storePhysical pa b) := by
        unfold Kernel.storePhysical
        split_ifs with inKernel
        · unfold Paging.InImage at frame
          omega
        · exact .terms _
        · exact .frames _
      have next : SameIdentity (k.storePhysical pa b) k' :=
        ih (by rw [one.paging]; exact regular) (by rw [one.cr3]; exact pos)
          (by rw [one.cr3]; exact lt) (by omega) others
      exact one.trans next

end Linux391
