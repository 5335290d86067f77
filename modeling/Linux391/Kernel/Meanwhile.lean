import Linux391.Kernel.Arguments

/-!
What the rest of the system leaves to a process.

Between two calls of process `p` anything may happen: interrupts, with it or another process
running, and all the calls of the others. `Meanwhile P p` are these runs. However long they are,
they leave the PCB of `p` its descriptors, its terminal, its clock and its arguments
(`Meanwhile.undisturbed`); the fields that change are the saved registers, and `child`.

The exception is the uninitialised pointer of `file_close`: where it happens to be the PCB of `p`, a
close by another process closes a file of `p`. Such closes are left out of `Event.Spares`.
-/

namespace Linux391

open Memory Platform

variable {P : Platform} {k k' : Kernel} {r p : Nat} {f : Frame} {e : Event} {outcome : Outcome}

/-- The events that are not calls of `p`, and close none of its files by accident. -/
def Event.Spares (p : Nat) (k : Kernel) : Event → Prop
  | .tick _ | .altFn _ _ | .key _ _ _ _ => True
  | .execute _ _ | .vidmap _ => k.running ≠ p
  | .halt _ u _ => k.running ≠ p ∧ ∀ fd, (u fd).closePcb ≠ getPcb p
  | .call (.close _ u) => k.running ≠ p ∧ u.closePcb ≠ getPcb p
  | .call _ => k.running ≠ p

/-- Runs without a call of `p`. -/
inductive Meanwhile (P : Platform) (p : Nat) : Kernel → Kernel → Prop where
  | refl (k : Kernel) : Meanwhile P p k k
  | step {k k₁ k₂ : Kernel} {e : Event} {outcome : Outcome} : Meanwhile P p k k₁ →
      e.Defined k₁ → e.Spares p k₁ → P.step k₁ e = some (outcome, k₂) → Meanwhile P p k k₂

/-- The fields of a PCB that the others do not write. -/
def PcbField.Private (g : PcbField) : Prop := g ≠ .espReg ∧ g ≠ .ebpReg ∧ g ≠ .child

/-- The private fields of `p` are the same in both memories. -/
def SameFields (p : Nat) (m m' : Mem) : Prop :=
  ∀ g : PcbField, g.Private → get m' (getPcb p) g = get m (getPcb p) g

namespace SameFields

theorem refl (p : Nat) (m : Mem) : SameFields p m m := fun _ _ => rfl

theorem trans {m m' m'' : Mem} (one : SameFields p m m') (two : SameFields p m' m'') :
    SameFields p m m'' := fun g own => (two g own).trans (one g own)

/-! ### Calls of another process -/

theorem set {q : Nat} {m : Mem} (ltq : q < 16) (lt : p < 16) {g : PcbField} (v : Nat)
    (apart : q ≠ p ∨ ¬ g.Private) : SameFields p m (Linux391.set m (getPcb q) g v) := by
  intro g' own
  refine get_set_other ltq lt (apart.imp_right fun not same => ?_)
  subst same
  exact not own

theorem setAll {q : Nat} {m : Mem} (ltq : q < 16) (lt : p < 16) (ne : q ≠ p)
    (assignments : List (PcbField × Nat)) :
    SameFields p m (Linux391.setAll m (getPcb q) assignments) :=
  fun _ _ => get_setAll_other ltq lt ne assignments

theorem setArgs {q : Nat} {m : Mem} {bytes : List UInt8} (ltq : q < 16) (lt : p < 16) (ne : q ≠ p)
    (short : bytes.length ≤ 0x1000) : SameFields p m (Linux391.setArgs m (getPcb q) bytes) := by
  intro g _
  have inside := g.offset_size_le
  have pcb := getPcb_eq lt
  have pcb' := getPcb_eq ltq
  apply load_storeBytes_of_disjoint
  omega

/-- Unspecified pointers that are no danger to `p`. -/
def Spared (p : Nat) (u : Unspecified) : Prop := u.Harmless ∧ u.closePcb ≠ getPcb p

theorem close {u : Unspecified} (spared : Spared p u) (lt : p < 16) (fd : Fin 8) :
    SameFields p k.mem (k.close u.closePcb fd).mem := by
  rcases spared.1.closePcb with ⟨q, ltq, eq⟩ | outside
  · have ne : q ≠ p := fun same => spared.2 (same ▸ eq)
    rw [eq]
    exact set ltq lt 0 (.inl ne)
  · intro g _
    have apart := outside p lt
    have inside := g.offset_size_le
    have inside' := (PcbField.flags fd).offset_size_le
    apply load_store_of_disjoint
    omega

theorem of_steps {may : PcbField → Prop} (here : k.curr = getPcb r) (ltr : r < 16) (lt : p < 16)
    (ne : r ≠ p) (steps : FileSteps may (Spared p) k k') :
    k'.curr = k.curr ∧ SameFields p k.mem k'.mem := by
  induction steps with
  | refl => exact ⟨rfl, refl p k.mem⟩
  | tail _ step ih =>
      obtain ⟨curr, same⟩ := ih
      cases step with
      | rtcRegA a => exact ⟨curr, same⟩
      | terms s => exact ⟨curr, same⟩
      | assign assignments allowed =>
          rw [curr, here]
          exact ⟨curr.trans here, same.trans (setAll ltr lt ne assignments)⟩
      | fileClose fd used => exact ⟨curr, same.trans (close used lt fd)⟩
      | terminalClose used =>
          exact ⟨curr, same.trans fun g _ => used.1.get_terminalClose lt g⟩

/-! ### Starting a program -/

/-- A program that is entered on another pid. -/
theorem enter {pid parent : Nat} {term : Kernel → Nat} {fargs : CStr} (ltr : r < 16) (lt : p < 16)
    (here : k.curr = getPcb r) (ltq : pid < 16) (ne : pid ≠ p)
    (short : (strcpyBytes fargs).length ≤ 0x1000) :
    SameFields p k.mem (P.enter k pid parent term fargs f).mem := by
  have ebp : ¬ PcbField.ebpReg.Private := fun own => own.2.1 rfl
  have esp : ¬ PcbField.espReg.Private := fun own => own.1 rfl
  rw [enter_mem rfl, here]
  generalize P.newPcb pid parent _ = assignments
  exact (((setAll ltq lt ne assignments).trans (setArgs ltq lt ne short)).trans
    (set ltr lt _ (.inr ebp))).trans (set ltr lt _ (.inr esp))

/-- A program that was loaded for a process whose pid was free, and so is not that of `p`. -/
theorem loaded {pid parent : Nat} {term : Kernel → Nat} {c : CStr} {parse : Parse}
    {k₁ ready : Kernel} (ltr : r < 16) (here : k.curr = getPcb r) (live : Live k p)
    (done : P.LoadDone k c f pid parse k₁) (short : (strcpyBytes parse.fargs).length ≤ 0x1000)
    (mem : ready.mem = k₁.mem) (curr : ready.curr = k₁.curr) :
    SameFields p k.mem (P.enter ready pid parent term parse.fargs f).mem := by
  have ne : pid ≠ p := fun same => live.inUse (same ▸ done.new.free)
  obtain ⟨frames, -, eq⟩ := done.state
  have mem₁ : k₁.mem = k.mem := by rw [eq]; rfl
  have curr₁ : k₁.curr = getPcb r := by rw [eq]; exact here
  rw [← mem₁, ← mem]
  exact enter ltr live.lt (curr.trans curr₁) done.new.lt ne short

theorem execute {command : Option CStr} (ltr : r < 16) (here : k.curr = getPcb r) (live : Live k p)
    (inBounds : InBounds command f)
    (exec : P.syscallExecute k command f = some (outcome, k')) : SameFields p k.mem k'.mem := by
  cases command with
  | none =>
      cases exec
      exact refl p k.mem
  | some c =>
      simp only [syscallExecute] at exec
      rcases loadProgram_cases P k c f with
        ⟨failed, load, how, -⟩ | ⟨pid, parse, k₁, load, done⟩
      · rw [load] at exec
        cases exec
        obtain ⟨_, _, _, rfl, -⟩ := how.unchanged
        exact refl p k.mem
      · rw [load] at exec
        cases exec
        have short := (unreached_of_inBounds done.parsed (inBounds c parse rfl done.parsed)
          (.inl rfl : Identity .pid)).1
        let ready := (k₁.scheduleTask pid).unscheduleTask (k₁.field .pid)
        have entered (parent : Nat) (term : Kernel → Nat) :
            SameFields p k.mem (P.enter ready pid parent term parse.fargs f).mem :=
          loaded ltr here live done short rfl rfl
        exact entered _ _

theorem initShell {termNum : Nat} (ltr : r < 16) (here : k.curr = getPcb r) (live : Live k p)
    (init : P.syscallInitShell k termNum f = some (outcome, k')) : SameFields p k.mem k'.mem := by
  simp only [syscallInitShell] at init
  rcases loadProgram_cases P k shellCommand f with
    ⟨failed, load, how, -⟩ | ⟨pid, parse, k₁, load, done⟩
  · rw [load] at init
    cases init
    obtain ⟨_, _, _, rfl, -⟩ := how.unchanged
    exact refl p k.mem
  · simp only [load, Option.bind_eq_bind, Option.bind_some] at init
    obtain ⟨t, -, eq⟩ := Option.bind_eq_some_iff.mp init
    cases eq
    have short := shell_args_fit done.parsed
    let ready := { k₁ with terms := k₁.terms.terminalOpen t }.scheduleTask pid
    have entered (term : Kernel → Nat) :
        SameFields p k.mem (P.enter ready pid 0 term parse.fargs f).mem :=
      loaded ltr here live done (Nat.le_trans short (by decide)) rfl rfl
    exact entered _

/-! ### The other events -/

/-- The store of `syscall_vidmap` goes to no kernel memory. -/
theorem mem_storeUser (regular : Paging.Regular P.pages k.paging) (pos : 1 ≤ k.cr3)
    (lt : k.cr3 < 16) {bytes : List UInt8} {va : Nat} (above : 0x800000 ≤ va)
    (stored : k.storeUser P va bytes = some k') : k'.mem = k.mem := by
  induction bytes generalizing k va with
  | nil =>
      cases stored
      rfl
  | cons b rest ih =>
      obtain ⟨pa, found, others⟩ := Option.bind_eq_some_iff.mp stored
      have frame := Paging.walk_frame regular pos lt (.inr above) found
      have single : k.storeUser P va [b] = some (k.storePhysical pa b) := by
        simp [Kernel.storeUser, found]
      have same := SameIdentity.storeUser regular pos lt above single
      have one : (k.storePhysical pa b).mem = k.mem := by
        unfold Kernel.storePhysical
        split_ifs with inKernel
        · unfold Paging.InImage at frame
          omega
        · rfl
        · rfl
      rw [← one]
      exact ih (same.paging ▸ regular) (same.cr3 ▸ pos) (same.cr3 ▸ lt) (by omega) others

theorem vidmap {G : Nat → Prop} {screenStart : Nat} (h : Sound P G k) (on : Sound.On G r k)
    (lt : p < 16) (ne : r ≠ p) (step : P.syscallVidmap k screenStart = some (outcome, k')) :
    SameFields p k.mem k'.mem := by
  have range := h.range r on.mem
  simp only [syscallVidmap, on.field h] at step
  split_ifs at step with refused
  · cases step
    exact refl p k.mem
  obtain ⟨k₁, stored, eq⟩ := Option.bind_eq_some_iff.mp step
  cases eq
  have regular := (h.mapVideo on).regular
  have mem := mem_storeUser regular (on.cr3 ▸ range.1) (on.cr3 ▸ range.2) (by omega) stored
  have same := SameIdentity.storeUser regular (on.cr3 ▸ range.1) (on.cr3 ▸ range.2) (by omega)
    stored
  have curr : k₁.curr = getPcb r := same.curr.trans on.curr
  show SameFields p k.mem (Linux391.set k₁.mem k₁.curr .vidmap 1)
  rw [curr, mem]
  exact set range.2 lt 1 (.inl ne)

theorem tick {G : Nat → Prop} (h : Sound P G k) (on : Sound.On G r k) (lt : p < 16) :
    SameFields p k.mem (k.schedulerTick P f.esp f.ebp).mem := by
  cases next : Kernel.nextPid k.sched (k.field .pid) with
  | none =>
      have idle : k.schedulerTick P f.esp f.ebp = k := by simp only [Kernel.schedulerTick, next]
      rw [idle]
      exact refl p k.mem
  | some q =>
      have mem : G q := h.nextPid_mem on next
      have switched := schedulerTick_switched (P := P) (f := f) (h.range r on.mem).2
        (h.range q mem).2 on.curr next (h.pid q mem)
      intro g own
      rw [switched.fields p lt g, if_neg fun eq => own.1 eq.2.symm,
        if_neg fun eq => own.2.1 eq.2.symm]

theorem halt {G : Nat → Prop} (status : UInt8) {u : Fin 8 → Unspecified} (h : Sound P G k)
    (on : Sound.On G r k) (live : Live k p) (ne : r ≠ p) (spared : ∀ fd, Spared p (u fd))
    (step : P.syscallHalt k status u f = some (outcome, k')) : SameFields p k.mem k'.mem := by
  have range := h.range r on.mem
  have parentField : k.field .parentPcb = get k.mem (getPcb r) .parentPcb := by
    rw [Kernel.field, on.curr]
  simp only [syscallHalt, on.field h] at step
  split_ifs at step with root
  · have usage : Function.update k.pidUsage r 0 p ≠ 0 := by
      rw [Function.update_of_ne (Ne.symm ne)]
      exact live.inUse
    exact initShell (k := { k.tasksPidFree r with esp := kernelStack r }) range.2
      (pcbProcess_kernelStack range.2) ⟨live.pos, live.lt, usage⟩ step
  · obtain ⟨k₁, closed, eq⟩ := Option.map_eq_some_iff.mp step
    have same := SameIdentity.closeAll on.curr range.2 (fun fd => (spared fd).1) closed
    have kept := (of_steps on.curr range.2 live.lt ne (FileSteps.closeAll spared closed)).2
    have h₁ := h.sameIdentity same
    have on₁ := on.sameIdentity same
    rw [parentField] at root eq
    rcases h.parent r on.mem with none | ⟨q, mem, parent⟩
    · exact absurd none root
    · obtain ⟨k₂, resume, resumed⟩ := resumeParent_resumed range.2 (h.range q mem).2 on₁.curr
        (h₁.pid r on.mem) (h₁.pid q mem)
      rw [parent, resume] at eq
      cases eq
      refine kept.trans fun g own => ?_
      rw [resumed.fields p live.lt g, if_neg fun eq => own.2.2 eq.2.symm]

theorem call {c : FdCall} (here : k.curr = getPcb r) (ltr : r < 16) (lt : p < 16) (ne : r ≠ p)
    (spared : ∀ fd u, c = .close fd u → Spared p u) {value : Int}
    (called : P.fdCall k c = some (value, k')) : SameFields p k.mem k'.mem := by
  have steps : FileSteps (fun _ => True) (Spared p) k k' :=
    .fdCall (fun _ _ => trivial) trivial spared called
  exact (of_steps here ltr lt ne steps).2

end SameFields

/-- One event that spares `p`. -/
theorem Sound.spared {G : Nat → Prop} (h : Sound P G k) (on : Sound.On G r k) (live : Live k p)
    (defined : e.Defined k) (spares : e.Spares p k) (step : P.step k e = some (outcome, k')) :
    SameFields p k.mem k'.mem := by
  have range := h.range r on.mem
  have running := Kernel.running_eq range.2 on.curr
  cases e with
  | tick f =>
      cases step
      exact SameFields.tick h on live.lt
  | altFn t f =>
      simp only [Platform.step, Platform.altFn] at step
      split_ifs at step
      · cases step
        exact SameFields.refl p k.mem
      · let k₀ : Kernel := { k with
          terms := k.terms.terminalSwitch t
          shellActive := Function.update k.shellActive t 1 }
        have live₀ : Live k₀ p := ⟨live.pos, live.lt, live.inUse⟩
        exact SameFields.initShell (k := k₀) range.2 on.curr live₀ step
  | key _ _ _ _ =>
      cases step
      exact SameFields.refl p k.mem
  | execute command f => exact SameFields.execute range.2 on.curr live defined.2.2 step
  | halt status u f =>
      exact SameFields.halt status h on live (running ▸ spares.1)
        (fun fd => ⟨defined.2.2 fd, spares.2 fd⟩) step
  | vidmap screenStart => exact SameFields.vidmap h on live.lt (running ▸ spares) step
  | call c =>
      obtain ⟨⟨value, k₁⟩, called, eq⟩ := Option.map_eq_some_iff.mp step
      cases eq
      have ne : r ≠ p := by
        cases c with
        | openFile _ _ => exact running ▸ spares
        | read _ _ _ => exact running ▸ spares
        | write _ _ _ => exact running ▸ spares
        | close _ _ => exact running ▸ spares.1
      refine SameFields.call on.curr range.2 live.lt ne ?_ called
      rintro fd u rfl
      exact ⟨defined.2, spares.2⟩

theorem Meanwhile.livesOn (run : Meanwhile P p k k') : LivesOn P p k k' := by
  induction run with
  | refl => exact .refl k
  | @step k₁ k₂ e outcome _ defined spares step ih =>
      refine ih.step defined ?_ step
      rintro ⟨own, halts⟩
      cases e with
      | halt _ _ _ => exact spares.1 own
      | _ => exact halts

/-- **Between its calls a process keeps what is its own**: its pid, the private fields of its PCB
and its arguments. -/
theorem Meanwhile.undisturbed (run : Meanwhile P p k k') (reachable : Reachable P k)
    (live : Live k p) :
    Reachable P k' ∧ Live k' p ∧ SameArgs k.mem k'.mem p ∧ SameFields p k.mem k'.mem := by
  obtain ⟨reachable', live', args⟩ := run.livesOn.lives reachable live
  refine ⟨reachable', live', args, ?_⟩
  induction run with
  | refl => exact .refl p k.mem
  | @step k₁ k₂ e outcome before defined spares step ih =>
      obtain ⟨reachable₁, live₁, args₁⟩ := before.livesOn.lives reachable live
      obtain ⟨G, r, h, on⟩ := reachable₁.sound
      exact (ih reachable₁ live₁ args₁).trans (h.spared on live₁ defined spares step)

end Linux391
