import Linux391.Kernel.Reachable

/-!
What a new process inherits from the previous owner of its pid.

`paging_allocate` writes three entries of the page directory and `pcb_init` leaves
`vidmap`, `rtc`, `rtc_fd` and `rtc_rate` alone, so a process that follows one that had
called `vidmap` starts with the screen mapped. Two histories give the same start exactly
if neither leaves anything behind. `vidmap` is also the byte after `args[100]`: arguments
of 100 characters clear it with their NUL, and longer ones overwrite it.
-/

namespace Linux391

open Memory Platform

namespace Paging

variable {L : PageLayout} {T T₁ T₂ : Paging} {p : Nat}

/-- An entry of a directory that was just allocated. -/
theorem allocate_apply (lt : p < 16) (i : Nat) :
    (T.allocate L p).pageDirTable p i =
      if i = 0x20 then ⟨true, true, true, true, field20 ((p + 1) * 1024)⟩
      else if i = 1 then kernelPde
      else if i = 0 then ⟨true, true, true, false, field20 (L.userPageTable / 4096)⟩
      else T.pageDirTable p i := by
  simp only [allocate, Nat.not_le.mpr lt, if_false, setPde_apply, true_and]

/-- The entries an allocation leaves are absent, but for the screen's. -/
theorem Regular.absent (h : Regular L T) (pos : 1 ≤ p) (lt : p < 16) {i : Nat} (table : i ≠ 0)
    (kernel : i ≠ 1) (screen : i ≠ 31) (image : i ≠ 32) :
    (T.pageDirTable p i).present = false := by
  by_contra present
  have entry := h.directory p i pos lt (by simpa using present)
  simp [allowed, table, kernel, screen, image] at entry

/-- Without the screen's entry, what a user can reach in a directory that was just
allocated depends on the shared page table only. -/
theorem walk_allocate_congr (h₁ : Regular L T₁) (h₂ : Regular L T₂)
    (shared : T₁.userPageTable = T₂.userPageTable) (pos : 1 ≤ p) (lt : p < 16)
    (absent₁ : (T₁.pageDirTable p 31).present = false)
    (absent₂ : (T₂.pageDirTable p 31).present = false) (other : Nat → Nat → Pte) (va : Nat) :
    (T₁.allocate L p).walk L other true p va = (T₂.allocate L p).walk L other true p va := by
  have inside := L.userPageTable_inside
  have page : field20 (L.userPageTable / 4096) = L.userPageTable / 4096 := field20_of_lt (by omega)
  have table : ∀ T : Paging, (T.allocate L p).tableAt L other (L.userPageTable / 4096) =
      T.userPageTable := by
    intro T
    rw [tableAt, if_pos rfl]
    unfold allocate
    split <;> rfl
  have gone : ∀ T : Paging, Regular L T → (T.pageDirTable p 31).present = false →
      va / 2 ^ 22 ≠ 0 → va / 2 ^ 22 ≠ 1 → va / 2 ^ 22 ≠ 32 →
      (T.pageDirTable p (va / 2 ^ 22)).present = false := by
    intro T h absent first kernel image
    by_cases screen : va / 2 ^ 22 = 31
    · rw [screen, absent]
    · exact h.absent pos lt first kernel screen image
  simp only [walk, allocate_apply lt]
  by_cases image : va / 2 ^ 22 = 0x20
  · simp only [image, if_true, Bool.not_true, Bool.and_false, Bool.or_false, Bool.false_eq_true,
      if_false]
  by_cases kernel : va / 2 ^ 22 = 1
  · simp only [kernel, kernelPde, Nat.reduceEqDiff, if_false, if_true, Bool.not_true,
      Bool.not_false, Bool.and_true, Bool.or_true]
  by_cases first : va / 2 ^ 22 = 0
  · simp only [first, page, table, shared, if_true, Nat.reduceEqDiff, if_false]
  · simp only [image, kernel, first, if_false, gone T₁ h₁ absent₁ first kernel image,
      gone T₂ h₂ absent₂ first kernel image, Bool.not_false, Bool.true_or, if_true]

end Paging

/-! ### One start -/

/-- The screen is not mapped for `p`, and the tick will not try to. -/
def NoScreen (p : Nat) (k : Kernel) : Prop :=
  (k.paging.pageDirTable p 31).present = false ∧ get k.mem (getPcb p) .vidmap = 0

/-- The previous owner of `p` left no screen to a program with these arguments. -/
def ScreenSafe (p : Nat) (k : Kernel) (fargs : CStr) : Prop :=
  (k.paging.pageDirTable p 31).present = false ∧ strlen fargs ≤ 100 ∧
    (strlen fargs = 100 ∨ get k.mem (getPcb p) .vidmap = 0)

/-- The clock's fields of a PCB. -/
def ClockField (g : PcbField) : Prop := g = .rtc ∨ g = .rtcFd ∨ g = .rtcRate

variable {P : Platform} {k k' : Kernel} {c : CStr} {f : Frame} {p : Nat} {parse : Parse}

/-- A successful execute of a live process, in a reachable state. -/
structure Starts (P : Platform) (k : Kernel) (c : CStr) (f : Frame) (p : Nat) (parse : Parse)
    (k' : Kernel) : Prop where
  reachable : Reachable P k
  live : k.pidUsage k.running ≠ 0
  on : f.On k
  parsed : parseCommand c f = some parse
  inBounds : parse.inBounds = true
  exec : P.syscallExecute k (some c) f = some (.entered p, k')

theorem get_vidmap (m : Mem) (pcb : Nat) : get m pcb .vidmap = (m (pcb + 146 + 100)).toNat := by
  simp [get, load, PcbField.offset, PcbField.size]

namespace Starts

variable (h : Starts P k c f p parse k')
include h

theorem short : strlen parse.fargs < 0x1000 := by
  have fit := (unreached_of_inBounds h.parsed h.inBounds (.inl rfl)).1
  rwa [length_strcpyBytes] at fit

/-- The state a start leaves, on the fields its arguments do not reach. -/
theorem started : ∃ r, k.curr = getPcb r ∧ r < 16 ∧ r ≠ p ∧
    Started P (Unreached (strcpyBytes parse.fargs)) k r p (getPcb r) (k.field .term) f k' := by
  obtain ⟨G, r, sound, on⟩ := h.reachable.sound
  have lt := (sound.range r on.mem).2
  have live := h.live
  rw [Kernel.running_eq lt on.curr] at live
  rcases syscallExecute_cases (Unreached (strcpyBytes parse.fargs)) lt on.curr live
    (unreached_of_inBounds h.parsed h.inBounds (.inr (.inl rfl)))
    (fun c' parse' given parsed g known => by
      cases given
      cases parsed.symm.trans h.parsed
      exact known) h.exec with ⟨returned, -⟩ | ⟨pid, entered, started, -, -⟩
  · cases returned
  · cases entered
    exact ⟨r, on.curr, lt, fun same => live (same ▸ started.new.free), started⟩

theorem range : 1 ≤ p ∧ p < 16 := by
  obtain ⟨r, -, -, -, started⟩ := h.started
  exact ⟨started.new.pos, started.new.lt⟩

theorem paging : k'.paging = k.paging.allocate P.pages p := by
  obtain ⟨r, -, -, -, started⟩ := h.started
  exact started.paging

/-- A field that nothing assigns keeps its value, unless the arguments reach it. -/
theorem kept {g : PcbField} (field : g = .vidmap ∨ g = .rtc ∨ g = .rtcFd ∨ g = .rtcRate)
    (unreached : Unreached (strcpyBytes parse.fargs) g) :
    get k'.mem (getPcb p) g = get k.mem (getPcb p) g := by
  obtain ⟨r, -, -, ne, started⟩ := h.started
  rw [started.fields p started.new.lt g unreached, if_neg fun own => ne own.1,
    if_neg fun own => ne own.1, if_pos rfl, assigned_newPcb_kept _ field]

theorem clock {g : PcbField} (field : ClockField g) (fits : strlen parse.fargs ≤ 100) :
    get k'.mem (getPcb p) g = get k.mem (getPcb p) g := by
  refine h.kept (.inr field) ?_
  rw [Unreached, length_strcpyBytes]
  refine ⟨by omega, .inr ?_⟩
  rcases field with rfl | rfl | rfl <;> simp only [PcbField.offset] <;> omega

theorem vidmap_byte (reached : 100 ≤ strlen parse.fargs) :
    get k'.mem (getPcb p) .vidmap = ((strcpyBytes parse.fargs).getD 100 0).toNat := by
  obtain ⟨r, here, lt, -, -⟩ := h.started
  have short := h.short
  rw [get_vidmap, syscallExecute_args lt here h.parsed (by rw [length_strcpyBytes]; omega) h.exec
    (by rw [length_strcpyBytes]; omega)]

/-- When a new process has no screen. -/
theorem noScreen_iff : NoScreen p k' ↔ ScreenSafe p k parse.fargs := by
  have entry : (k'.paging.pageDirTable p 31).present = (k.paging.pageDirTable p 31).present := by
    rw [h.paging, Paging.allocate_apply h.range.2]
    simp
  unfold NoScreen ScreenSafe
  rw [entry]
  refine and_congr_right fun _ => ?_
  rcases Nat.lt_trichotomy (strlen parse.fargs) 100 with below | same | above
  · have kept := h.kept (.inl rfl) (unreached_of_fit (by rw [length_strcpyBytes]; omega) .vidmap)
    rw [kept]
    exact ⟨fun zero => ⟨by omega, .inr zero⟩, fun ⟨_, zero⟩ => zero.resolve_left (by omega)⟩
  · have zero : get k'.mem (getPcb p) .vidmap = 0 := by
      have last := getD_strcpyBytes_strlen parse.fargs
      rw [same] at last
      rw [h.vidmap_byte (by omega), last]
      rfl
    exact ⟨fun _ => ⟨by omega, .inl same⟩, fun _ => zero⟩
  · -- the byte after `args` is a character of the arguments
    have nonzero : get k'.mem (getPcb p) .vidmap ≠ 0 := by
      rw [h.vidmap_byte (by omega), getD_strcpyBytes_of_lt above]
      intro zero
      have stop : parse.fargs 100 = 0 := UInt8.toNat_inj.mp zero
      have := strlen_le stop
      omega
    exact ⟨fun zero => absurd zero nonzero, fun ⟨fits, _⟩ => by omega⟩

end Starts

/-! ### Two starts -/

/-- Two states show the owner of `p` the same memory, clock and screen flag. -/
def SameStart (P : Platform) (p : Nat) (k₁ k₂ : Kernel) : Prop :=
  (∀ va, k₁.paging.walk P.pages P.otherTables true p va =
    k₂.paging.walk P.pages P.otherTables true p va) ∧
  get k₁.mem (getPcb p) .vidmap = get k₂.mem (getPcb p) .vidmap ∧
  ∀ g, ClockField g → get k₁.mem (getPcb p) g = get k₂.mem (getPcb p) g

/-- **Pids that are used again.** Two histories that start the same command on `p` give it
the same mapping and PCB, with no screen, iff the previous owners left no screen and the
same clock fields. -/
theorem pid_reuse_independent {k₁ k₂ k₁' k₂' : Kernel} {f₁ f₂ : Frame} {parse₁ parse₂ : Parse}
    (one : Starts P k₁ c f₁ p parse₁ k₁') (two : Starts P k₂ c f₂ p parse₂ k₂') :
    (SameStart P p k₁' k₂' ∧ NoScreen p k₁' ∧ NoScreen p k₂') ↔
      ScreenSafe p k₁ parse₁.fargs ∧ ScreenSafe p k₂ parse₂.fargs ∧
        ∀ g, ClockField g → get k₁.mem (getPcb p) g = get k₂.mem (getPcb p) g := by
  constructor
  · rintro ⟨⟨-, -, clock⟩, none₁, none₂⟩
    have safe₁ := one.noScreen_iff.mp none₁
    have safe₂ := two.noScreen_iff.mp none₂
    refine ⟨safe₁, safe₂, fun g field => ?_⟩
    rw [← one.clock field safe₁.2.1, ← two.clock field safe₂.2.1]
    exact clock g field
  · rintro ⟨safe₁, safe₂, clock⟩
    have none₁ := one.noScreen_iff.mpr safe₁
    have none₂ := two.noScreen_iff.mpr safe₂
    obtain ⟨G₁, r₁, sound₁, -⟩ := one.reachable.sound
    obtain ⟨G₂, r₂, sound₂, -⟩ := two.reachable.sound
    refine ⟨⟨fun va => ?_, none₁.2.trans none₂.2.symm, fun g field => ?_⟩, none₁, none₂⟩
    · rw [one.paging, two.paging]
      exact Paging.walk_allocate_congr sound₁.regular sound₂.regular
        (sound₁.userTable.trans sound₂.userTable.symm) one.range.1 one.range.2 safe₁.1 safe₂.1 _ va
    · rw [one.clock field safe₁.2.1, two.clock field safe₂.2.1]
      exact clock g field

/-! ### Two histories of the sample system -/

/-- The program started by the first shell halts, and the shell runs again. -/
def sampleReturned : Kernel :=
  sampleExecuted.after Platform.sample (.halt 0 (fun _ => .sample) (.sample 2))

/-- The same program, but it asks for the screen first. -/
def sampleMapped : Kernel := sampleExecuted.after Platform.sample (.vidmap 0x8048000)

def sampleMappedReturned : Kernel :=
  sampleMapped.after Platform.sample (.halt 0 (fun _ => .sample) (.sample 2))

theorem harmless_sample : Unspecified.sample.Harmless := by
  refine ⟨.inr fun q lt => .inl ?_, fun q lt => .inl ?_⟩ <;> rw [getPcb_eq lt] <;>
    simp only [Unspecified.sample] <;> omega

theorem inBounds_sample (p : Nat) : InBounds (some shellCommand) (.sample p) := by
  have ends : (parseCommand shellCommand (.sample 0)).map (·.inBounds) = some true := by
    decide +kernel
  intro c parse given parsed
  cases given
  have parsed' : parseCommand shellCommand (.sample 0) = some parse := parsed
  rw [parsed'] at ends
  exact Option.some.inj ends

theorem Reachable.sampleExecuted : Reachable Platform.sample Linux391.sampleExecuted :=
  Reachable.sampleBoot.after _ (.entered 2)
    ⟨by decide +kernel, by decide +kernel, inBounds_sample 1⟩ (by decide +kernel)

theorem Reachable.sampleReturned : Reachable Platform.sample Linux391.sampleReturned :=
  Reachable.sampleExecuted.after _ (.resumed 0)
    ⟨by decide +kernel, by decide +kernel, fun _ => harmless_sample⟩ (by decide +kernel)

theorem Reachable.sampleMapped : Reachable Platform.sample Linux391.sampleMapped := by
  have live : Linux391.sampleExecuted.pidUsage Linux391.sampleExecuted.running ≠ 0 := by
    decide +kernel
  exact Reachable.sampleExecuted.after _
    (.returned (int32 (0x80000000 - 0x400000 + 0xB8 * 0x1000))) live (by decide +kernel)

theorem Reachable.sampleMappedReturned :
    Reachable Platform.sample Linux391.sampleMappedReturned :=
  Reachable.sampleMapped.after _ (.resumed 0)
    ⟨by decide +kernel, by decide +kernel, fun _ => harmless_sample⟩ (by decide +kernel)

/-- The first shell starts a program on pid 2. -/
theorem starts_sample {k : Kernel} (reachable : Reachable Platform.sample k)
    (live : k.pidUsage k.running ≠ 0) (on : (Frame.sample 1).On k)
    (ends : (Platform.sample.step k (.execute (some shellCommand) (.sample 1))).map (·.1) =
      some (.entered 2)) :
    ∃ parse, strlen parse.fargs < 100 ∧ Starts Platform.sample k shellCommand (.sample 1) 2 parse
      (k.after Platform.sample (.execute (some shellCommand) (.sample 1))) := by
  obtain ⟨parse, -, parsed, -⟩ := loads_sample 1
  refine ⟨parse, argsFit_shell _ _ parse rfl parsed, ?_⟩
  exact ⟨reachable, live, on, parsed, inBounds_sample 1 _ parse rfl parsed, step_after ends⟩

/-- A pid used once before by a program that never asked for the screen is as good as new. -/
theorem pid_reuse_independent_sample :
    SameStart Platform.sample 2
      (Kernel.sampleBoot.after Platform.sample (.execute (some shellCommand) (.sample 1)))
      (sampleReturned.after Platform.sample (.execute (some shellCommand) (.sample 1))) := by
  obtain ⟨parse₁, short₁, one⟩ := starts_sample Reachable.sampleBoot (by decide +kernel)
    (by decide +kernel) (by decide +kernel)
  obtain ⟨parse₂, short₂, two⟩ := starts_sample Reachable.sampleReturned (by decide +kernel)
    (by decide +kernel) (by decide +kernel)
  refine ((pid_reuse_independent one two).mpr
    ⟨⟨by decide +kernel, by omega, .inr (by decide +kernel)⟩,
      ⟨by decide +kernel, by omega, .inr (by decide +kernel)⟩, fun g field => ?_⟩).1
  rcases field with rfl | rfl | rfl <;> decide +kernel

/-- After a program that did ask for it, the next one on pid 2 starts with the screen
mapped for users and its `vidmap` set. -/
theorem pid_reuse_inherits_screen :
    Reachable Platform.sample Kernel.sampleBoot ∧ Reachable Platform.sample sampleMappedReturned ∧
    Kernel.sampleBoot.running = 1 ∧ sampleMappedReturned.running = 1 ∧
    let fresh := Kernel.sampleBoot.after Platform.sample
      (.execute (some shellCommand) (.sample 1))
    let reused := sampleMappedReturned.after Platform.sample
      (.execute (some shellCommand) (.sample 1))
    fresh.running = 2 ∧ reused.running = 2 ∧
    get fresh.mem (getPcb 2) .vidmap = 0 ∧ get reused.mem (getPcb 2) .vidmap = 1 ∧
    fresh.paging.walk Platform.sample.pages Platform.sample.otherTables true 2 0x7CB8000 = none ∧
    reused.paging.walk Platform.sample.pages Platform.sample.otherTables true 2 0x7CB8000 =
      some 0xB8000 := by
  refine ⟨Reachable.sampleBoot, Reachable.sampleMappedReturned, ?_⟩
  decide +kernel

end Linux391
