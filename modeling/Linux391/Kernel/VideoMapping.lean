import Linux391.Drivers.TermInput
import Linux391.Kernel.PidReuse

/-!
The screen of a process that called `vidmap`.

`paging_map_video` maps the page at 0x7CB8000 of a process to video memory, and each
tick that dispatches the process points it at video memory or at the screen buffer of
its terminal (`update_video_paging`). The new page number is masked with 0x3FF, so the
page lies below 4 MB: right for video memory, wrong for every screen buffer, as these
are in the kernel's frame from 4 MB on.
-/

namespace Linux391

open Memory Platform

/-! ### Properties of the tables -/

/-- A property of the tables that survives every change made to them after boot. -/
structure Paging.Kept (L : PageLayout) (I : Paging → Prop) : Prop where
  allocate : ∀ {T : Paging} {pid : Nat}, pid < 16 → I T → I (T.allocate L pid)
  mapVideo : ∀ {T : Paging} {pid : Nat}, pid < 16 → I T → I (T.mapVideo L pid)
  updateVideo : ∀ {T : Paging} (pid addr : Nat), I T → I (T.updateVideo pid addr)

/-- A property of the tables that all of their operations keep. -/
structure Paging.Invariant (L : PageLayout) (I : Paging → Prop) : Prop
    extends Paging.Kept L I where
  init : I (Paging.init L Paging.zero)

section Events

variable {P : Platform} {k k' : Kernel} {r r' : Nat} {e : Event} {outcome : Outcome}
  {I : Paging → Prop}

theorem Platform.LoadFailed.paging (failed : LoadFailed P k k') (inv : Paging.Kept P.pages I)
    (holds : I k.paging) : I k'.paging := by
  obtain ⟨_, _, _, rfl, rfl | ⟨pid, new, rfl⟩⟩ := failed.unchanged
  · exact holds
  · exact inv.allocate new.lt holds

theorem Effect.paging (effect : Effect P k r e outcome r' k') (inv : Paging.Kept P.pages I)
    (lt : r < 16) (holds : I k.paging) : I k'.paging := by
  cases effect with
  | kept same => rwa [same.paging]
  | mapped same =>
      rw [same.paging]
      exact inv.mapVideo lt holds
  | switched _ _ switched =>
      rcases switched.paging with same | ⟨addr, eq⟩
      · rwa [same]
      · rw [eq]
        exact inv.updateVideo _ addr holds
  | failed ready failed =>
      apply failed.paging inv
      rwa [ready.paging]
  | child _ _ started _ =>
      rw [started.paging]
      exact inv.allocate started.new.lt holds
  | shell _ _ ready started _ =>
      rw [started.paging, ready.paging]
      exact inv.allocate started.new.lt holds
  | resumed _ _ same _ resumed => rwa [resumed.paging, same.paging]

/-- Such a property holds in every reachable state of the kernel. -/
theorem Reachable.paging (inv : Paging.Invariant P.pages I) (reachable : Reachable P k) :
    I k.paging := by
  apply Reachable.invariant (I := fun k => I k.paging) ?_ ?_ reachable
  · intro start k f pid started _
    rw [started.paging]
    exact inv.allocate started.new.lt inv.init
  · intro G k k' r r' e outcome h on effect holds
    exact effect.paging inv.toKept (h.range r on.mem).2 holds

end Events

/-! ### The page at 0x7CB8000 -/

namespace Paging

variable {L : PageLayout} {T : Paging} {pid : Nat}

/-- A directory with the video page table in it can use the table's one entry. -/
def ScreenReady (T : Paging) : Prop :=
  ∀ pid, (T.pageDirTable pid 31).present = true →
    (T.userVideoPage pid 0xB8).present = true ∧ (T.userVideoPage pid 0xB8).userSupervisor = true

theorem updateVideo_entry (T : Paging) (pid addr p : Nat) :
    (T.updateVideo pid addr).userVideoPage p 0xB8 =
      if p = pid then
        { T.userVideoPage p 0xB8 with physicalPageAddr := field20 (addr / 4096 &&& 0x3FF) }
      else T.userVideoPage p 0xB8 := by
  simp only [updateVideo, setVideoPage]
  split_ifs with own
  · subst own
    rw [Function.update_self, Function.update_self]
  · rw [Function.update_of_ne own]

theorem screenReady_invariant (L : PageLayout) : Invariant L ScreenReady where
  init pid present := by
    by_cases first : pid = 0
    · subst first
      simp [init, kernelPde] at present
    · simp [init, zero, first] at present
  allocate {T pid} lt ready p present := by
    simp only [allocate, Nat.not_le.mpr lt, if_false] at present ⊢
    simp only [setPde_apply, Nat.reduceEqDiff, and_false, if_false] at present
    exact ready p present
  mapVideo {T pid} lt ready p present := by
    simp only [mapVideo, Nat.not_le.mpr lt, if_false] at present ⊢
    by_cases own : p = pid
    · subst own
      simp [setVideoPage, setPde]
    · rw [setPde_apply, if_neg fun here => own here.1] at present
      simp only [setVideoPage, setPde, Function.update_of_ne own]
      exact ready p present
  updateVideo {T} pid addr ready p present := by
    rw [updateVideo_entry]
    split_ifs
    · exact ready p present
    · exact ready p present

/-- The walk of the page, once `vidmap` has put the table in place. -/
theorem walk_screen (h : Regular L T) (ready : T.ScreenReady) (other : Nat → Nat → Pte)
    (pos : 1 ≤ pid) (lt : pid < 16) :
    T.walk L other true pid 0x7CB8000 =
      if (T.pageDirTable pid 31).present = true then
        some ((T.userVideoPage pid 0xB8).physicalPageAddr * 4096)
      else none := by
  split_ifs with present
  · have entry : allowed L pid 31 = some (T.pageDirTable pid 31) :=
      h.directory pid 31 pos lt present
    have table : T.pageDirTable pid 31 = ⟨true, true, true, false, L.userVideoPage / 4096 + pid⟩ :=
      (Option.some.inj entry).symm
    obtain ⟨mapped, user⟩ := ready pid present
    simp [walk, table, tableAt_video T other lt, mapped, user]
  · simp [walk, present]

/-- Pointing one page elsewhere leaves those of other processes. -/
theorem walk_screen_other {p : Nat} (h : Regular L T) (ready : T.ScreenReady)
    (other : Nat → Nat → Pte) (pos : 1 ≤ p) (lt : p < 16) (ne : p ≠ pid) (addr : Nat) :
    (T.updateVideo pid addr).walk L other true p 0x7CB8000 =
      T.walk L other true p 0x7CB8000 := by
  have ready' := (screenReady_invariant L).updateVideo pid addr ready
  rw [walk_screen (h.updateVideo addr) ready' other pos lt, walk_screen h ready other pos lt,
    updateVideo_entry, if_neg ne]
  rfl

/-- The mask makes the page one of the first 4 MB. -/
theorem masked_page (addr : Nat) :
    field20 (addr / 4096 &&& 0x3FF) = addr / 4096 % 1024 := by
  have mask : addr / 4096 &&& 0x3FF = addr / 4096 % 2 ^ 10 := Nat.and_two_pow_sub_one_eq_mod _ 10
  rw [mask, field20_of_lt (by omega)]
  rfl

end Paging

/-! ### The tick -/

section Tick

variable {P : Platform} {k : Kernel} {q : Nat} (esp ebp : Nat)

/-- The tick that dispatches a process with `vidmap` set points its page at the screen of
its terminal. -/
theorem schedulerTick_paging {r : Nat} (ltr : r < 16) (ltq : q < 16) (here : k.curr = getPcb r)
    (picked : Kernel.nextPid k.sched (k.field .pid) = some q)
    (pid : get k.mem (getPcb q) .pid = q) (vidmap : get k.mem (getPcb q) .vidmap = 1) :
    (k.schedulerTick P esp ebp).paging =
      k.paging.updateVideo q (k.screenOf P (get k.mem (getPcb q) .term)) := by
  have saved : ∀ g, g ≠ .espReg → g ≠ .ebpReg →
      get (k.saveRegs esp ebp).mem (getPcb q) g = get k.mem (getPcb q) g := by
    intro g notEsp notEbp
    simp only [Kernel.saveRegs, Kernel.setField, Kernel.withMem_mem, Kernel.withMem_curr, here]
    rw [get_set_other ltr ltq (.inr (Ne.symm notEsp)),
      get_set_other ltr ltq (.inr (Ne.symm notEbp))]
  have pid' := (saved .pid (by simp) (by simp)).trans pid
  have vidmap' := (saved .vidmap (by simp) (by simp)).trans vidmap
  have term' := saved .term (by simp) (by simp)
  simp only [Kernel.schedulerTick, picked, Kernel.pagingUpdateControl, ltq, if_true, Kernel.setTss,
    pid', vidmap', term', Kernel.updateVideoPaging, Kernel.loadRegs]
  rfl

/-- Where the page of a dispatched process leads: to the first 4 MB, if anywhere. -/
theorem walk_screen_tick (reachable : Reachable P k)
    (picked : Kernel.nextPid k.sched (k.field .pid) = some q)
    (vidmap : get k.mem (getPcb q) .vidmap = 1) :
    (k.schedulerTick P esp ebp).paging.walk P.pages P.otherTables true q 0x7CB8000 =
      if (k.paging.pageDirTable q 31).present = true then
        some (k.screenOf P (get k.mem (getPcb q) .term) / 4096 % 1024 * 4096)
      else none := by
  obtain ⟨G, r, h, on⟩ := reachable.sound
  have mem : G q := h.nextPid_mem on picked
  have range := h.range q mem
  have ready := reachable.paging (Paging.screenReady_invariant P.pages)
  rw [schedulerTick_paging _ _ (h.range r on.mem).2 range.2 on.curr picked (h.pid q mem) vidmap]
  have updated := Paging.walk_screen (h.regular.updateVideo _)
    ((Paging.screenReady_invariant P.pages).updateVideo q
      (k.screenOf P (get k.mem (getPcb q) .term)) ready) P.otherTables range.1 range.2
  rw [updated, Paging.updateVideo_entry, if_pos rfl, Paging.masked_page]
  rfl

theorem screenOf_terminal (P : Platform) (k : Kernel) (t : Fin 4) :
    k.screenOf P t.val =
      if t = k.terms.activeTerm then 0xB8000 else P.screenBuffers + 4000 * t.val := by
  have small : t.val % 256 = t.val := Nat.mod_eq_of_lt (by omega)
  have found : Kernel.terminal t.val = some t := by simp [Kernel.terminal]
  simp only [Kernel.screenOf, small, found, Option.some.injEq]

/-- **The screen of a dispatched process.** When a tick dispatches a process with `vidmap`
set, its page at 0x7CB8000 is video memory if its terminal is the active one. A process
of another terminal never gets the screen buffer of that terminal, wherever in the
kernel's frame the buffers are. -/
theorem vidmapped_screen (reachable : Reachable P k)
    (picked : Kernel.nextPid k.sched (k.field .pid) = some q)
    (vidmap : get k.mem (getPcb q) .vidmap = 1) (t : Fin 4)
    (term : get k.mem (getPcb q) .term = t.val)
    (inside : 0x400000 ≤ P.screenBuffers ∧ P.screenBuffers + 4 * 4000 ≤ 0x800000) :
    (k.schedulerTick P esp ebp).paging.walk P.pages P.otherTables true q 0x7CB8000 =
        some (if t = k.terms.activeTerm then 0xB8000 else P.screenBuffers + 4000 * t.val) ↔
      t = k.terms.activeTerm ∧ (k.paging.pageDirTable q 31).present = true := by
  rw [walk_screen_tick esp ebp reachable picked vidmap, term, screenOf_terminal]
  split_ifs with present active
  · simp [active, present]
  · simp only [active, false_and, iff_false, Option.some.injEq]
    omega
  · simp [present]

end Tick

/-! ### Which terminal is active -/

theorem Terms.activeTerm_terminalOpen (s : Terms) (t : Fin 4) :
    (s.terminalOpen t).activeTerm = s.activeTerm := by
  by_cases unused : (s.input t).usrCount = 0
  · exact (setsInput_terminalOpen s t unused).active_eq
  · have again : (s.term t).usrCount ≠ 0 := unused
    simp [Terms.terminalOpen, again]

/-- Alt+Fn makes its terminal the active one, whether or not a shell starts there. -/
theorem altFn_activeTerm {P : Platform} {k k' : Kernel} {r : Nat} {t : Fin 4} {f : Frame}
    {outcome : Outcome} (ltr : r < 16) (here : k.curr = getPcb r)
    (step : P.altFn k t f = some (outcome, k')) : k'.terms.activeTerm = t := by
  have switched := (Terms.switches_terminalSwitch k.terms t).active_eq
  simp only [Platform.altFn] at step
  split_ifs at step
  · cases step
    exact switched
  · have here' : Kernel.curr { k with
        terms := k.terms.terminalSwitch t
        shellActive := Function.update k.shellActive t 1 } = getPcb r := here
    rcases syscallInitShell_cases Identity ltr here' (by simp [Identity])
      (fun _ parsed g _ => unreached_of_fit (shell_args_fit parsed) g) step with
      ⟨-, failed, -⟩ | ⟨_, t', -, -, -, -, -, terms⟩
    · obtain ⟨_, _, _, rfl, -⟩ := failed.unchanged
      exact switched
    · rw [terms, Terms.activeTerm_terminalOpen]
      exact switched

/-! ### Screens of the sample system -/

/-- Alt+F1 with the program of the first shell running. -/
def sampleShown : Kernel := sampleMapped.after Platform.sample (.altFn ⟨0, by decide⟩ (.sample 2))

/-- A second shell, on terminal 1, asks for the screen too. -/
def sampleTwoScreens : Kernel :=
  (sampleMapped.after Platform.sample (.sampleAltF2 2)).after Platform.sample (.vidmap 0x8048000)

/-- A third shell on terminal 2 hides both. -/
def sampleHidden : Kernel :=
  sampleTwoScreens.after Platform.sample (.altFn ⟨2, by decide⟩ (.sample 3))

/-- The tick that dispatches the process of terminal 0. -/
def sampleFirst : Kernel := sampleHidden.after Platform.sample (.tick (.sample 4))

/-- The state after an Alt+Fn that ends has its terminal active. -/
theorem activeTerm_after {P : Platform} {k : Kernel} {t : Fin 4} {f : Frame} {outcome : Outcome}
    (reachable : Reachable P k) (ends : (P.step k (.altFn t f)).map (·.1) = some outcome) :
    (k.after P (.altFn t f)).terms.activeTerm = t := by
  obtain ⟨G, r, h, on⟩ := reachable.sound
  exact altFn_activeTerm (h.range r on.mem).2 on.curr (step_after ends)

theorem sampleShown_ends :
    (Platform.sample.step sampleMapped (.altFn ⟨0, by decide⟩ (.sample 2))).map (·.1) =
      some (.returned 0) := by
  decide +kernel

theorem Reachable.sampleShown : Reachable Platform.sample Linux391.sampleShown := by
  have on : (Frame.sample 2).On Linux391.sampleMapped := by decide +kernel
  exact Reachable.sampleMapped.after _ _ on sampleShown_ends

/-- A process of the active terminal is given video memory. -/
theorem vidmapped_screen_active :
    (sampleShown.schedulerTick Platform.sample (kernelStack 2) (kernelStack 2)).paging.walk
      Platform.sample.pages Platform.sample.otherTables true 2 0x7CB8000 = some 0xB8000 := by
  have active : ⟨0, by decide⟩ = sampleShown.terms.activeTerm :=
    (activeTerm_after Reachable.sampleMapped sampleShown_ends).symm
  have screen := vidmapped_screen (q := 2) (kernelStack 2) (kernelStack 2) Reachable.sampleShown
    (by decide +kernel) (by decide +kernel) ⟨0, by decide⟩ (by decide +kernel) (by decide)
  rw [if_pos active] at screen
  exact screen.mpr ⟨active, by decide +kernel⟩

theorem Reachable.sampleTwoScreens : Reachable Platform.sample Linux391.sampleTwoScreens := by
  have on : (Frame.sample 2).On Linux391.sampleMapped := by decide +kernel
  have opened : Reachable Platform.sample
      (Kernel.after Platform.sample Linux391.sampleMapped (.sampleAltF2 2)) :=
    Reachable.sampleMapped.after _ (.entered 3) on (by decide +kernel)
  have live : (Kernel.after Platform.sample Linux391.sampleMapped (.sampleAltF2 2)).pidUsage
      (Kernel.after Platform.sample Linux391.sampleMapped (.sampleAltF2 2)).running ≠ 0 := by
    decide +kernel
  exact opened.after _ (.returned (int32 (0x80000000 - 0x400000 + 0xB8 * 0x1000))) live
    (by decide +kernel)

theorem sampleHidden_ends :
    (Platform.sample.step sampleTwoScreens (.altFn ⟨2, by decide⟩ (.sample 3))).map (·.1) =
      some (.entered 4) := by
  decide +kernel

theorem Reachable.sampleHidden : Reachable Platform.sample Linux391.sampleHidden := by
  have on : (Frame.sample 3).On Linux391.sampleTwoScreens := by decide +kernel
  exact Reachable.sampleTwoScreens.after _ _ on sampleHidden_ends

theorem after_tick (P : Platform) (k : Kernel) (f : Frame) :
    k.after P (.tick f) = k.schedulerTick P f.esp f.ebp := rfl

theorem Reachable.sampleFirst : Reachable Platform.sample Linux391.sampleFirst := by
  have on : (Frame.sample 4).On Linux391.sampleHidden := by decide +kernel
  exact Reachable.sampleHidden.after _ (.returned 0) on rfl

/-- With terminal 2 active, the processes of terminals 0 and 1 are both given the page at
0x40000 when they are dispatched: the screen buffer of neither, in low memory, and
shared by the two. -/
theorem background_screens_shared :
    Reachable Platform.sample sampleHidden ∧ Reachable Platform.sample sampleFirst ∧
    Platform.sample.screenBuffers = 0x440000 ∧ sampleHidden.terms.activeTerm = 2 ∧
    Kernel.nextPid sampleHidden.sched (sampleHidden.field .pid) = some 2 ∧
    get sampleHidden.mem (getPcb 2) .vidmap = 1 ∧ get sampleHidden.mem (getPcb 2) .term = 0 ∧
    Kernel.nextPid sampleFirst.sched (sampleFirst.field .pid) = some 3 ∧
    get sampleFirst.mem (getPcb 3) .vidmap = 1 ∧ get sampleFirst.mem (getPcb 3) .term = 1 ∧
    let dispatched := sampleFirst.schedulerTick Platform.sample (kernelStack 2) (kernelStack 2)
    dispatched.paging.walk Platform.sample.pages Platform.sample.otherTables true 2 0x7CB8000 =
        some 0x40000 ∧
      dispatched.paging.walk Platform.sample.pages Platform.sample.otherTables true 3 0x7CB8000 =
        some 0x40000 := by
  have active : sampleHidden.terms.activeTerm = ⟨2, by decide⟩ :=
    activeTerm_after Reachable.sampleTwoScreens sampleHidden_ends
  have state : sampleFirst = sampleHidden.schedulerTick Platform.sample (Frame.sample 4).esp
      (Frame.sample 4).ebp := after_tick _ _ _
  have still : sampleFirst.terms.activeTerm = ⟨2, by decide⟩ := by
    rw [state, (Kernel.schedulerTick_tables _ _ _ _).2, active]
  have buffers : Platform.sample.screenBuffers = 0x440000 := rfl
  -- what the two states hold, each computed once
  obtain ⟨picked, vidmap, term, mapped⟩ :
      Kernel.nextPid sampleHidden.sched (sampleHidden.field .pid) = some 2 ∧
      get sampleHidden.mem (getPcb 2) .vidmap = 1 ∧
      get sampleHidden.mem (getPcb 2) .term = (⟨0, by decide⟩ : Fin 4).val ∧
      (sampleHidden.paging.pageDirTable 2 31).present = true := by decide +kernel
  obtain ⟨pickedNext, vidmapNext, termNext, mappedNext, pid⟩ :
      Kernel.nextPid sampleFirst.sched (sampleFirst.field .pid) = some 3 ∧
      get sampleFirst.mem (getPcb 3) .vidmap = 1 ∧
      get sampleFirst.mem (getPcb 3) .term = (⟨1, by decide⟩ : Fin 4).val ∧
      (sampleFirst.paging.pageDirTable 3 31).present = true ∧
      get sampleFirst.mem (getPcb 3) .pid = 3 := by decide +kernel
  refine ⟨Reachable.sampleHidden, Reachable.sampleFirst, rfl, active, picked, vidmap, term,
    pickedNext, vidmapNext, termNext, ?_, ?_⟩
  · -- the second tick leaves the page of pid 2 where the first one put it
    obtain ⟨G, r, h, on⟩ := Reachable.sampleFirst.sound
    rw [schedulerTick_paging _ _ (h.range r on.mem).2 (by decide) on.curr pickedNext
      pid vidmapNext, Paging.walk_screen_other h.regular
      (Reachable.sampleFirst.paging (Paging.screenReady_invariant _)) _ (by decide) (by decide)
      (by decide)]
    rw [state, walk_screen_tick _ _ Reachable.sampleHidden picked vidmap, if_pos mapped, term,
      screenOf_terminal, if_neg (by rw [active]; decide), buffers]
    rfl
  · rw [walk_screen_tick _ _ Reachable.sampleFirst pickedNext vidmapNext, if_pos mappedNext,
      termNext, screenOf_terminal, if_neg (by rw [still]; decide), buffers]
    rfl

end Linux391
