import Linux391.Kernel.VideoMapping

/-!
Where `vidmap` stores.

`syscall_vidmap` stores the address of the screen through the pointer it is given, in kernel
mode, and checks of that pointer only that it is not below the end of kernel memory. Above
it two regions are mapped for the process: its program image, and the page of the screen
that the call has just mapped. `vidmap_store_iff` says that the call is safe for pointers
into these two, and for those it refuses.
-/

namespace Linux391

open Memory Platform

namespace Paging

variable {L : PageLayout} {T : Paging} {pid : Nat}

/-- The directory of `pid` maps an address present, writable and user-accessible. -/
def UserWritable (L : PageLayout) (T : Paging) (other : Nat → Nat → Pte) (pid va : Nat) : Prop :=
  let pde := T.pageDirTable pid (va / 2 ^ 22)
  let pte := T.tableAt L other pde.pageTableAddr (va / 4096 % 1024)
  (pde.present = true ∧ pde.readWrite = true ∧ pde.userSupervisor = true) ∧
    (pde.pageSize = true ∨
      pte.present = true ∧ pte.readWrite = true ∧ pte.userSupervisor = true)

/-! ### The program image -/

/-- The program image of `pid` is mapped. -/
def HasImage (pid : Nat) (T : Paging) : Prop := (T.pageDirTable pid 32).present = true

/-- Nothing takes an image away. -/
theorem hasImage_kept (L : PageLayout) (pid : Nat) : Kept L (HasImage pid) where
  allocate {T p} lt image := by
    simp only [HasImage, allocate, Nat.not_le.mpr lt, if_false, setPde_apply] at image ⊢
    split_ifs <;> simp_all
  mapVideo {T p} lt image := by
    simp only [HasImage, mapVideo, Nat.not_le.mpr lt, if_false, setPde_apply] at image ⊢
    split_ifs <;> simp_all [setVideoPage]
  updateVideo {T} p addr image := image

theorem hasImage_allocate (T : Paging) (lt : pid < 16) : HasImage pid (T.allocate L pid) := by
  simp [HasImage, allocate, Nat.not_le.mpr lt, setPde_apply]

/-! ### What is mapped above the kernel -/

/-- The video page table that `paging_map_video` fills in, and its place in the directory. -/
theorem mapVideo_screen (h : Regular L T) (other : Nat → Nat → Pte) (pos : 1 ≤ pid) (lt : pid < 16) :
    (T.mapVideo L pid).pageDirTable pid 31 =
        ⟨true, true, true, false, L.userVideoPage / 4096 + pid⟩ ∧
      (T.mapVideo L pid).tableAt L other (L.userVideoPage / 4096 + pid) = fun i =>
        if i = 0xB8 then ⟨true, true, true, 0xB8⟩ else ⟨false, true, false, 0⟩ := by
  have present : ((T.mapVideo L pid).pageDirTable pid 31).present = true := by
    simp [mapVideo, Nat.not_le.mpr lt, setPde_apply]
  constructor
  · exact (Option.some.inj ((h.mapVideo lt).directory pid 31 pos lt present)).symm
  · rw [tableAt_video _ other lt]
    simp [mapVideo, Nat.not_le.mpr lt, setPde, setVideoPage]

/-- The addresses above kernel memory that a process may write once its screen is mapped. -/
theorem userWritable_mapVideo (h : Regular L T) (other : Nat → Nat → Pte) (pos : 1 ≤ pid)
    (lt : pid < 16) (image : HasImage pid T) (va : Nat) (above : 0x800000 ≤ va) :
    UserWritable L (T.mapVideo L pid) other pid va ↔
      0x7CB8000 ≤ va ∧ va < 0x7CB9000 ∨ 0x8000000 ≤ va ∧ va < 0x8400000 := by
  have directory := (h.mapVideo lt).directory pid (va / 2 ^ 22) pos lt
  unfold UserWritable
  by_cases screen : va / 2 ^ 22 = 31
  · obtain ⟨pde, table⟩ := mapVideo_screen h other pos lt
    simp only [screen, pde, table, and_self, true_and, Bool.false_eq_true, false_or]
    split_ifs with page
    · refine iff_of_true ⟨rfl, rfl, rfl⟩ (.inl ?_)
      omega
    · refine iff_of_false (fun never => absurd never.1 (by decide)) ?_
      omega
  by_cases program : va / 2 ^ 22 = 32
  · have kept : HasImage pid (T.mapVideo L pid) := (hasImage_kept L pid).mapVideo lt image
    rw [program] at directory ⊢
    have pde : (T.mapVideo L pid).pageDirTable pid 32 = ⟨true, true, true, true, (pid + 1) * 1024⟩ :=
      (Option.some.inj (directory kept)).symm
    simp only [pde, and_self, true_or, true_iff]
    omega
  · -- no other entry of the directory can be present
    have absent : allowed L pid (va / 2 ^ 22) = none := by
      rw [allowed, if_neg (by omega), if_neg (by omega), if_neg screen, if_neg program]
    refine iff_of_false (fun mapped => ?_) (by omega)
    have entry := directory mapped.1.1
    rw [absent] at entry
    cases entry

end Paging

section Events

variable {P : Platform} {k k' : Kernel} {r r' p : Nat} {e : Event} {outcome : Outcome}

/-- A program that was entered has its image. -/
theorem Effect.hasImage (effect : Effect P k r e (.entered p) r' k') :
    Paging.HasImage p k'.paging := by
  cases effect with
  | child _ _ started _ =>
      rw [started.paging]
      exact Paging.hasImage_allocate _ started.new.lt
  | shell _ _ _ started _ =>
      rw [started.paging]
      exact Paging.hasImage_allocate _ started.new.lt

/-- The running process of a reachable state has its image. -/
theorem Reachable.running_hasImage (reachable : Reachable P k) :
    ∃ r, 1 ≤ r ∧ r < 16 ∧ k.curr = getPcb r ∧ Paging.Regular P.pages k.paging ∧
      k.field .pid = r ∧ Paging.HasImage r k.paging := by
  suffices ∃ G r, Sound P G k ∧ Sound.On G r k ∧ ∀ p, G p → Paging.HasImage p k.paging by
    obtain ⟨G, r, h, on, images⟩ := this
    have range := h.range r on.mem
    exact ⟨r, range.1, range.2, on.curr, h.regular, on.field h, images r on.mem⟩
  induction reachable with
  | @boot start k f pid here on init =>
      obtain ⟨started, sched⟩ := booted_started here init
      obtain ⟨h, on'⟩ := (sound_boot P start).started here on started (.inl rfl) (by
        intro p _ other runnable
        rwa [sched, Function.update_of_ne other] at runnable)
      refine ⟨_, pid, h, on', ?_⟩
      rintro p (rfl | never)
      · rw [started.paging]
        exact Paging.hasImage_allocate _ started.new.lt
      · exact never.elim
  | step _ defined step ih =>
      obtain ⟨G, r, h, on, images⟩ := ih
      obtain ⟨r', effect⟩ := h.effect on defined step
      obtain ⟨G', h', on', grown⟩ := effect.sound_grown h on
      refine ⟨G', r', h', on', fun p mem => ?_⟩
      rcases grown p mem with rfl | old
      · exact effect.hasImage
      · exact effect.paging (Paging.hasImage_kept _ p) (h.range r on.mem).2 (images p old)

/-- The call that is not refused does not return -1. -/
theorem syscallVidmap_accepted {screenStart : Nat} (above : ¬ screenStart < 0x800000)
    (lt : k.field .pid < 16) :
    P.syscallVidmap k screenStart ≠ some (.returned (-1), k) := by
  intro refused
  simp only [syscallVidmap, if_neg (not_or.mpr ⟨above, Nat.not_le.mpr lt⟩)] at refused
  obtain ⟨k₁, -, eq⟩ := Option.bind_eq_some_iff.mp refused
  have value := (Prod.mk.inj (Option.some.inj eq)).1
  exact absurd value (by decide)

/-- **Stores of vidmap.** For every reachable state and every 32-bit pointer, `vidmap` returns
-1 with nothing changed, or the four bytes it stores are at addresses that the process may
write itself, exactly if the pointer is below the end of kernel memory, or all four bytes
are in the page of the screen, or all four are in the program image. -/
theorem vidmap_store_iff (reachable : Reachable P k) {screenStart : Nat}
    (small : screenStart < 2 ^ 32) :
    (P.syscallVidmap k screenStart = some (.returned (-1), k) ∨
        ∀ i < 4, Paging.UserWritable P.pages (k.paging.mapVideo P.pages k.running) P.otherTables
          k.running ((screenStart + i) % 2 ^ 32)) ↔
      screenStart < 0x800000 ∨ 0x7CB8000 ≤ screenStart ∧ screenStart ≤ 0x7CB8FFC ∨
        0x8000000 ≤ screenStart ∧ screenStart ≤ 0x83FFFFC := by
  obtain ⟨r, pos, lt, here, regular, pid, image⟩ := reachable.running_hasImage
  rw [Kernel.running_eq lt here]
  by_cases below : screenStart < 0x800000
  · refine iff_of_true (.inl ?_) (.inl below)
    simp only [syscallVidmap, if_pos (Or.inl below)]
  · have writable := Paging.userWritable_mapVideo regular P.otherTables pos lt image
    have accepted := syscallVidmap_accepted (P := P) below (pid ▸ lt)
    simp only [accepted, below, false_or]
    constructor
    · intro all
      have first := all 0 (by decide)
      rw [Nat.add_zero, Nat.mod_eq_of_lt small, writable _ (by omega)] at first
      have last := all 3 (by decide)
      rw [Nat.mod_eq_of_lt (by omega), writable _ (by omega)] at last
      omega
    · intro inside i few
      rw [Nat.mod_eq_of_lt (by omega), writable _ (by omega)]
      omega

end Events

/-- The first shell of the sample system asks for its screen with a pointer into its image. -/
theorem vidmap_store_image :
    Platform.sample.syscallVidmap Kernel.sampleBoot 0x8048000 =
        some (.returned (-1), Kernel.sampleBoot) ∨
      ∀ i < 4, Paging.UserWritable Platform.sample.pages
        (Kernel.sampleBoot.paging.mapVideo Platform.sample.pages Kernel.sampleBoot.running)
        Platform.sample.otherTables Kernel.sampleBoot.running ((0x8048000 + i) % 2 ^ 32) :=
  (vidmap_store_iff Reachable.sampleBoot (by decide)).mpr (by decide)

/-- With a pointer to 16 MB the kernel takes a page fault: the call does not return, and the
address is not the process's to write. -/
theorem vidmap_store_faults :
    Reachable Platform.sample Kernel.sampleBoot ∧
      (Platform.sample.syscallVidmap Kernel.sampleBoot 0x1000000).isNone = true ∧
      ¬ Paging.UserWritable Platform.sample.pages
        (Kernel.sampleBoot.paging.mapVideo Platform.sample.pages Kernel.sampleBoot.running)
        Platform.sample.otherTables Kernel.sampleBoot.running 0x1000000 := by
  refine ⟨Reachable.sampleBoot, by decide +kernel, ?_⟩
  unfold Paging.UserWritable
  decide +kernel

end Linux391
