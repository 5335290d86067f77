import Linux391.Kernel.Paging
import Mathlib.Tactic.Common

/-!
Address-space isolation.

Whatever the order of `paging_allocate`, `paging_map_video` and
`update_video_paging`, an entry of a process's page directory that is present is
the one `allowed` names, and the two kinds of page table map nothing but pages
below 4 MB (`Regular`). A user-mode walk therefore ends below 4 MB or in the
4 MB frame of the pid itself (`walk_frame`), and isolation follows.
-/

namespace Linux391

namespace Paging

/-- The entries a page directory may have present. -/
def allowed (L : PageLayout) (pid i : Nat) : Option Pde :=
  if i = 0 then some ⟨true, true, true, false, L.userPageTable / 4096⟩
  else if i = 1 then some kernelPde
  else if i = 31 then some ⟨true, true, true, false, L.userVideoPage / 4096 + pid⟩
  else if i = 32 then some ⟨true, true, true, true, (pid + 1) * 1024⟩
  else none

/-- The shape the tables always have; directory 0 is the kernel's own and is not used
for processes. -/
structure Regular (L : PageLayout) (P : Paging) : Prop where
  directory : ∀ pid i, 1 ≤ pid → pid < 16 → (P.pageDirTable pid i).present = true →
    allowed L pid i = some (P.pageDirTable pid i)
  userTable : ∀ i, (P.userPageTable i).present = true → (P.userPageTable i).physicalPageAddr = 0xB8
  videoTable : ∀ pid i, (P.userVideoPage pid i).present = true →
    (P.userVideoPage pid i).physicalPageAddr < 0x400

variable {L : PageLayout} {P : Paging} {pid : Nat}

theorem field20_of_lt {v : Nat} (small : v < 2 ^ 20) : field20 v = v := Nat.mod_eq_of_lt small

/-! ### The shape is kept -/

theorem setPde_apply (P : Paging) (pid i : Nat) (e : Pde) (p j : Nat) :
    (P.setPde pid i e).pageDirTable p j = if p = pid ∧ j = i then e else P.pageDirTable p j := by
  simp only [setPde]
  by_cases own : p = pid
  · subst own
    simp [Function.update_apply]
  · simp [own]

theorem Regular.setPde (h : Regular L P) {i : Nat} {e : Pde}
    (entry : 1 ≤ pid → allowed L pid i = some e) : Regular L (P.setPde pid i e) where
  directory p j pos lt present := by
    rw [setPde_apply] at present ⊢
    split at present
    · rename_i here
      obtain ⟨rfl, rfl⟩ := here
      rw [if_pos ⟨rfl, rfl⟩]
      exact entry pos
    · rename_i elsewhere
      rw [if_neg elsewhere]
      exact h.directory p j pos lt present
  userTable := h.userTable
  videoTable := h.videoTable

theorem Regular.setVideoPage (h : Regular L P) {table : Nat → Pte}
    (low : ∀ i, (table i).present = true → (table i).physicalPageAddr < 0x400) :
    Regular L (P.setVideoPage pid table) where
  directory := h.directory
  userTable := h.userTable
  videoTable p i present := by
    simp only [Paging.setVideoPage, Function.update_apply] at present ⊢
    by_cases own : p = pid
    · simp only [if_pos own] at present ⊢
      exact low i present
    · simp only [if_neg own] at present ⊢
      exact h.videoTable p i present

/-- `paging_init` on zeroed tables: no process has a mapping yet. -/
theorem regular_init (L : PageLayout) : Regular L (Paging.init L zero) where
  directory p i pos lt present := by
    have other : p ≠ 0 := by omega
    simp [init, zero, other] at present
  userTable i present := by
    have video : i = 0xB8 := by simpa [init] using present
    simp [init, video, field20]
  videoTable p i present := by simp [init, zero] at present

theorem Regular.allocate (h : Regular L P) (lt : pid < 16) : Regular L (P.allocate L pid) := by
  have inside := L.userPageTable_inside
  simp only [Paging.allocate, Nat.not_le.mpr lt, if_false]
  refine ((h.setPde fun _ => ?_).setPde fun _ => ?_).setPde fun _ => ?_
  · rw [field20_of_lt (by omega)]
    rfl
  · rfl
  · rw [field20_of_lt (by omega)]
    rfl

theorem Regular.mapVideo (h : Regular L P) (lt : pid < 16) : Regular L (P.mapVideo L pid) := by
  have inside := L.userVideoPage_inside
  have aligned := L.userVideoPage_aligned
  simp only [Paging.mapVideo, Nat.not_le.mpr lt, if_false]
  refine (h.setVideoPage fun i present => ?_).setPde fun _ => ?_
  · split at present
    · rename_i video
      simp [video]
    · cases present
  · rw [show (L.userVideoPage + 4096 * pid) / 4096 = L.userVideoPage / 4096 + pid by omega,
      field20_of_lt (by omega)]
    rfl

/-- The mask keeps the page below 4 MB, whatever the address. -/
theorem Regular.updateVideo (h : Regular L P) (addr : Nat) :
    Regular L (P.updateVideo pid addr) := by
  refine h.setVideoPage fun i present => ?_
  by_cases video : i = 0xB8
  · subst video
    have masked : addr / 4096 &&& 0x3FF < 0x400 := Nat.lt_succ_of_le Nat.and_le_right
    simpa [field20_of_lt (Nat.lt_trans masked (by decide))] using masked
  · rw [Function.update_of_ne video] at present ⊢
    exact h.videoTable pid i present

/-! ### Where a walk can end -/

/-- The 4 MB physical frame that holds the program of `pid`. -/
def InImage (pid pa : Nat) : Prop := (pid + 1) * 2 ^ 22 ≤ pa ∧ pa < (pid + 2) * 2 ^ 22

/-- The frames of two pids have no byte in common. -/
theorem InImage.unique {p q pa : Nat} (mine : InImage p pa) (yours : InImage q pa) : p = q := by
  unfold InImage at mine yours
  omega

/-- The page behind entry 31 of a directory holds the video page table of its pid. -/
theorem tableAt_video (P : Paging) (other : Nat → Nat → Pte) (lt : pid < 16) :
    P.tableAt L other (L.userVideoPage / 4096 + pid) = P.userVideoPage pid := by
  have aligned := L.userVideoPage_aligned
  have notUser : L.userVideoPage / 4096 + pid ≠ L.userPageTable / 4096 := by
    have := L.userPageTable_apart
    have := L.userPageTable_aligned
    omega
  have notKernel : L.userVideoPage / 4096 + pid ≠ L.pageTable / 4096 := by
    have := L.pageTable_apart
    have := L.pageTable_aligned
    omega
  have own : L.userVideoPage / 4096 ≤ L.userVideoPage / 4096 + pid ∧
      L.userVideoPage / 4096 + pid < L.userVideoPage / 4096 + 16 := by omega
  rw [tableAt, if_neg notUser, if_neg notKernel, if_pos own, Nat.add_sub_cancel_left]

/-- The page tables of a process map pages below 4 MB only. -/
theorem tableAt_low (h : Regular L P) {other : Nat → Nat → Pte} {page i : Nat} (lt : pid < 16)
    (table : page = L.userPageTable / 4096 ∨ page = L.userVideoPage / 4096 + pid)
    (present : (P.tableAt L other page i).present = true) :
    (P.tableAt L other page i).physicalPageAddr < 0x400 := by
  rcases table with rfl | rfl
  · simp only [tableAt, if_true] at present ⊢
    rw [h.userTable i present]
    decide
  · rw [tableAt_video P other lt] at present ⊢
    exact h.videoTable _ i present

/-- The second level of a walk through such a table. -/
theorem table_walk_low (h : Regular L P) {other : Nat → Nat → Pte} {user : Bool}
    {page va pa : Nat} (lt : pid < 16)
    (table : page = L.userPageTable / 4096 ∨ page = L.userVideoPage / 4096 + pid)
    (found : (let pte := P.tableAt L other page (va / 4096 % 1024)
      if !pte.present || (user && !pte.userSupervisor) then none
      else some (pte.physicalPageAddr * 4096 + va % 4096)) = some pa) : pa < 0x400000 := by
  simp only at found
  split at found
  · cases found
  · rename_i accessible
    simp only [Bool.or_eq_true, not_or, Bool.not_eq_true, Bool.not_eq_false'] at accessible
    have low := tableAt_low h lt table accessible.1
    simp only [Option.some.injEq] at found
    omega

/-- Kernel-mode accesses above the kernel's own page, and user-mode accesses anywhere,
end below 4 MB or in the image of the pid. -/
theorem walk_frame (h : Regular L P) {other : Nat → Nat → Pte} {user : Bool} {va pa : Nat}
    (pos : 1 ≤ pid) (lt : pid < 16) (reach : user = true ∨ 0x800000 ≤ va)
    (found : P.walk L other user pid va = some pa) : pa < 0x400000 ∨ InImage pid pa := by
  simp only [walk] at found
  split at found
  · cases found
  rename_i accessible
  simp only [Bool.or_eq_true, not_or, Bool.not_eq_true, Bool.not_eq_false'] at accessible
  have entry := h.directory pid (va / 2 ^ 22) pos lt accessible.1
  -- one case for each entry the directory may have
  simp only [allowed] at entry
  split_ifs at entry with first second video image
  · rw [Option.some.injEq] at entry
    rw [← entry] at found
    exact .inl (table_walk_low h lt (.inl rfl) (by simpa using found))
  · -- the kernel's page is neither a user page nor above 8 MB
    rw [Option.some.injEq] at entry
    rcases reach with rfl | high
    · rw [← entry] at accessible
      simp [kernelPde] at accessible
    · omega
  · rw [Option.some.injEq] at entry
    rw [← entry] at found
    exact .inl (table_walk_low h lt (.inr rfl) (by simpa using found))
  · rw [Option.some.injEq] at entry
    simp only [← entry, if_true, Option.some.injEq] at found
    right
    unfold InImage
    omega

/-! ### Runs -/

/-- The operations on the tables, with the arguments their callers pass. -/
inductive PageOp where
  | allocate (pid : Nat)
  | mapVideo (pid screenStart : Nat)
  | updateVideo (pid addr : Nat)

def PageOp.apply (L : PageLayout) (P : Paging) : PageOp → Paging
  | .allocate pid => P.allocate L pid
  | .mapVideo pid _ => P.mapVideo L pid
  | .updateVideo pid addr => P.updateVideo pid addr

/-- Pids come from `tasks_pid_new`, and `syscall_vidmap` has checked that
`screen_start` lies above kernel memory. -/
def PageOp.Valid : PageOp → Prop
  | .allocate pid => 1 ≤ pid ∧ pid < 16
  | .mapVideo pid screenStart =>
      1 ≤ pid ∧ pid < 16 ∧ 0x800000 ≤ screenStart ∧ screenStart < 2 ^ 32
  | .updateVideo pid addr => 1 ≤ pid ∧ pid < 16 ∧ addr < 2 ^ 32

theorem Regular.run (h : Regular L P) (ops : List PageOp) (valid : ∀ op ∈ ops, op.Valid) :
    Regular L (ops.foldl (PageOp.apply L) P) := by
  induction ops generalizing P with
  | nil => exact h
  | cons op ops ih =>
      refine ih ?_ fun op' mem => valid op' (List.mem_cons_of_mem _ mem)
      have ok := valid op List.mem_cons_self
      cases op with
      | allocate pid => exact h.allocate ok.2
      | mapVideo pid screenStart => exact h.mapVideo ok.2.1
      | updateVideo pid addr => exact h.updateVideo addr

/-- **Address-space isolation.** In every state the tables reach from `paging_init`,
no user-mode access of a process reaches the kernel's frame, and two processes
share no physical address at or above 4 MB. The store of `paging_map_video`
through `screen_start` reaches no kernel memory either, so it leaves the tables
as they are. -/
theorem address_spaces_isolated (L : PageLayout) (other : Nat → Nat → Pte) (ops : List PageOp)
    (valid : ∀ op ∈ ops, op.Valid) :
    let P := ops.foldl (PageOp.apply L) (Paging.init L zero)
    (∀ p va pa, 1 ≤ p → p < 16 → P.walk L other true p va = some pa →
      ¬ (0x400000 ≤ pa ∧ pa < 0x800000)) ∧
    (∀ p q va va' pa, 1 ≤ p → p < 16 → 1 ≤ q → q < 16 → p ≠ q → 0x400000 ≤ pa →
      P.walk L other true p va = some pa → P.walk L other true q va' ≠ some pa) ∧
    (∀ p va pa, 1 ≤ p → p < 16 → 0x800000 ≤ va → P.walk L other false p va = some pa →
      ¬ (0x400000 ≤ pa ∧ pa < 0x800000)) := by
  intro P
  have regular : Regular L P := (regular_init L).run ops valid
  refine ⟨fun p va pa pos lt found => ?_,
    fun p q va va' pa pos lt pos' lt' ne high found found' => ?_, fun p va pa pos lt above found => ?_⟩
  · have := walk_frame regular pos lt (.inl rfl) found
    unfold InImage at this
    omega
  · have mine := (walk_frame regular pos lt (.inl rfl) found).resolve_left (by omega)
    have yours := (walk_frame regular pos' lt' (.inl rfl) found').resolve_left (by omega)
    exact ne (mine.unique yours)
  · have := walk_frame regular pos lt (.inr above) found
    unfold InImage at this
    omega

/-- Two processes, one with a video page that was pointed at the top of the address
space: the first reaches the start of its image, which the second cannot. -/
theorem address_spaces_isolated_sample :
    let P := [PageOp.allocate 1, .mapVideo 1 0x8000000, .updateVideo 1 0xFFFFFFFF,
      .allocate 2].foldl (PageOp.apply sampleLayout) (Paging.init sampleLayout zero)
    let other := fun _ _ => Pte.mk true true true 0x400
    P.walk sampleLayout other true 1 0x8048000 = some 0x848000 ∧
      ∀ va, P.walk sampleLayout other true 2 va ≠ some 0x848000 := by
  intro P other
  have found : P.walk sampleLayout other true 1 0x8048000 = some 0x848000 := by decide
  refine ⟨found, fun va => ?_⟩
  exact (address_spaces_isolated sampleLayout other _ (by simp [PageOp.Valid])).2.1 1 2 _ va _
    (by decide) (by decide) (by decide) (by decide) (by decide) (by decide) found

end Paging

end Linux391
