import Mathlib.Algebra.Ring.Nat
import Mathlib.Logic.Function.Basic

/-!
Page directories and page tables (`kernel/paging.c`, `kernel/paging.h`).

Each pid has a page directory. They share `user_page_table`, through which video
memory is seen at its physical address, and each has a page table of its own for
the screen that `vidmap` hands out. The 4 MB program image of a pid is mapped at
128 MB by one large page.

An entry keeps the bits the processor's walk looks at. The others (write-through,
cache, accessed, dirty, global and the available bits) are constants in the source
and change no translation.
-/

namespace Linux391

/-- `pde_t`. -/
structure Pde where
  present : Bool
  readWrite : Bool
  userSupervisor : Bool
  pageSize : Bool
  pageTableAddr : Nat

/-- `pte_t`. -/
structure Pte where
  present : Bool
  readWrite : Bool
  userSupervisor : Bool
  physicalPageAddr : Nat

/-- An address stored in the 20-bit field of an entry. -/
def field20 (v : Nat) : Nat := v % 2 ^ 20

/-- Where the linker placed the tables: page-aligned, apart from each other and inside
the kernel's 4 MB page. -/
structure PageLayout where
  pageTable : Nat
  userPageTable : Nat
  userVideoPage : Nat
  pageTable_aligned : pageTable % 4096 = 0
  userPageTable_aligned : userPageTable % 4096 = 0
  userVideoPage_aligned : userVideoPage % 4096 = 0
  pageTable_inside : 0x400000 ≤ pageTable ∧ pageTable + 4096 ≤ 0x800000
  userPageTable_inside : 0x400000 ≤ userPageTable ∧ userPageTable + 4096 ≤ 0x800000
  userVideoPage_inside : 0x400000 ≤ userVideoPage ∧ userVideoPage + 16 * 4096 ≤ 0x800000
  pageTable_apart : pageTable < userVideoPage ∨ userVideoPage + 16 * 4096 ≤ pageTable
  userPageTable_apart : userPageTable < userVideoPage ∨ userVideoPage + 16 * 4096 ≤ userPageTable

/-- The tables of `paging.c`. -/
structure Paging where
  pageDirTable : Nat → Nat → Pde
  pageTable : Nat → Pte
  userPageTable : Nat → Pte
  userVideoPage : Nat → Nat → Pte

namespace Paging

/-- The tables as the loader leaves them, all zero. -/
def zero : Paging where
  pageDirTable _ _ := ⟨false, false, false, false, 0⟩
  pageTable _ := ⟨false, false, false, 0⟩
  userPageTable _ := ⟨false, false, false, 0⟩
  userVideoPage _ _ := ⟨false, false, false, 0⟩

/-- Write an entry of the page directory of `pid`. -/
def setPde (P : Paging) (pid i : Nat) (e : Pde) : Paging :=
  { P with
    pageDirTable :=
      Function.update P.pageDirTable pid (Function.update (P.pageDirTable pid) i e) }

/-- Fill the video page table of `pid`. -/
def setVideoPage (P : Paging) (pid : Nat) (table : Nat → Pte) : Paging :=
  { P with userVideoPage := Function.update P.userVideoPage pid table }

/-- The supervisor mapping of the kernel's own 4 MB page, `KERNAL_START` in the source. -/
def kernelPde : Pde := ⟨true, true, false, true, 0x400⟩

/-- `paging_init`, before it loads CR3 with the directory of pid 0. -/
def init (L : PageLayout) (P : Paging) : Paging :=
  { P with
    pageTable := fun i => ⟨i == 0xB8, false, false, field20 i⟩
    userPageTable := fun i => ⟨i == 0xB8, true, true, field20 i⟩
    pageDirTable := Function.update P.pageDirTable 0 fun i =>
      if i = 0 then ⟨true, false, false, false, field20 (L.pageTable / 4096)⟩
      else if i = 1 then kernelPde
      else if i < 1024 then ⟨false, true, false, false, field20 (i * 1024)⟩
      else P.pageDirTable 0 i }

/-- `paging_allocate`; a pid out of range changes nothing and returns -1. Entries
0, 1 and `P_IMG` are written and no others. -/
def allocate (L : PageLayout) (P : Paging) (pid : Nat) : Paging :=
  if 16 ≤ pid then P
  else
    ((P.setPde pid 0 ⟨true, true, true, false, field20 (L.userPageTable / 4096)⟩).setPde pid 1
      kernelPde).setPde pid 0x20 ⟨true, true, true, true, field20 ((pid + 1) * 1024)⟩

/-- The tables after `paging_map_video`; a pid out of range changes nothing and
returns -1. -/
def mapVideo (L : PageLayout) (P : Paging) (pid : Nat) : Paging :=
  if 16 ≤ pid then P
  else
    (P.setVideoPage pid fun i =>
      if i = 0xB8 then ⟨true, true, true, 0xB8⟩ else ⟨false, true, false, 0⟩).setPde pid 31
        ⟨true, true, true, false, field20 ((L.userVideoPage + 4096 * pid) / 4096)⟩

/-- The tables after `update_video_paging`. -/
def updateVideo (P : Paging) (pid addr : Nat) : Paging :=
  P.setVideoPage pid (Function.update (P.userVideoPage pid) 0xB8
    { P.userVideoPage pid 0xB8 with physicalPageAddr := field20 (addr / 4096 &&& 0x3FF) })

/-! ### The walk -/

/-- The page table in a page of physical memory: one of the kernel's own, or whatever
else is there. -/
def tableAt (L : PageLayout) (P : Paging) (other : Nat → Nat → Pte) (page : Nat) : Nat → Pte :=
  if page = L.userPageTable / 4096 then P.userPageTable
  else if page = L.pageTable / 4096 then P.pageTable
  else if L.userVideoPage / 4096 ≤ page ∧ page < L.userVideoPage / 4096 + 16 then
    P.userVideoPage (page - L.userVideoPage / 4096)
  else other page

/-- The physical address a virtual address translates to under the directory of
`pid`. With `user` the user bit is required at both levels. -/
def walk (L : PageLayout) (P : Paging) (other : Nat → Nat → Pte) (user : Bool)
    (pid va : Nat) : Option Nat :=
  let pde := P.pageDirTable pid (va / 2 ^ 22)
  if !pde.present || (user && !pde.userSupervisor) then none
  else if pde.pageSize then some (pde.pageTableAddr / 1024 * 2 ^ 22 + va % 2 ^ 22)
  else
    let pte := P.tableAt L other pde.pageTableAddr (va / 4096 % 1024)
    if !pte.present || (user && !pte.userSupervisor) then none
    else some (pte.physicalPageAddr * 4096 + va % 4096)

/-- One possible placement of the tables. -/
def sampleLayout : PageLayout where
  pageTable := 0x420000
  userPageTable := 0x421000
  userVideoPage := 0x422000
  pageTable_aligned := by decide
  userPageTable_aligned := by decide
  userVideoPage_aligned := by decide
  pageTable_inside := by decide
  userPageTable_inside := by decide
  userVideoPage_inside := by decide
  pageTable_apart := by decide
  userPageTable_apart := by decide

end Paging

end Linux391
