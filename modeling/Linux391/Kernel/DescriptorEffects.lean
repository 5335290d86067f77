import Linux391.Kernel.DescriptorTable

/-!
What `syscall_open` and `syscall_close` do to the descriptor tables.

Both should move one entry of the caller. `syscall_open` calls the new entry's own
open routine without an argument, and for a regular file that is `file_open` again;
`file_close` closes the entry once more through a pointer that was never set. The
theorem at the end says for which values of these unspecified quantities the calls do
what they should.
-/

namespace Linux391

open Memory

/-- Entry `fd` of the PCB of process `q`. -/
def Kernel.elementsOf (k : Kernel) (q : Nat) (fd : Fin 8) : Element :=
  ⟨get k.mem (getPcb q) (.fileOperationJmpTbl fd), get k.mem (getPcb q) (.inodePtr fd),
    get k.mem (getPcb q) (.filePosition fd), get k.mem (getPcb q) (.flags fd)⟩

theorem Kernel.elements_eq {k : Kernel} {p : Nat} (here : k.curr = getPcb p) :
    k.elements = k.elementsOf p := by
  funext fd
  simp only [elements, elementsOf, field, here]

/-- The byte at `x` belongs to entry `fd` of process `q`. -/
def InEntry (q : Nat) (fd : Fin 8) (x : Nat) : Prop :=
  getPcb q + 16 * fd.val ≤ x ∧ x < getPcb q + 16 * fd.val + 16

/-- Entries are apart from each other. -/
theorem InEntry.unique {p q x : Nat} {i j : Fin 8} (hp : p < 16) (hq : q < 16)
    (mine : InEntry p i x) (yours : InEntry q j x) : p = q ∧ i = j := by
  unfold InEntry at mine yours
  rw [getPcb_eq hp] at mine
  rw [getPcb_eq hq] at yours
  have := i.isLt
  have := j.isLt
  exact ⟨by omega, Fin.ext (by omega)⟩

/-- An entry is its sixteen bytes. -/
theorem elementsOf_eq_iff {k k' : Kernel} {q : Nat} {fd : Fin 8} :
    k'.elementsOf q fd = k.elementsOf q fd ↔ ∀ x, InEntry q fd x → k'.mem x = k.mem x := by
  simp only [Kernel.elementsOf, Element.mk.injEq, get, PcbField.offset, PcbField.size]
  constructor
  · rintro ⟨table, inode, position, flags⟩ x ⟨lo, hi⟩
    have byte : ∀ a, load k'.mem a 4 = load k.mem a 4 → a ≤ x → x < a + 4 →
        k'.mem x = k.mem x := fun a word start stop => by
      have := load_inj word (x - a) (by omega)
      rwa [show a + (x - a) = x by omega] at this
    -- which of the four words the byte is in
    by_cases first : x < getPcb q + 16 * fd.val + 4
    · exact byte _ table lo first
    by_cases second : x < getPcb q + (16 * fd.val + 4) + 4
    · exact byte _ inode (by omega) second
    by_cases third : x < getPcb q + (16 * fd.val + 8) + 4
    · exact byte _ position (by omega) third
    · exact byte _ flags (by omega) (by omega)
  · intro same
    refine ⟨?_, ?_, ?_, ?_⟩ <;>
      exact load_congr fun i lt => same _ ⟨by omega, by omega⟩

namespace Platform

variable {P : Platform} {k k' : Kernel} {p : Nat}

/-! ### Closing -/

/-- A close that succeeds should close entry `fd` of the caller and change no other
entry of any process. -/
structure ClosesExactly (p : Nat) (fd : Fin 8) (k k' : Kernel) : Prop where
  wasOpen : (k.elementsOf p fd).flags ≠ 0
  closed : (k'.elementsOf p fd).flags = 0
  others : ∀ q < 16, ∀ j, (q, j) ≠ (p, fd) → k'.elementsOf q j = k.elementsOf q j

/-- The four bytes that `file_close` zeroes through its stray pointer are in the
entry itself, in no entry, or zero already. -/
def ZeroingHarmless (p : Nat) (fd : Fin 8) (k : Kernel) (pointer : Nat) : Prop :=
  ∀ x, pointer + (16 * fd.val + 12) ≤ x → x < pointer + (16 * fd.val + 12) + 4 →
    ∀ q < 16, ∀ j, InEntry q j x → (q = p ∧ j = fd) ∨ k.mem x = 0

/-- The byte that `terminal_close` decrements through its stray pointer is in no entry,
or in the entry itself and not its flags; if it is 1, the byte before it, which is
then zeroed, is in the entry itself, in no entry, or zero already. -/
def CountingHarmless (p : Nat) (fd : Fin 8) (k : Kernel) (termData : Nat) : Prop :=
  (∀ q < 16, ∀ j, InEntry q j (termData + 153) →
    (q = p ∧ j = fd) ∧ termData + 153 < getPcb p + (16 * fd.val + 12)) ∧
  (k.mem (termData + 153) = 1 → ∀ q < 16, ∀ j, InEntry q j (termData + 152) →
    (q = p ∧ j = fd) ∨ k.mem (termData + 152) = 0)

/-- When closing `fd` is safe, by the entry's driver. -/
def CloseSafe (P : Platform) (p : Nat) (fd : Fin 8) (k : Kernel) (u : Unspecified) : Prop :=
  match P.driver k fd with
  | some .file => ZeroingHarmless p fd k u.closePcb
  | some .terminal => CountingHarmless p fd k u.termData
  | _ => True

theorem close_mem (k : Kernel) (pointer : Nat) (fd : Fin 8) (x : Nat) :
    (k.close pointer fd).mem x =
      if pointer + (16 * fd.val + 12) ≤ x ∧ x < pointer + (16 * fd.val + 12) + 4 then 0
      else k.mem x := by
  simp only [Kernel.close, Kernel.withMem_mem, pcbClose, set, store, PcbField.offset,
    PcbField.size, Nat.zero_div]
  rfl

/-- The flags of an entry are zero when its last four bytes are. -/
theorem flags_eq_zero {q : Nat} {fd : Fin 8}
    (zero : ∀ i < 4, k.mem (getPcb q + (16 * fd.val + 12) + i) = 0) :
    (k.elementsOf q fd).flags = 0 := by
  have : load k.mem (getPcb q + (16 * fd.val + 12)) 4 = load (fun _ => 0)
      (getPcb q + (16 * fd.val + 12)) 4 := load_congr zero
  exact this

/-- The caller's own `pcb_close` is exact. -/
theorem closesExactly_own (here : k.curr = getPcb p) (lt : p < 16) {fd : Fin 8}
    (isOpen : (k.elementsOf p fd).flags ≠ 0) : ClosesExactly p fd k (k.close k.curr fd) where
  wasOpen := isOpen
  closed := flags_eq_zero fun i hi => by
    rw [close_mem, here, if_pos (by omega)]
  others q hq j ne := elementsOf_eq_iff.mpr fun x mem => by
    rw [close_mem, here, if_neg]
    rintro ⟨lo, hi⟩
    have mine : InEntry p fd x := ⟨by omega, by omega⟩
    obtain ⟨rfl, rfl⟩ := mine.unique lt hq mem
    exact ne rfl

/-- The second close of `file_close` is exact iff its zeroes do no harm. -/
theorem closesExactly_file (here : k.curr = getPcb p) (lt : p < 16) {fd : Fin 8} (pointer : Nat)
    (isOpen : (k.elementsOf p fd).flags ≠ 0) :
    ClosesExactly p fd k ((k.close k.curr fd).close pointer fd) ↔
      ZeroingHarmless p fd k pointer := by
  have own := closesExactly_own here lt isOpen
  constructor
  · intro exactly x lo hi q hq j mem
    by_contra bad
    obtain ⟨elsewhere, nonzero⟩ := not_or.mp bad
    have kept := elementsOf_eq_iff.mp
      (exactly.others q hq j fun same => elsewhere (by simpa using same)) x mem
    rw [close_mem, if_pos ⟨lo, hi⟩] at kept
    exact nonzero kept.symm
  · intro harmless
    refine ⟨isOpen, flags_eq_zero fun i hi => ?_, fun q hq j ne => ?_⟩
    · rw [close_mem]
      split_ifs
      · rfl
      · rw [close_mem, here, if_pos (by omega)]
    · rw [← own.others q hq j ne]
      refine elementsOf_eq_iff.mpr fun x mem => ?_
      rw [close_mem]
      split_ifs with stray
      · have same := elementsOf_eq_iff.mp (own.others q hq j ne) x mem
        rcases harmless x stray.1 stray.2 q hq j mem with ⟨rfl, rfl⟩ | zero
        · exact absurd rfl ne
        · rw [same, zero]
      · rfl

theorem terminalClose_mem (k : Kernel) (termData x : Nat) :
    (terminalClose k termData).mem x =
      if x = termData + 152 ∧ k.mem (termData + 153) = 1 then 0
      else if x = termData + 153 then k.mem (termData + 153) - 1 else k.mem x := by
  have wraps : k.mem (termData + 153) - 1 = 0 ↔ k.mem (termData + 153) = 1 := by grind
  simp only [terminalClose, Kernel.withMem_mem]
  by_cases last : k.mem (termData + 153) = 1
  · rw [if_pos (wraps.mpr last)]
    by_cases before : x = termData + 152 <;> simp [Function.update_apply, before, last]
  · rw [if_neg (mt wraps.mp last)]
    simp [Function.update_apply, last]

/-- The effect of `terminal_close` through a stray pointer. No entry from 2 on has this
driver in practice. -/
theorem closesExactly_terminal (here : k.curr = getPcb p) (lt : p < 16) {fd : Fin 8}
    (termData : Nat) (isOpen : (k.elementsOf p fd).flags ≠ 0) :
    ClosesExactly p fd k (terminalClose (k.close k.curr fd) termData) ↔
      CountingHarmless p fd k termData := by
  have own := closesExactly_own here lt isOpen
  have byte : ∀ x, (k.close k.curr fd).mem x =
      if getPcb p + (16 * fd.val + 12) ≤ x ∧ x < getPcb p + (16 * fd.val + 12) + 4 then 0
      else k.mem x := fun x => by rw [close_mem, here]
  have changes : ∀ v : UInt8, v - 1 ≠ v := by grind
  constructor
  · intro exactly
    have counted : ∀ q < 16, ∀ j, InEntry q j (termData + 153) →
        (q = p ∧ j = fd) ∧ termData + 153 < getPcb p + (16 * fd.val + 12) := by
      intro q hq j mem
      have after := terminalClose_mem (k.close k.curr fd) termData (termData + 153)
      rw [if_neg (by omega), if_pos rfl] at after
      by_cases mine : (q, j) = (p, fd)
      · obtain ⟨rfl, rfl⟩ := Prod.mk.inj mine
        refine ⟨⟨rfl, rfl⟩, ?_⟩
        by_contra high
        -- in the flags: the zero just stored there would become 255
        rw [byte, if_pos ⟨by omega, by unfold InEntry at mem; omega⟩] at after
        have zero : load (terminalClose (k.close k.curr j) termData).mem
            (getPcb q + (16 * j.val + 12)) 4 = load (fun _ => 0) (getPcb q + (16 * j.val + 12)) 4 :=
          exactly.closed
        have cleared := load_inj zero (termData + 153 - (getPcb q + (16 * j.val + 12)))
          (by unfold InEntry at mem; omega)
        rw [show getPcb q + (16 * j.val + 12) + (termData + 153 - (getPcb q + (16 * j.val + 12))) =
          termData + 153 by omega] at cleared
        rw [cleared] at after
        cases after
      · have kept := elementsOf_eq_iff.mp (exactly.others q hq j mine) _ mem
        have before := elementsOf_eq_iff.mp (own.others q hq j mine) _ mem
        rw [after, before] at kept
        exact absurd kept (changes _)
    refine ⟨counted, fun one q hq j mem => ?_⟩
    by_contra bad
    obtain ⟨elsewhere, nonzero⟩ := not_or.mp bad
    have notFlags : ¬ (getPcb p + (16 * fd.val + 12) ≤ termData + 153 ∧
        termData + 153 < getPcb p + (16 * fd.val + 12) + 4) := fun inside => by
      have := (counted p lt fd ⟨by omega, by omega⟩).2
      omega
    have kept := elementsOf_eq_iff.mp
      (exactly.others q hq j fun same => elsewhere (by simpa using same)) _ mem
    rw [terminalClose_mem, if_pos ⟨rfl, by rw [byte, if_neg notFlags, one]⟩] at kept
    exact nonzero kept.symm
  · rintro ⟨counted, cleared⟩
    refine ⟨isOpen, flags_eq_zero fun i hi => ?_, fun q hq j ne => ?_⟩
    · rw [terminalClose_mem]
      split_ifs with before count
      · rfl
      · have := (counted p lt fd ⟨by omega, by omega⟩).2
        omega
      · rw [byte, if_pos (by omega)]
    · refine elementsOf_eq_iff.mpr fun x mem => ?_
      rw [terminalClose_mem]
      split_ifs with before count
      · obtain ⟨rfl, one⟩ := before
        rw [byte] at one
        split_ifs at one with flags
        · cases one
        · rcases cleared one q hq j mem with ⟨rfl, rfl⟩ | zero
          · exact absurd rfl ne
          · exact zero.symm
      · subst count
        obtain ⟨⟨rfl, rfl⟩, _⟩ := counted q hq j mem
        exact absurd rfl ne
      · exact elementsOf_eq_iff.mp (own.others q hq j ne) x mem

/-- A successful close moves exactly its entry iff it is safe. -/
theorem syscallClose_exact (here : k.curr = getPcb p) (lt : p < 16) {fd : Int} {u : Unspecified}
    (call : P.syscallClose k fd u = some (0, k')) :
    ∃ i, descriptor fd = some i ∧ (ClosesExactly p i k k' ↔ CloseSafe P p i k u) := by
  unfold syscallClose at call
  split at call
  · cases call
  rename_i i eq
  refine ⟨i, eq, ?_⟩
  split_ifs at call with refused
  · cases call
  have isOpen : (k.elementsOf p i).flags ≠ 0 := fun closed => refused (.inr (by
    rw [← Kernel.elements_eq here] at closed
    exact closed))
  have own := closesExactly_own here lt isOpen
  simp only [driverClose, driver_close here lt] at call
  unfold CloseSafe
  split at call
  · rename_i rtc
    cases call
    simp only [rtc]
    exact iff_of_true own trivial
  · rename_i file
    cases call
    simp only [file]
    exact closesExactly_file here lt u.closePcb isOpen
  · rename_i dir
    cases call
    simp only [dir]
    exact iff_of_true own trivial
  · rename_i terminal
    cases call
    simp only [terminal]
    exact closesExactly_terminal here lt u.termData isOpen
  · cases call

/-! ### Opening -/

/-- An open that returns `fd` should open that entry, the lowest closed one from 2 on,
and change no other entry of the caller. -/
structure OpensExactly (k k' : Kernel) (fd : Fin 8) : Prop where
  ge : 2 ≤ fd.val
  wasClosed : (k.elements fd).flags = 0
  lowest : ∀ j, 2 ≤ j.val → j < fd → (k.elements j).flags ≠ 0
  opened : (k'.elements fd).flags ≠ 0
  others : ∀ j, j ≠ fd → k'.elements j = k.elements j

/-- The entry gets the jump table of regular files: by its type, or for a type that is
none of the three because the uninitialised table pointer happens to be that one. -/
def UsesFileDriver (P : Platform) (dentry : Dentry) (fileOpTbl : Nat) : Prop :=
  dentry.filetype = fileType ∨
    (dentry.filetype ≠ directoryType ∧ dentry.filetype ≠ rtcType ∧
      fileOpTbl % 2 ^ 32 = P.drivers.addr .file)

/-- When opening is safe: the entry is no regular file, or the missing argument names
no directory entry, or there is only one closed entry. -/
def OpenSafe (P : Platform) (k : Kernel) (filename : CStr) (u : Unspecified) : Prop :=
  ∀ dentry, P.fs.readDentryByName filename = some dentry →
    ¬ UsesFileDriver P dentry u.fileOpTbl ∨ P.fs.readDentryByName u.openName = none ∨
    ∀ i j : Fin 8, 2 ≤ i.val → 2 ≤ j.val → (k.elements i).flags = 0 → (k.elements j).flags = 0 →
      i = j

theorem driverAt_newElement {dentry : Dentry} {fileOpTbl : Nat} :
    P.drivers.driverAt (P.newElement dentry fileOpTbl).fileOperationJmpTbl = some .file ↔
      UsesFileDriver P dentry fileOpTbl := by
  have distinct : ∀ d, d ≠ .file → P.drivers.addr .file ≠ P.drivers.addr d :=
    fun d ne same => ne (P.drivers.inj same).symm
  rw [DriverLayout.driverAt_eq_some]
  unfold UsesFileDriver newElement
  dsimp only
  split_ifs with file dir rtc
  · simp [file]
  · simp [dir, distinct, directoryType, fileType]
  · simp [rtc, distinct, rtcType, fileType]
  · simp [file, dir, rtc, eq_comm]

/-- The entry `pcb_open` takes is the lowest closed one. -/
theorem firstClosed_lowest {m : Mem} {pcb : Nat} {fd : Fin 8}
    (first : firstClosed m pcb = some fd) (j : Fin 8) (ge : 2 ≤ j.val) (lt : j < fd) :
    get m pcb (.flags j) ≠ 0 := by
  obtain ⟨_, i, inside, here, before⟩ := List.find?_eq_some_iff_getElem.mp first
  have index : i = fd.val := by simpa using congrArg Fin.val here
  have skipped := before j.val (by omega)
  simpa [ge] using skipped

theorem firstClosed_eq_none {m : Mem} {pcb : Nat} (none : firstClosed m pcb = none) (j : Fin 8)
    (ge : 2 ≤ j.val) : get m pcb (.flags j) ≠ 0 := by
  have := List.find?_eq_none.mp none j (List.mem_finRange j)
  simpa [ge] using this

/-- A single new entry in the lowest closed place is what an open should do. -/
theorem opensExactly_of_update {fd : Fin 8} {e : Element}
    (first : firstClosed k.mem k.curr = some fd) (isOpen : e.flags ≠ 0)
    (eq : k'.elements = Function.update k.elements fd e) : OpensExactly k k' fd where
  ge := (firstClosed_spec first).1
  wasClosed := (firstClosed_spec first).2
  lowest := firstClosed_lowest first
  opened := by rwa [eq, Function.update_self]
  others j ne := by rw [eq, Function.update_of_ne ne]

/-- Only `file_open` makes an entry of its own. -/
theorem elements_driverOpen_other {k₁ : Kernel} {fd : Fin 8} {u : Unspecified}
    (other : P.driver k₁ fd ≠ some .file) (call : P.driverOpen k₁ fd u = some k') :
    k'.elements = k₁.elements := by
  unfold driverOpen at call
  split at call
  · cases call
    rfl
  · rename_i driver
    exact absurd driver other
  · cases call
    rfl
  · obtain ⟨t, _, rfl⟩ := Option.map_eq_some_iff.mp call
    rfl
  · cases call

section SecondOpen

variable {k₁ : Kernel} {fd : Fin 8} {filename : CStr} {dentry : Dentry} {u : Unspecified}

/-- A second `file_open` fails for a name that is missing or a table that is full. -/
theorem openSafe_of_second_none (eq : k₁.elements = Function.update k.elements fd
      (P.newElement dentry u.fileOpTbl))
    (second : P.fileOpen k₁ u.openName u.fileOpTbl' = none) : OpenSafe P k filename u := by
  refine fun dentry' _ => .inr ((fileOpen_eq_none second).imp id fun full => ?_)
  have only : ∀ i : Fin 8, 2 ≤ i.val → (k.elements i).flags = 0 → i = fd := by
    intro i ge closed
    by_contra other
    have stillClosed : (k₁.elements i).flags = 0 := by
      rw [eq, Function.update_of_ne other, closed]
    exact firstClosed_eq_none full i ge stillClosed
  intro i j gei gej closedi closedj
  rw [only i gei closedi, only j gej closedj]

/-- One that succeeds opens another entry. -/
theorem second_opens_other {j : Fin 8} (here : k₁.curr = getPcb p) (lt : p < 16)
    (eq : k₁.elements = Function.update k.elements fd (P.newElement dentry u.fileOpTbl))
    (second : P.fileOpen k₁ u.openName u.fileOpTbl' = some (j, k')) :
    j ≠ fd ∧ 2 ≤ j.val ∧ (k.elements j).flags = 0 ∧ (k'.elements j).flags ≠ 0 ∧
      P.fs.readDentryByName u.openName ≠ none := by
  obtain ⟨dentry', found', first', _, eq'⟩ := elements_fileOpen here lt second
  obtain ⟨ge', closed'⟩ := firstClosed_spec first'
  have closed₁ : (k₁.elements j).flags = 0 := closed'
  have other : j ≠ fd := by
    rintro rfl
    rw [eq, Function.update_self] at closed₁
    exact Nat.one_ne_zero closed₁
  rw [eq, Function.update_of_ne other] at closed₁
  refine ⟨other, ge', closed₁, ?_, ?_⟩
  · rw [eq', Function.update_self]
    exact Nat.one_ne_zero
  · rw [found']
    exact Option.some_ne_none dentry'

/-- The jump-table open after a first entry was made: for a regular file it is a second
`file_open`. -/
theorem driverOpen_exact (here : k₁.curr = getPcb p) (lt : p < 16)
    (found : P.fs.readDentryByName filename = some dentry)
    (first : firstClosed k.mem k.curr = some fd)
    (eq : k₁.elements = Function.update k.elements fd (P.newElement dentry u.fileOpTbl))
    (call : P.driverOpen k₁ fd u = some k') :
    OpensExactly k k' fd ↔ OpenSafe P k filename u := by
  have isOpen : (P.newElement dentry u.fileOpTbl).flags ≠ 0 := Nat.one_ne_zero
  have table : P.driver k₁ fd =
      P.drivers.driverAt (P.newElement dentry u.fileOpTbl).fileOperationJmpTbl := by
    have := congrArg Element.fileOperationJmpTbl (congrFun eq fd)
    rw [Function.update_self] at this
    exact congrArg P.drivers.driverAt this
  by_cases file : UsesFileDriver P dentry u.fileOpTbl
  · have driver : P.driver k₁ fd = some .file := table.trans (driverAt_newElement.mpr file)
    simp only [driverOpen, driver, Option.some.injEq] at call
    cases second : P.fileOpen k₁ u.openName u.fileOpTbl' with
    | none =>
        rw [second] at call
        obtain rfl : k₁ = k' := call
        exact iff_of_true (opensExactly_of_update first isOpen eq)
          (openSafe_of_second_none eq second)
    | some r =>
        obtain ⟨j, k₃⟩ := r
        rw [second] at call
        obtain rfl : k₃ = k' := call
        obtain ⟨other, ge', wasClosed', nowOpen, named⟩ := second_opens_other here lt eq second
        refine iff_of_false (fun exactly => ?_) fun safe => ?_
        · rw [exactly.others j other] at nowOpen
          exact nowOpen wasClosed'
        · rcases safe dentry found with notFile | missing | single
          · exact notFile file
          · exact named missing
          · obtain ⟨ge, wasClosed⟩ := firstClosed_spec first
            exact other (single j fd ge' ge wasClosed' wasClosed)
  · have other : P.driver k₁ fd ≠ some .file := fun driver =>
      file (driverAt_newElement.mp (table.symm.trans driver))
    have quiet := elements_driverOpen_other other call
    refine iff_of_true (opensExactly_of_update first isOpen (quiet.trans eq)) ?_
    intro dentry' found'
    obtain rfl : dentry = dentry' := Option.some.inj (found.symm.trans found')
    exact .inl file

end SecondOpen

/-- A successful open moves exactly one entry iff it is safe. -/
theorem syscallOpen_exact (here : k.curr = getPcb p) (lt : p < 16) {filename : CStr}
    {u : Unspecified} {value : Int} (call : P.syscallOpen k (some filename) u = some (value, k'))
    (success : value ≠ -1) :
    ∃ fd : Fin 8, value = fd.val ∧ (OpensExactly k k' fd ↔ OpenSafe P k filename u) := by
  unfold syscallOpen at call
  simp only at call
  split at call
  · cases call
    exact absurd rfl success
  rename_i fd k₁ opened
  obtain ⟨dentry, found, first, curr, eq⟩ := elements_fileOpen here lt opened
  obtain ⟨k₂, dispatched, pair⟩ := Option.map_eq_some_iff.mp call
  cases pair
  have here₁ : k₁.curr = getPcb p := curr.trans here
  refine ⟨fd, rfl, ?_⟩
  split_ifs at dispatched
  · have eqRtc : (k₁.setField .rtcFd fd).elements =
        Function.update k.elements fd (P.newElement dentry u.fileOpTbl) := by
      rw [elements_setScalar here₁ lt _ (.inl rfl), eq]
    have hereRtc : (k₁.setField .rtcFd fd).curr = getPcb p := here₁
    exact driverOpen_exact hereRtc lt found first eqRtc dispatched
  · exact driverOpen_exact here₁ lt found first eq dispatched

/-- **Open and close move one descriptor.** In every state, an open that succeeds opens
the lowest closed entry and nothing else iff it is safe, and a close that succeeds
closes its entry and changes no other entry of any process iff it is safe. -/
theorem open_close_exact (here : k.curr = getPcb p) (lt : p < 16) :
    (∀ filename u value k', P.syscallOpen k (some filename) u = some (value, k') → value ≠ -1 →
      ∃ fd : Fin 8, value = fd.val ∧ (OpensExactly k k' fd ↔ OpenSafe P k filename u)) ∧
    (∀ fd u k', P.syscallClose k fd u = some (0, k') →
      ∃ i, descriptor fd = some i ∧ (ClosesExactly p i k k' ↔ CloseSafe P p i k u)) :=
  ⟨fun _ _ _ _ call success => syscallOpen_exact here lt call success,
    fun _ _ _ call => syscallClose_exact here lt call⟩

/-- The clock is opened on one entry. -/
theorem open_close_exact_clock :
    ∃ k', sample.syscallOpen (Kernel.blank 1) (some (cLit [114, 116, 99])) .sample = some (2, k') ∧
      OpensExactly (Kernel.blank 1) k' 2 := by
  have ends : (sample.syscallOpen (Kernel.blank 1) (some (cLit [114, 116, 99])) .sample).map
      (·.1) = some 2 := by decide +kernel
  obtain ⟨⟨value, k'⟩, call, eq⟩ := Option.map_eq_some_iff.mp ends
  obtain rfl : value = 2 := eq
  obtain ⟨fd, same, exact_iff⟩ := (open_close_exact (Kernel.blank_curr (by decide)) (by decide)).1
    _ _ _ _ call (by decide)
  obtain rfl : fd = 2 := by
    apply Fin.ext
    have : fd.val = 2 := by exact_mod_cast same.symm
    simpa using this
  refine ⟨k', call, exact_iff.mpr fun dentry found => .inl ?_⟩
  have named : Fs.sample.readDentryByName (cLit [114, 116, 99]) = some (Fs.sample.dentry 2) := by
    have index : (List.range Fs.sample.dirEntryNum).find?
        (Fs.sample.nameMatches (cLit [114, 116, 99])) = some 2 := by decide +kernel
    rw [Fs.readDentryByName, index, Option.map_some]
  obtain rfl : Fs.sample.dentry 2 = dentry := Option.some.inj (named.symm.trans found)
  have clock : (Fs.sample.dentry 2).filetype = rtcType := by decide +kernel
  rintro (file | ⟨-, notClock, -⟩)
  · exact absurd (clock.symm.trans file) (by decide)
  · exact notClock clock

/-- Processes 1 and 2 each have the shell's file open on entry 2. -/
def sampleOpenFiles : Kernel :=
  let fd : Fin 8 := ⟨2, by decide⟩
  let opened := [(PcbField.fileOperationJmpTbl fd, sample.drivers.addr .file), (.flags fd, 1)]
  let m := setAll (Kernel.blank 1).mem (getPcb 1) opened
  (Kernel.blank 1).withMem (setAll m (getPcb 2) opened)

/-- With unlucky values, one open takes two entries, and one close also closes the entry of
another process. -/
theorem open_close_not_exact :
    (sample.syscallOpen (Kernel.blank 1) (some (cLit [115, 104, 101, 108, 108]))
      { Unspecified.sample with openName := cLit [115, 104, 101, 108, 108] }).map (fun out =>
        (out.1, (out.2.elements 2).flags, (out.2.elements 3).flags)) = some (2, 1, 1) ∧
    ((Kernel.blank 1).elements 3).flags = 0 ∧
    (sample.syscallClose sampleOpenFiles 2
      { Unspecified.sample with closePcb := getPcb 2 }).map (fun out =>
        (out.1, (out.2.elementsOf 2 2).flags)) = some (0, 0) ∧
    (sampleOpenFiles.elementsOf 2 2).flags = 1 := by
  decide +kernel

end Platform

end Linux391
