import Linux391.Drivers.FsRead

/-!
What `read_data` touches.

The loop stores a byte before it tests for the end of the file, so a read that asks for
more than the file has left stores one byte more than it returns
(`read_stores_only_returned`). The byte is looked up in the block table like every
other one, and so is the block after it. `Access` names the two kinds of lookup, and
`readDataTraced` is `read_data` with the lookups it makes written down beside its result
(`readDataTraced_result`). `read_stays_in_image` says which reads keep inside the table
and the data blocks.
-/

namespace Linux391

open Memory

namespace Fs

variable {fs : Fs} {inode : Nat}

/-! ### How much is stored -/

/-- From inside the file the loop runs until the count is used up or the end is passed. -/
theorem readDataLoop_lengths (short : fs.fileLength inode < 2 ^ 32 - 1) (n offset block : Nat)
    (inside : offset ≤ fs.fileLength inode) :
    (fs.readDataLoop inode n offset block).1.length = min n (fs.fileLength inode - offset + 1) ∧
      (fs.readDataLoop inode n offset block).2 = min n (fs.fileLength inode - offset) := by
  induction n generalizing offset block with
  | zero => simp [readDataLoop]
  | succ n ih =>
      have nowrap : (offset + 1) % 2 ^ 32 = offset + 1 := Nat.mod_eq_of_lt (by omega)
      simp only [readDataLoop, nowrap]
      split
      · rename_i last
        constructor
        · simp only [List.length_singleton]
          omega
        · omega
      · rename_i more
        obtain ⟨stored, counted⟩ := ih (offset + 1)
          (if (offset + 1) % 4096 = 0 then fs.blockAddr inode (offset + 1) else block) (by omega)
        constructor
        · rw [List.length_cons, stored]
          omega
        · rw [counted]
          omega

/-- No read stores more than it is asked for. -/
theorem length_stored_le (offset : Nat) (bufNull : Bool) (length : Nat) :
    (fs.readData inode offset bufNull length).stored.length ≤ length := by
  unfold readData
  split_ifs
  · exact Nat.zero_le length
  · exact Nat.zero_le length
  · exact length_readDataLoop_le length offset _

/-- A read from beyond the end stores nothing. -/
theorem readData_beyond {offset : Nat} (beyond : fs.fileLength inode < offset) (length : Nat) :
    fs.readData inode offset false length = ⟨0, []⟩ := by
  simp [readData, beyond]

/-- A read that ends inside the file stores the bytes it returns, and no others. -/
theorem readData_within (fits : fs.Fits) (file : fs.RegularFile inode) {offset length : Nat}
    (within : offset + length ≤ fs.fileLength inode) :
    fs.readData inode offset false length = ⟨length, fs.fileBytes inode offset length⟩ := by
  obtain ⟨value, bytes⟩ := readData_spec fits file offset length (by omega)
  have asked : min length (fs.fileLength inode - offset) = length := by omega
  rw [asked] at value bytes
  rw [List.take_of_length_le (length_stored_le offset false length)] at bytes
  cases read : fs.readData inode offset false length with
  | mk v s =>
      rw [read] at value bytes
      subst value bytes
      rfl

/-- A read that asks for more than is left stores one byte too many. -/
theorem readData_overrun (file : fs.RegularFile inode) {offset length : Nat}
    (inside : offset ≤ fs.fileLength inode) (passes : fs.fileLength inode < offset + length) :
    (fs.readData inode offset false length).value = (fs.fileLength inode - offset : Nat) ∧
      (fs.readData inode offset false length).stored.length =
        fs.fileLength inode - offset + 1 := by
  have short := file.length_le
  have started : ¬ fs.fileLength inode < offset := by omega
  obtain ⟨stored, counted⟩ := readDataLoop_lengths (by omega : fs.fileLength inode < 2 ^ 32 - 1)
    length offset (fs.blockAddr inode offset) inside
  simp only [readData, Bool.false_eq_true, if_false, if_neg started, stored, counted]
  constructor
  · rw [int32_of_lt (by omega)]
    congr 1
    omega
  · omega

/-- The caller's buffer holds the file's bytes up to the number returned, and what it held
before from there on. -/
def HandsOutFile (fs : Fs) (inode offset : Nat) (bufNull : Bool) (length : Nat) : Prop :=
  let read := fs.readData inode offset bufNull length
  ∀ (buf : CStr) (i : Nat), fillLocal read.stored buf i =
    if (i : Int) < read.value then fs.fileByte inode (offset + i) else buf i

/-- **What a read leaves in the buffer.** A read of a regular file hands out bytes of the
file and changes nothing else exactly when it does not run over the end. -/
theorem read_stores_only_returned (fits : fs.Fits) (file : fs.RegularFile inode)
    (offset : Nat) (bufNull : Bool) (length : Nat) :
    HandsOutFile fs inode offset bufNull length ↔
      bufNull = true ∨ fs.fileLength inode < offset ∨
        offset + length ≤ fs.fileLength inode := by
  constructor
  · intro handsOut
    by_contra fails
    rw [not_or, not_or, Bool.not_eq_true, Nat.not_lt, Nat.not_le] at fails
    obtain ⟨rfl, inside, passes⟩ := fails
    obtain ⟨value, stored⟩ := readData_overrun file inside passes
    -- a buffer with another byte where the stray one goes
    have last : fs.fileLength inode - offset <
        (fs.readData inode offset false length).stored.length := by omega
    have stray := handsOut
      (fun _ => (fs.readData inode offset false length).stored[fs.fileLength inode - offset] + 1)
      (fs.fileLength inode - offset)
    rw [value, if_neg (Int.lt_irrefl _), fillLocal, List.getElem?_eq_getElem last,
      Option.getD_some] at stray
    simp at stray
  · intro safe
    cases bufNull with
    | true =>
        intro buf i
        simp [readData, fillLocal]
    | false =>
        rcases safe with null | beyond | within
        · cases null
        · intro buf i
          simp [readData_beyond beyond, fillLocal]
        · intro buf i
          simp only [readData_within fits file within, fillLocal]
          by_cases lt : i < length
          · rw [if_pos (by omega)]
            simp [fileBytes, lt]
          · rw [if_neg (by omega), List.getElem?_eq_none (by rw [length_fileBytes]; omega)]
            rfl

/-- The first four bytes of a program of 32 are handed out, and nothing else. -/
theorem read_stores_only_returned_magic : HandsOutFile sample 0 0 false 4 := by
  have length : sample.fileLength 0 = 32 := by decide +kernel
  apply (read_stores_only_returned sample_fits (sample_regularFile 0 (by decide)) 0 false 4).mpr
  right
  right
  omega

/-- At 28 of 32, a read of 8 bytes returns 4 and stores 5: the last is a byte of the
block's padding. -/
theorem read_stores_stray_byte :
    (sample.readData 0 28 false 8).value = 4 ∧
      fillLocal (sample.readData 0 28 false 8).stored (fun _ => 0xff) 4 = 0 := by
  decide +kernel

/-! ### The lookups of a read -/

/-- A lookup of `read_data`: of an entry of the inode's block table, or of a byte of the
data block with some number. -/
inductive Access where
  | entry (index : Nat)
  | block (number : Nat)
  deriving DecidableEq, Repr

/-- The lookup keeps inside the table of 1023 entries, or inside the data blocks. -/
def Access.InImage (fs : Fs) : Access → Prop
  | .entry index => index < 1023
  | .block number => number < fs.dataBlockNum

/-- The copy loop with its lookups. `number` is that of the block `current_block` points
to. -/
def readDataLoopTraced (fs : Fs) (inode : Nat) :
    Nat → Nat → Nat → List Access × (List UInt8 × Nat)
  | 0, _, _ => ([], ([], 0))
  | n + 1, offset, number =>
      let byte := fs.mem ((fs.dataBlockAddr + number * 4096) % 2 ^ 32 + offset % 4096)
      let offset' := (offset + 1) % 2 ^ 32
      let number' := if offset' % 4096 = 0 then fs.dataEntry inode (offset' / 4096) else number
      let looked := .block number ::
        (if offset' % 4096 = 0 then [.entry (offset' / 4096)] else [])
      if fs.fileLength inode < offset' then (looked, ([byte], 0))
      else
        let rest := readDataLoopTraced fs inode n offset' number'
        (looked ++ rest.1, (byte :: rest.2.1, rest.2.2 + 1))

/-- `read_data` with its lookups. The first one stands before the offset is compared with
the length of the file. -/
def readDataTraced (fs : Fs) (inode offset : Nat) (bufNull : Bool) (length : Nat) :
    List Access × ReadResult :=
  if bufNull then ([], ⟨-1, []⟩)
  else if fs.fileLength inode < offset then ([.entry (offset / 4096)], ⟨0, []⟩)
  else
    let copied := fs.readDataLoopTraced inode length offset (fs.dataEntry inode (offset / 4096))
    (.entry (offset / 4096) :: copied.1, ⟨int32 copied.2.2, copied.2.1⟩)

theorem readDataLoopTraced_result (n offset number : Nat) :
    (fs.readDataLoopTraced inode n offset number).2 =
      fs.readDataLoop inode n offset ((fs.dataBlockAddr + number * 4096) % 2 ^ 32) := by
  induction n generalizing offset number with
  | zero => rfl
  | succ n ih =>
      simp only [readDataLoopTraced, readDataLoop, blockAddr]
      split
      · rfl
      · rw [ih]
        split <;> rfl

/-- Without its lookups the traced read is `read_data`. -/
theorem readDataTraced_result (offset : Nat) (bufNull : Bool) (length : Nat) :
    (fs.readDataTraced inode offset bufNull length).2 =
      fs.readData inode offset bufNull length := by
  unfold readDataTraced readData
  split
  · rfl
  · split
    · rfl
    · simp only [readDataLoopTraced_result, blockAddr]

/-- The lookups of the loop: the block of each offset it passes, and the table where the
next offset begins a block. -/
theorem mem_readDataLoopTraced (short : fs.fileLength inode < 2 ^ 32 - 1) (a : Access)
    (n offset : Nat) (inside : offset ≤ fs.fileLength inode) :
    a ∈ (fs.readDataLoopTraced inode n offset (fs.dataEntry inode (offset / 4096))).1 ↔
      ∃ i < n, offset + i ≤ fs.fileLength inode ∧
        (a = .block (fs.dataEntry inode ((offset + i) / 4096)) ∨
          (offset + i + 1) % 4096 = 0 ∧ a = .entry ((offset + i + 1) / 4096)) := by
  induction n generalizing offset with
  | zero => simp [readDataLoopTraced]
  | succ n ih =>
      have nowrap : (offset + 1) % 2 ^ 32 = offset + 1 := Nat.mod_eq_of_lt (by omega)
      have next : (if (offset + 1) % 4096 = 0 then fs.dataEntry inode ((offset + 1) / 4096)
          else fs.dataEntry inode (offset / 4096)) = fs.dataEntry inode ((offset + 1) / 4096) := by
        split
        · rfl
        · rw [show offset / 4096 = (offset + 1) / 4096 by omega]
      have here : a ∈ (Access.block (fs.dataEntry inode (offset / 4096)) ::
            if (offset + 1) % 4096 = 0 then [Access.entry ((offset + 1) / 4096)] else []) ↔
          a = .block (fs.dataEntry inode (offset / 4096)) ∨
            (offset + 1) % 4096 = 0 ∧ a = .entry ((offset + 1) / 4096) := by
        rw [List.mem_cons]
        split <;> simp_all
      simp only [readDataLoopTraced, nowrap, next]
      -- the first iteration, and the others one offset further on
      rw [Nat.exists_lt_succ_left]
      split
      · rename_i last
        rw [here]
        constructor
        · intro first
          exact .inl ⟨inside, first⟩
        · rintro (⟨-, first⟩ | ⟨i, -, le, -⟩)
          · exact first
          · omega
      · rename_i more
        rw [List.mem_append, here, ih (offset + 1) (by omega)]
        simp only [Nat.add_zero, inside, true_and, Nat.add_assoc, Nat.add_comm 1]

/-- What is asked of a read: no such inode is refused, and every other read keeps inside
the image. -/
structure StaysInImage (fs : Fs) (inode offset : Nat) (bufNull : Bool) (length : Nat) :
    Prop where
  refused : fs.inodeNum ≤ inode → fs.readData inode offset bufNull length = ⟨-1, []⟩
  inImage : inode < fs.inodeNum →
    ∀ a ∈ (fs.readDataTraced inode offset bufNull length).1, a.InImage fs

/-- An image whose inodes are all well-formed. -/
def WellFormedInodes (fs : Fs) : Prop := ∀ inode < fs.inodeNum, fs.RegularFile inode

/-- The reads that keep inside the image. The offset has to be one the table covers, also
when it is beyond the end of the file. A read that passes the end looks for a block after
the last one when the file ends with its block, and in the table when the next byte
would begin a block. -/
structure InsideImage (fs : Fs) (inode offset length : Nat) : Prop where
  inode_lt : inode < fs.inodeNum
  offset_lt : offset < 1023 * 4096
  table : offset ≤ fs.fileLength inode →
    fs.fileLength inode + 1 < 1023 * 4096 ∨ offset + length < 1023 * 4096
  block : offset ≤ fs.fileLength inode → fs.fileLength inode < offset + length →
    fs.fileLength inode % 4096 = 0 →
    fs.dataEntry inode (fs.fileLength inode / 4096) < fs.dataBlockNum

/-- No read of an inode that does not exist is refused. -/
theorem readData_ne_refused (offset length : Nat) :
    fs.readData inode offset false length ≠ ⟨-1, []⟩ := by
  intro refused
  simp only [readData, Bool.false_eq_true, if_false] at refused
  split at refused
  · cases refused
  · cases length with
    | zero => simp [readDataLoop, int32] at refused
    | succ n =>
        have stored := congrArg ReadResult.stored refused
        simp only [readDataLoop] at stored
        split at stored <;> cases stored

/-- The lookups of a read from inside the file. -/
theorem mem_readDataTraced (file : fs.RegularFile inode) (a : Access) {offset : Nat}
    (inside : offset ≤ fs.fileLength inode) (length : Nat) :
    a ∈ (fs.readDataTraced inode offset false length).1 ↔
      a = .entry (offset / 4096) ∨ ∃ i < length, offset + i ≤ fs.fileLength inode ∧
        (a = .block (fs.dataEntry inode ((offset + i) / 4096)) ∨
          (offset + i + 1) % 4096 = 0 ∧ a = .entry ((offset + i + 1) / 4096)) := by
  have short := file.length_le
  simp only [readDataTraced, Bool.false_eq_true, if_false, if_neg (Nat.not_lt.mpr inside),
    List.mem_cons, mem_readDataLoopTraced (by omega) a length offset inside]

/-- The first lookup is always made. -/
theorem first_mem_readDataTraced (offset length : Nat) :
    .entry (offset / 4096) ∈ (fs.readDataTraced inode offset false length).1 := by
  simp only [readDataTraced, Bool.false_eq_true, if_false]
  split <;> simp

/-- A read that meets the condition keeps inside the image. -/
theorem InsideImage.inImage {offset length : Nat} (safe : InsideImage fs inode offset length)
    (file : fs.RegularFile inode) {a : Access}
    (mem : a ∈ (fs.readDataTraced inode offset false length).1) : a.InImage fs := by
  have start := safe.offset_lt
  by_cases inside : offset ≤ fs.fileLength inode
  · rcases (mem_readDataTraced file a inside length).mp mem with
      rfl | ⟨i, lt, le, rfl | ⟨-, rfl⟩⟩
    · show offset / 4096 < 1023
      omega
    · show fs.dataEntry inode ((offset + i) / 4096) < fs.dataBlockNum
      by_cases own : (offset + i) / 4096 * 4096 < fs.fileLength inode
      · exact file.blocks _ own
      · -- the byte behind a file that ends with its block
        have last : offset + i = fs.fileLength inode := by omega
        rw [last]
        exact safe.block inside (by omega) (by omega)
    · show (offset + i + 1) / 4096 < 1023
      have := safe.table inside
      omega
  · simp only [readDataTraced, Bool.false_eq_true, if_false, if_pos (Nat.lt_of_not_le inside),
      List.mem_singleton] at mem
    subst mem
    show offset / 4096 < 1023
    omega

/-- A read of an existing inode that keeps inside the image meets the condition. -/
theorem InsideImage.of_inImage {offset length : Nat} (file : fs.RegularFile inode)
    (exists_ : inode < fs.inodeNum)
    (stays : ∀ a ∈ (fs.readDataTraced inode offset false length).1, a.InImage fs) :
    InsideImage fs inode offset length := by
  have start : offset / 4096 < 1023 := stays _ (first_mem_readDataTraced offset length)
  refine ⟨exists_, by omega, ?_, ?_⟩
  · intro inside
    by_contra fails
    -- the read reaches the end of the last block
    have looked := stays (.entry 1023) ((mem_readDataTraced file _ inside length).mpr
      (.inr ⟨1023 * 4096 - 1 - offset, by omega, by omega, .inr ⟨by omega, ?_⟩⟩))
    · exact absurd looked (Nat.lt_irrefl 1023)
    · rw [show (offset + (1023 * 4096 - 1 - offset) + 1) / 4096 = 1023 by omega]
  · intro inside passes _
    apply stays (.block _)
    apply (mem_readDataTraced file _ inside length).mpr
    refine .inr ⟨fs.fileLength inode - offset, by omega, by omega, .inl ?_⟩
    rw [Nat.add_sub_cancel' inside]

/-- **Reads that keep inside the image.** On every well-formed image, a read is refused or
keeps inside the image exactly when it has no buffer or meets `InsideImage`. -/
theorem read_stays_in_image (wellFormed : fs.WellFormedInodes) (inode offset : Nat) (bufNull : Bool)
    (length : Nat) :
    StaysInImage fs inode offset bufNull length ↔
      bufNull = true ∨ InsideImage fs inode offset length := by
  cases bufNull with
  | true =>
      constructor
      · intro _
        exact .inl rfl
      · intro _
        refine ⟨fun _ => rfl, ?_⟩
        intro _ a mem
        simp [readDataTraced] at mem
  | false =>
      constructor
      · intro stays
        have exists_ : inode < fs.inodeNum := by
          by_contra beyond
          exact readData_ne_refused offset length (stays.refused (Nat.not_lt.mp beyond))
        exact .inr (.of_inImage (wellFormed inode exists_) exists_ (stays.inImage exists_))
      · rintro (null | safe)
        · cases null
        · constructor
          · intro beyond
            exact absurd safe.inode_lt (Nat.not_lt.mpr beyond)
          · intro exists_ a mem
            exact safe.inImage (wellFormed inode exists_) mem

theorem sample_wellFormedInodes : sample.WellFormedInodes := by
  intro inode lt
  have count : sample.inodeNum = 2 := by decide +kernel
  exact sample_regularFile inode (by omega)

/-- A read of a whole program, and one byte more, keeps inside the sample image. -/
theorem read_stays_in_image_program : StaysInImage sample 0 0 false 33 := by
  have length : sample.fileLength 0 = 32 := by decide +kernel
  apply (read_stays_in_image sample_wellFormedInodes 0 0 false 33).mpr
  right
  refine ⟨by decide +kernel, by decide, ?_, ?_⟩
  · intro _
    left
    omega
  · intro _ _ full
    omega

/-- A read far beyond the end looks at entry 1023 of the table before it returns 0, and an
inode that does not exist is read. -/
theorem read_leaves_image :
    (sample.readDataTraced 0 (1023 * 4096) false 1).1 = [.entry 1023] ∧
      sample.inodeNum ≤ 2 ∧ (sample.readData 2 0 false 1).value = 1 := by
  decide +kernel

end Fs

end Linux391
