import Linux391.Drivers.Fs
import Mathlib.Tactic.IntervalCases

/-!
What `read_data` delivers from a regular file.

`Fs.fileByte` is the content of a file: byte `i` is byte `i % 4096` of the data
block numbered `data[i / 4096]`. For a well-formed file and an offset inside it,
the copy loop counts `min length (L - offset)` bytes, and the bytes stored up to
that count are the file's own (`readData_spec`).
-/

namespace Linux391

open Memory

namespace Fs

/-- Byte `j` of data block `block`. -/
def blockByte (fs : Fs) (block j : Nat) : UInt8 := fs.mem (fs.dataBlockAddr + block * 4096 + j)

/-- Byte `i` of the file of an inode. -/
def fileByte (fs : Fs) (inode i : Nat) : UInt8 :=
  fs.blockByte (fs.dataEntry inode (i / 4096)) (i % 4096)

/-- The `count` bytes of the file from `offset` on. -/
def fileBytes (fs : Fs) (inode offset count : Nat) : List UInt8 :=
  (List.range count).map fun i => fs.fileByte inode (offset + i)

/-- The image lies inside the 32-bit address space. -/
def Fits (fs : Fs) : Prop := fs.bootBlock + (1 + fs.inodeNum + fs.dataBlockNum) * 4096 ≤ 2 ^ 32

/-- A well-formed regular file: its length fits the inode's 1023 block numbers, and
the blocks it uses exist. Block numbers past its last block may hold anything. -/
structure RegularFile (fs : Fs) (inode : Nat) : Prop where
  length_le : fs.fileLength inode ≤ 1023 * 4096
  blocks : ∀ k, k * 4096 < fs.fileLength inode → fs.dataEntry inode k < fs.dataBlockNum

section

variable {fs : Fs} {inode : Nat}

theorem length_fileBytes (offset count : Nat) :
    (fs.fileBytes inode offset count).length = count := by
  simp [fileBytes]

theorem fileBytes_succ (offset count : Nat) :
    fs.fileBytes inode offset (count + 1) =
      fs.fileByte inode offset :: fs.fileBytes inode (offset + 1) count := by
  simp only [fileBytes, List.range_succ_eq_map, List.map_cons, List.map_map, Nat.add_zero]
  refine List.cons_eq_cons.mpr ⟨rfl, List.map_congr_left fun i _ => ?_⟩
  simp only [Function.comp_apply]
  rw [show offset + i.succ = offset + 1 + i by omega]

theorem fileBytes_append (offset m n : Nat) :
    fs.fileBytes inode offset (m + n) =
      fs.fileBytes inode offset m ++ fs.fileBytes inode (offset + m) n := by
  induction m generalizing offset with
  | zero => simp [fileBytes]
  | succ m ih =>
      rw [show m + 1 + n = (m + n) + 1 by omega, fileBytes_succ, fileBytes_succ, ih]
      simp [Nat.add_assoc, Nat.add_comm 1 m]

/-- Inside the file the block pointer does not wrap around. -/
theorem blockAddr_of_lt (fits : fs.Fits) (file : fs.RegularFile inode) {offset : Nat}
    (inside : offset < fs.fileLength inode) :
    fs.blockAddr inode offset =
      fs.dataBlockAddr + fs.dataEntry inode (offset / 4096) * 4096 := by
  have valid := file.blocks (offset / 4096) (by omega)
  unfold Fits at fits
  unfold blockAddr dataBlockAddr
  omega

theorem mem_block (fits : fs.Fits) (file : fs.RegularFile inode) {offset : Nat}
    (inside : offset < fs.fileLength inode) :
    fs.mem (fs.blockAddr inode offset + offset % 4096) = fs.fileByte inode offset := by
  rw [blockAddr_of_lt fits file inside]
  rfl

/-- After the increment the loop holds the block of the new offset, whether or
not it has just crossed a block boundary. -/
theorem blockAddr_step (offset : Nat) :
    (if (offset + 1) % 4096 = 0 then fs.blockAddr inode (offset + 1)
      else fs.blockAddr inode offset) = fs.blockAddr inode (offset + 1) := by
  split
  · rfl
  · rename_i same
    have block : offset / 4096 = (offset + 1) / 4096 := by omega
    simp only [blockAddr, block]

theorem length_readDataLoop_le (n offset block : Nat) :
    (fs.readDataLoop inode n offset block).1.length ≤ n := by
  induction n generalizing offset block with
  | zero => exact Nat.le_refl 0
  | succ n ih =>
      simp only [readDataLoop]
      split
      · exact Nat.succ_le_succ (Nat.zero_le n)
      · exact Nat.succ_le_succ (ih _ _)

/-- A program never reaches past its 4 MB window. -/
theorem length_loader_le (fs : Fs) (filename entryPoint : CStr) :
    (fs.loader filename entryPoint).program.length ≤ 0x400000 - 0x48000 := by
  simp only [loader]
  split
  · exact Nat.zero_le _
  · simp only [readData, Bool.false_eq_true, if_false]
    split
    · exact Nat.zero_le _
    · exact length_readDataLoop_le _ _ _

theorem readDataLoop_spec (fits : fs.Fits) (file : fs.RegularFile inode) (n offset : Nat)
    (inside : offset ≤ fs.fileLength inode) :
    (fs.readDataLoop inode n offset (fs.blockAddr inode offset)).2 =
        min n (fs.fileLength inode - offset) ∧
      (fs.readDataLoop inode n offset (fs.blockAddr inode offset)).1.take
          (min n (fs.fileLength inode - offset)) =
        fs.fileBytes inode offset (min n (fs.fileLength inode - offset)) := by
  have short := file.length_le
  induction n generalizing offset with
  | zero => simp [readDataLoop, fileBytes]
  | succ n ih =>
      have nowrap : (offset + 1) % 2 ^ 32 = offset + 1 := Nat.mod_eq_of_lt (by omega)
      simp only [readDataLoop, nowrap, blockAddr_step]
      by_cases last : fs.fileLength inode < offset + 1
      · -- the read starts at the end of the file: one byte is stored, none is counted
        have atEnd : fs.fileLength inode - offset = 0 := by omega
        simp [last, atEnd, fileBytes]
      · obtain ⟨count, bytes⟩ := ih (offset + 1) (by omega)
        have more : min (n + 1) (fs.fileLength inode - offset) =
            min n (fs.fileLength inode - (offset + 1)) + 1 := by omega
        simp only [if_neg last, more, count, List.take_succ_cons, bytes, fileBytes_succ,
          mem_block fits file (show offset < fs.fileLength inode by omega), and_self]

/-- A read inside the file returns the number of bytes left, at most the number
asked for, and fills the buffer with the file's bytes up to that number. -/
theorem readData_spec (fits : fs.Fits) (file : fs.RegularFile inode) (offset length : Nat)
    (inside : offset ≤ fs.fileLength inode) :
    (fs.readData inode offset false length).value =
        (min length (fs.fileLength inode - offset) : Nat) ∧
      (fs.readData inode offset false length).stored.take
          (min length (fs.fileLength inode - offset)) =
        fs.fileBytes inode offset (min length (fs.fileLength inode - offset)) := by
  obtain ⟨count, bytes⟩ := readDataLoop_spec fits file length offset inside
  have short := file.length_le
  have started : ¬ fs.fileLength inode < offset := Nat.not_lt.mpr inside
  constructor
  · simp only [readData, Bool.false_eq_true, if_false, if_neg started, count]
    exact int32_of_lt (by omega)
  · simpa only [readData, Bool.false_eq_true, if_false, if_neg started] using bytes

end

theorem sample_fits : sample.Fits := by
  unfold Fits
  decide +kernel

/-- The two programs of the sample image are well-formed files of one block. -/
theorem sample_regularFile (inode : Nat) (exists_ : inode < 2) : sample.RegularFile inode := by
  have length : sample.fileLength inode = 32 := by
    interval_cases inode <;> decide +kernel
  have block : sample.dataEntry inode 0 < sample.dataBlockNum := by
    interval_cases inode <;> decide +kernel
  refine ⟨by omega, fun k inside => ?_⟩
  obtain rfl : k = 0 := by omega
  exact block

end Fs

end Linux391
