import Linux391.Library.Memory
import Linux391.Lib.Strings

/-!
The read-only file system of `drivers/fs.c`.

The image is a region of memory that starts at the boot block: one 4 KB boot
block (three counts and 63 directory entries of 64 bytes), then one 4 KB block
for each inode (a length and 1023 data-block numbers), then the data blocks.
Every access below is the address arithmetic of the source on that memory, so
an index out of range reads whatever follows, as the kernel does.

A buffer the code fills from index 0 upwards is returned as the list of the
bytes stored, in order.
-/

namespace Linux391

open Memory

/-- `boot_block` and the memory it points into. `num_directories` and
`num_inodes` are copies that `fs_init` takes of two words of the boot block. -/
structure Fs where
  mem : Mem
  bootBlock : Nat

/-- `dentry_t`: 64 bytes copied from the boot block. -/
structure Dentry where
  bytes : CStr

namespace Dentry

def filename (d : Dentry) : CStr := d.bytes
def filetype (d : Dentry) : Nat := load d.bytes 32 4
def inodeIndex (d : Dentry) : Nat := load d.bytes 36 4

theorem inodeIndex_lt (d : Dentry) : d.inodeIndex < 256 ^ 4 := load_lt _ _ _

end Dentry

/-- `RTC_TYPE`, `DIRECTORY_TYPE` and `FILE_TYPE` of `fs.h`. -/
def rtcType : Nat := 0
def directoryType : Nat := 1
def fileType : Nat := 2

namespace Fs

def dirEntryNum (fs : Fs) : Nat := load fs.mem fs.bootBlock 4
def inodeNum (fs : Fs) : Nat := load fs.mem (fs.bootBlock + 4) 4
def dataBlockNum (fs : Fs) : Nat := load fs.mem (fs.bootBlock + 8) 4

/-- `boot_block->dentry_directory[index]`, which starts at byte 64. -/
def dentry (fs : Fs) (index : Nat) : Dentry :=
  ⟨fun j => fs.mem (fs.bootBlock + 64 + 64 * index + j)⟩

/-- The directory slot whose name is `fname`: lengths first, then the characters. -/
def nameMatches (fs : Fs) (fname : CStr) (index : Nat) : Bool :=
  strlen fname == strlen (fs.dentry index).filename &&
    strncmp fname (fs.dentry index).filename (strlen fname) == 0

/-- `read_dentry_by_name`: `none` is the return value -1. -/
def readDentryByName (fs : Fs) (fname : CStr) : Option Dentry :=
  ((List.range fs.dirEntryNum).find? (fs.nameMatches fname)).map fs.dentry

/-- `read_dentry_by_index`: `none` is the return value -1. -/
def readDentryByIndex (fs : Fs) (index : Nat) : Option Dentry :=
  if index < fs.dirEntryNum then some (fs.dentry index) else none

/-! ### Reading a file -/

def inodeAddr (fs : Fs) (inode : Nat) : Nat := (fs.bootBlock + (inode + 1) * 4096) % 2 ^ 32
def dataBlockAddr (fs : Fs) : Nat := (fs.bootBlock + (fs.inodeNum + 1) * 4096) % 2 ^ 32

/-- `inode_addr->length`. -/
def fileLength (fs : Fs) (inode : Nat) : Nat := load fs.mem (fs.inodeAddr inode) 4

/-- `inode_addr->data[k]`, with no bound on `k`, as in the source. -/
def dataEntry (fs : Fs) (inode k : Nat) : Nat := load fs.mem (fs.inodeAddr inode + 4 + 4 * k) 4

/-- `current_block` for an offset into the file. -/
def blockAddr (fs : Fs) (inode offset : Nat) : Nat :=
  (fs.dataBlockAddr + fs.dataEntry inode (offset / 4096) * 4096) % 2 ^ 32

/-- The copy loop of `read_data` with `n` iterations left: the bytes it stores
and `bytes_in_block_read`. The end-of-file test stands after the store and the
increment, so the last byte stored may lie past the end of the file. -/
def readDataLoop (fs : Fs) (inode : Nat) : Nat → Nat → Nat → List UInt8 × Nat
  | 0, _, _ => ([], 0)
  | n + 1, offset, block =>
      let byte := fs.mem (block + offset % 4096)
      let offset' := (offset + 1) % 2 ^ 32
      let block' := if offset' % 4096 = 0 then fs.blockAddr inode offset' else block
      if fs.fileLength inode < offset' then ([byte], 0)
      else
        let rest := readDataLoop fs inode n offset' block'
        (byte :: rest.1, rest.2 + 1)

/-- What `read_data` returns and the bytes it stores from `buf[0]` on. The
parameters are unsigned, so of its sanity checks only `buf == NULL` can fire. -/
structure ReadResult where
  value : Int
  stored : List UInt8

def readData (fs : Fs) (inode offset : Nat) (bufNull : Bool) (length : Nat) : ReadResult :=
  if bufNull then ⟨-1, []⟩
  else if fs.fileLength inode < offset then ⟨0, []⟩
  else
    let copied := fs.readDataLoop inode length offset (fs.blockAddr inode offset)
    ⟨int32 copied.2, copied.1⟩

/-! ### Programs -/

/-- A four-byte local array after `read_data` stored into it: the bytes stored,
then what the stack held. -/
def fillLocal (stored : List UInt8) (stack : CStr) : CStr := fun i => (stored[i]?).getD (stack i)

/-- `executable_check`; `true` is a non-zero result, "not an executable".
`magicBuf` is what the uninitialised local array holds. -/
def executableCheck (fs : Fs) (dentry : Dentry) (magicBuf : CStr) : Bool :=
  let read := fs.readData dentry.inodeIndex 0 false 4
  if read.value = 0 then false
  else
    let buf := fillLocal read.stored magicBuf
    !(buf 0 == 0x7f && buf 1 == 0x45 && buf 2 == 0x4c && buf 3 == 0x46)

/-- What `loader` returns, as a `uint32_t`, and the bytes it stores from
`USER_PROGRAM_VIRTUAL_START + USER_PROGRAM_OFFSET` on. -/
structure Loaded where
  value : Nat
  program : List UInt8

/-- `loader`; `entryPoint` is what its uninitialised local array holds. -/
def loader (fs : Fs) (filename : CStr) (entryPoint : CStr) : Loaded :=
  match fs.readDentryByName filename with
  | none => ⟨0xFFFFFFFF, []⟩
  | some dentry =>
      let program := fs.readData dentry.inodeIndex 0 false (0x400000 - 0x48000)
      let entry := fs.readData dentry.inodeIndex 24 false 4
      ⟨load (fillLocal entry.stored entryPoint) 0 4, program.stored⟩

/-- An image with the programs `shell` and `bad`, the second with the entry point -1, and
the clock `rtc`. Both programs are 32 bytes long. -/
def sample : Fs where
  bootBlock := 0
  mem x :=
    let at_ := fun (start : Nat) (bytes : List UInt8) => bytes.getD (x - start) 0
    let name := fun (bytes : List UInt8) => bytes ++ List.replicate (32 - bytes.length) 0
    if x < 64 then at_ 0 [3, 0, 0, 0, 2, 0, 0, 0, 2]
    else if x < 128 then at_ 64 (name [115, 104, 101, 108, 108] ++ [2])
    else if x < 192 then at_ 128 (name [98, 97, 100] ++ [2, 0, 0, 0, 1])
    else if x < 256 then at_ 192 (name [114, 116, 99])
    else if x < 4096 then 0
    else if x < 8192 then at_ 4096 [32]
    else if x < 12288 then at_ 8192 [32, 0, 0, 0, 1]
    else if x < 16384 then
      at_ 12288 ([0x7f, 0x45, 0x4c, 0x46] ++ List.replicate 20 0 ++ [0x00, 0x80, 0x04, 0x08])
    else
      at_ 16384 ([0x7f, 0x45, 0x4c, 0x46] ++ List.replicate 20 0 ++ [0xff, 0xff, 0xff, 0xff])

end Fs

end Linux391
