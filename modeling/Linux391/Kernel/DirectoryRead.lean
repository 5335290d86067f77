import Linux391.Drivers.Directory
import Linux391.Kernel.SequentialRead

/-!
Reading a directory.

Each `dir_read` through an open directory delivers the C string at the name of the next
entry, until all were delivered. `file_position` counts them (`Listing`), whatever is
read through other descriptors in between. Looking up a string so delivered finds the
first entry that reads as that string, since `read_dentry_by_name` compares the same C
strings. The copy does not look at the size of the buffer, and a name that fills its
field runs on into the type (`dir_read_respects_buffer`).
-/

namespace Linux391

open Memory

/-- An entry that reads as a C string of its own: it is not empty, and ends in the type at
the latest. -/
structure Dentry.Listed (d : Dentry) : Prop where
  nonempty : d.bytes 0 ≠ 0
  ends : ∃ i < 4, d.bytes (32 + i) = 0

structure Fs.ListedDirectory (fs : Fs) : Prop where
  count_le : fs.dirEntryNum ≤ 63
  entries : ∀ i < fs.dirEntryNum, (fs.dentry i).Listed

theorem Dentry.Listed.length_pos {d : Dentry} (listed : d.Listed) : 0 < strlen d.filename := by
  by_contra none
  have empty : strlen d.filename = 0 := by omega
  obtain ⟨i, lt, stop⟩ := listed.ends
  have zero : d.filename (strlen d.filename) = 0 := strlen_stop stop (by omega)
  rw [empty] at zero
  exact listed.nonempty zero

namespace Platform

variable {P : Platform}

/-- The strings of the first `n` entries, one after the other. -/
def entryStrings (fs : Fs) (n : Nat) : List UInt8 :=
  ((List.range n).map fun i => (fs.dentry i).filename.chars).flatten

/-- How many calls of a sequence use descriptor `own`. -/
def ownCalls (own : Fin 8) (calls : List ReadCall) : Nat :=
  (calls.filter fun c => c.fd = own).length

/-- Calls that use the descriptor read the directory with it. -/
def ListsOwn (own : Fin 8) (c : ReadCall) : Prop := c.fd = own → c = .dir own

/-- `file_open` leaves a directory at its beginning. -/
theorem listing_of_fileOpen {k k' : Kernel} {p : Nat} {filename : CStr} {dentry : Dentry}
    {fileOpTbl : Nat} {fd : Fin 8} (here : k.curr = getPcb p) (lt : p < 16)
    (found : P.fs.readDentryByName filename = some dentry)
    (directory : dentry.filetype = directoryType)
    (opened : P.fileOpen k filename fileOpTbl = some (fd, k')) : Reading p fd 0 0 k' := by
  obtain ⟨dentry', found', _, rfl⟩ := fileOpen_eq_some opened
  obtain rfl : dentry = dentry' := Option.some.inj (found.symm.trans found')
  have assigns : P.openAssignments dentry fd = [(.fileOperationJmpTbl fd, P.drivers.addr .dir)] := by
    have notFile : dentry.filetype ≠ fileType := by
      rw [directory]
      decide
    rw [openAssignments, if_neg notFile, if_pos directory]
  refine ⟨here, ?_, ?_, ?_⟩
  · rw [Kernel.field_setAll here lt, assigns]
    simp [assigned, PcbField.size]
  · rw [Kernel.field_setAll here lt, assigns]
    simp [assigned, PcbField.size]
  · rw [Kernel.field_setAll here lt, assigns]
    simp [assigned, PcbField.size]

/-- A call with entries left delivers the next one. -/
theorem Reading.nextEntry {p : Nat} {fd : Fin 8} {count : Nat} {k : Kernel}
    (h : Reading p fd 0 count k) (lt : p < 16) (listed : P.fs.ListedDirectory)
    (more : count < P.fs.dirEntryNum) :
    let io := P.dirRead k fd
    io.value = strlen (P.fs.dentry count).filename ∧
      io.stored = strcpyBytes (P.fs.dentry count).filename ∧
      Reading p fd 0 (count + 1) io.kernel := by
  have small := listed.count_le
  have eq : P.dirRead k fd = ⟨strlen (P.fs.dentry count).filename,
      strcpyBytes (P.fs.dentry count).filename, k.setField (.filePosition fd) (count + 1)⟩ := by
    simp only [dirRead, h.position_eq, Fs.readDentryByIndex, if_pos more]
  rw [eq]
  refine ⟨rfl, rfl, ⟨h.here, ?_, ?_, ?_⟩⟩
  · rw [Kernel.field_setField h.here lt, if_neg (by simp)]
    exact h.isOpen
  · rw [Kernel.field_setField h.here lt, if_neg (by simp)]
    exact h.inode_eq
  · rw [Kernel.field_setField h.here lt, if_pos rfl]
    exact Nat.mod_eq_of_lt (show count + 1 < 2 ^ 32 by omega)

/-- A call after the last entry changes nothing. -/
theorem Reading.noEntry {p : Nat} {fd : Fin 8} {count : Nat} {k : Kernel}
    (h : Reading p fd 0 count k) (last : P.fs.dirEntryNum ≤ count) :
    P.dirRead k fd = ⟨0, [], k⟩ := by
  simp only [dirRead, h.position_eq, Fs.readDentryByIndex, if_neg (Nat.not_lt.mpr last)]

theorem entryStrings_succ (fs : Fs) (n : Nat) :
    entryStrings fs (n + 1) = entryStrings fs n ++ (fs.dentry n).filename.chars := by
  simp [entryStrings, List.range_succ]

/-- The position counts the entries delivered by any sequence of calls. -/
theorem Reading.listing {p : Nat} {fd : Fin 8} {k : Kernel} (start : Reading p fd 0 0 k)
    (lt : p < 16) (listed : P.fs.ListedDirectory) (calls : List ReadCall)
    (own : ∀ c ∈ calls, ListsOwn fd c) :
    let count := min (ownCalls fd calls) P.fs.dirEntryNum
    Reading p fd 0 count (P.readCalls fd k calls).1 ∧
      (P.readCalls fd k calls).2 = entryStrings P.fs count := by
  induction calls using List.reverseRecOn with
  | nil =>
      exact ⟨by simpa [readCalls, ownCalls] using start,
        by simp [readCalls, ownCalls, entryStrings]⟩
  | append_singleton calls c ih =>
      obtain ⟨reading, delivered⟩ := ih fun c' mem => own c' (by simp [mem])
      rw [readCalls_append]
      by_cases mine : c.fd = fd
      · obtain rfl := own c (by simp) mine
        have counted : ownCalls fd (calls ++ [.dir fd]) = ownCalls fd calls + 1 := by
          simp [ownCalls, ReadCall.fd]
        rw [counted]
        by_cases more : ownCalls fd calls < P.fs.dirEntryNum
        · have before : min (ownCalls fd calls) P.fs.dirEntryNum = ownCalls fd calls := by omega
          have after : min (ownCalls fd calls + 1) P.fs.dirEntryNum = ownCalls fd calls + 1 := by
            omega
          rw [before] at reading delivered
          obtain ⟨value, stored, next⟩ := reading.nextEntry lt listed more
          rw [after]
          refine ⟨next, ?_⟩
          have string : (strcpyBytes (P.fs.dentry (ownCalls fd calls)).filename).take
              (strlen (P.fs.dentry (ownCalls fd calls)).filename) =
              (P.fs.dentry (ownCalls fd calls)).filename.chars := by
            rw [strcpyBytes, ← length_chars, List.take_left]
          simp only [readCall, ReadCall.fd, if_true, value, Int.toNat_natCast, stored, delivered]
          rw [string, entryStrings_succ]
        · have before : min (ownCalls fd calls) P.fs.dirEntryNum = P.fs.dirEntryNum := by omega
          have after : min (ownCalls fd calls + 1) P.fs.dirEntryNum = P.fs.dirEntryNum := by omega
          rw [before] at reading delivered
          simp only [readCall, reading.noEntry (Nat.le_refl _), after, List.take_nil,
            List.append_nil, ite_self]
          exact ⟨reading, delivered⟩
      · have same : ownCalls fd (calls ++ [c]) = ownCalls fd calls := by
          simp [ownCalls, mine]
        simp only [same, if_neg mine]
        exact ⟨reading.other lt mine, delivered⟩

/-- Looking up a delivered string finds the first entry that reads as it. -/
theorem lookup_delivered {fs : Fs} {i : Nat} (listed : fs.ListedDirectory)
    (lt : i < fs.dirEntryNum) {buf : CStr}
    (copied : ∀ j < (strcpyBytes (fs.dentry i).filename).length,
      buf j = (strcpyBytes (fs.dentry i).filename).getD j 0) :
    ∃ j ≤ i, fs.readDentryByName buf = some (fs.dentry j) ∧
      (fs.dentry j).filename.chars = (fs.dentry i).filename.chars ∧
      ∀ l < j, (fs.dentry l).filename.chars ≠ (fs.dentry i).filename.chars := by
  obtain ⟨e, lte, stop⟩ := (listed.entries i lt).ends
  have short : strlen (fs.dentry i).filename ≤ 32 + e := strlen_le stop
  have string := chars_of_strcpyBytes (by omega) copied
  have matches_ : fs.nameMatches buf i = true := Fs.nameMatches_iff.mpr string
  cases found : (List.range fs.dirEntryNum).find? (fs.nameMatches buf) with
  | none => exact absurd matches_ (List.find?_eq_none.mp found i (List.mem_range.mpr lt))
  | some j =>
      obtain ⟨isMatch, j', inside, at_j, before⟩ := List.find?_eq_some_iff_getElem.mp found
      rw [List.length_range] at inside
      rw [List.getElem_range] at at_j
      subst at_j
      have earlier : ∀ l < j', fs.nameMatches buf l ≠ true := by
        intro l ltl
        have := before l ltl
        simpa using this
      refine ⟨j', ?_, by simp [Fs.readDentryByName, found], ?_, ?_⟩
      · by_contra beyond
        exact earlier i (by omega) matches_
      · rw [← Fs.nameMatches_iff.mp isMatch, string]
      · intro l ltl same
        exact earlier l ltl (Fs.nameMatches_iff.mpr (string.trans same.symm))

/-- **Enumerating the directory.** A directory is opened on a descriptor and the process
makes any sequence of reads. The strings delivered through that descriptor are those of
the entries in order; the next call delivers the entry that follows with its length, or
returns 0 and moves nothing when there is none left. Every string delivered is found
again, at the first entry that reads as it. -/
theorem directory_enumeration {k k' : Kernel} {p : Nat} {filename : CStr} {dentry : Dentry}
    {fileOpTbl : Nat} {fd : Fin 8} (here : k.curr = getPcb p) (lt : p < 16)
    (listed : P.fs.ListedDirectory) (found : P.fs.readDentryByName filename = some dentry)
    (directory : dentry.filetype = directoryType)
    (opened : P.fileOpen k filename fileOpTbl = some (fd, k')) (calls : List ReadCall)
    (own : ∀ c ∈ calls, ListsOwn fd c) :
    let n := ownCalls fd calls
    let r := P.readCalls fd k' calls
    let io := P.dirRead r.1 fd
    r.2 = entryStrings P.fs (min n P.fs.dirEntryNum) ∧
      r.1.field (.filePosition fd) = min n P.fs.dirEntryNum ∧
      (n < P.fs.dirEntryNum →
        io.stored = (P.fs.dentry n).filename.chars ++ [0] ∧
        io.value = (P.fs.dentry n).filename.chars.length ∧ 0 < io.value ∧
        io.kernel.field (.filePosition fd) = n + 1 ∧
        ∀ buf : CStr, (∀ j < io.stored.length, buf j = io.stored.getD j 0) →
          ∃ j ≤ n, P.fs.readDentryByName buf = some (P.fs.dentry j) ∧
            (P.fs.dentry j).filename.chars = (P.fs.dentry n).filename.chars ∧
            ∀ l < j, (P.fs.dentry l).filename.chars ≠ (P.fs.dentry n).filename.chars) ∧
      (P.fs.dirEntryNum ≤ n → io.value = 0 ∧ io.kernel = r.1) := by
  intro n r io
  have start := listing_of_fileOpen here lt found directory opened
  obtain ⟨reading, delivered⟩ := start.listing lt listed calls own
  refine ⟨delivered, reading.position_eq, ?_, ?_⟩
  · intro more
    have count : min n P.fs.dirEntryNum = n := by omega
    have reading' : Reading p fd 0 n r.1 := count ▸ reading
    obtain ⟨value, stored, next⟩ := reading'.nextEntry lt listed more
    have positive := (listed.entries n more).length_pos
    refine ⟨stored, ?_, ?_, next.position_eq, ?_⟩
    · rw [length_chars]
      exact value
    · show 0 < (P.dirRead r.1 fd).value
      rw [value]
      exact_mod_cast positive
    · intro buf copied
      have eq : io.stored = strcpyBytes (P.fs.dentry n).filename := stored
      rw [eq] at copied
      exact lookup_delivered listed more copied
  · intro last
    have count : min n P.fs.dirEntryNum = P.fs.dirEntryNum := by omega
    have reading' : Reading p fd 0 P.fs.dirEntryNum r.1 := count ▸ reading
    have none := reading'.noEntry (Nat.le_refl _)
    exact ⟨congrArg Io.value none, congrArg Io.kernel none⟩

/-- The sample system over an image with the directory `.` and the file `a`. -/
def sampleFolder : Platform :=
  { sample with
    fs := ⟨fun x => if x = 0 then 2 else if x = 64 then 46 else if x = 96 then 1
      else if x = 128 then 97 else if x = 160 then 2 else 0, 0⟩ }

theorem sampleFolder_listed : sampleFolder.fs.ListedDirectory where
  count_le := by decide +kernel
  entries i lt := by
    have count : sampleFolder.fs.dirEntryNum = 2 := by decide +kernel
    rw [count] at lt
    interval_cases i
    · exact ⟨by decide +kernel, 1, by decide, by decide +kernel⟩
    · exact ⟨by decide +kernel, 1, by decide, by decide +kernel⟩

/-- Three reads of the directory deliver its two names. -/
theorem directory_enumeration_folder :
    ∃ k', sampleFolder.fileOpen (Kernel.blank 1) (cLit [46]) 0 = some (2, k') ∧
      (sampleFolder.readCalls 2 k' [.dir 2, .dir 2, .dir 2]).2 = [46, 97] := by
  have named : sampleFolder.fs.readDentryByName (cLit [46]) = some (sampleFolder.fs.dentry 0) := by
    have index : (List.range sampleFolder.fs.dirEntryNum).find?
        (sampleFolder.fs.nameMatches (cLit [46])) = some 0 := by decide +kernel
    rw [Fs.readDentryByName, index, Option.map_some]
  have first : firstClosed (Kernel.blank 1).mem (Kernel.blank 1).curr = some 2 := by decide +kernel
  cases opened : sampleFolder.fileOpen (Kernel.blank 1) (cLit [46]) 0 with
  | none =>
      rcases fileOpen_eq_none opened with missing | full
      · rw [named] at missing
        cases missing
      · rw [first] at full
        cases full
  | some result =>
      obtain ⟨fd, k'⟩ := result
      obtain ⟨-, -, closed, -⟩ := fileOpen_eq_some opened
      obtain rfl : 2 = fd := Option.some.inj (first.symm.trans closed)
      have own : ∀ c ∈ [ReadCall.dir 2, .dir 2, .dir 2], ListsOwn 2 c := by
        intro c mem _
        simpa using mem
      have delivered := (directory_enumeration (Kernel.blank_curr (by decide)) (by decide)
        sampleFolder_listed named (by decide +kernel) opened _ own).1
      have strings : entryStrings sampleFolder.fs
          (min (ownCalls 2 [.dir 2, .dir 2, .dir 2]) sampleFolder.fs.dirEntryNum) = [46, 97] := by
        decide +kernel
      exact ⟨k', rfl, delivered.trans strings⟩

/-! ### The caller's buffer -/

/-- What is asked of `dir_read` with room for `n` bytes: it stores at most `n`, and returns
at most `n` and 32, the length of a front part of the entry's name. -/
structure RespectsBuffer (P : Platform) (k : Kernel) (fd : Fin 8) (n : Nat) : Prop where
  stored_le : (P.dirRead k fd).stored.length ≤ n
  value_le : (P.dirRead k fd).value ≤ (min n 32 : Nat)
  name : (P.dirRead k fd).stored.take (P.dirRead k fd).value.toNat <+:
    (P.fs.dentry (k.field (.filePosition fd))).name

/-- **The buffer of dir_read.** On a directory in the format, a call respects the buffer
exactly when no entry is left, or the name fits with its NUL and does not run on into the
type. -/
theorem dir_read_respects_buffer (named : P.fs.NamedDirectory) (k : Kernel) (fd : Fin 8)
    (n : Nat) :
    RespectsBuffer P k fd n ↔
      P.fs.dirEntryNum ≤ k.field (.filePosition fd) ∨
        (P.fs.dentry (k.field (.filePosition fd))).name.length < n ∧
          ¬ (P.fs.dentry (k.field (.filePosition fd))).Overrun := by
  by_cases last : P.fs.dirEntryNum ≤ k.field (.filePosition fd)
  · have none : P.dirRead k fd = ⟨0, [], k⟩ := by
      simp only [dirRead, Fs.readDentryByIndex, if_neg (Nat.not_lt.mpr last)]
    constructor
    · intro _
      exact .inl last
    · intro _
      constructor
      · simp [none]
      · simp [none]
      · simp [none]
  · have more := Nat.lt_of_not_le last
    generalize entry : P.fs.dentry (k.field (.filePosition fd)) = d
    have onDisk : d.OnDisk := entry ▸ named.entries _ more
    have value : (P.dirRead k fd).value = d.filename.chars.length := by
      simp only [dirRead, Fs.readDentryByIndex, if_pos more, entry, length_chars]
    have stored : (P.dirRead k fd).stored = d.filename.chars ++ [0] := by
      simp only [dirRead, Fs.readDentryByIndex, if_pos more, entry]
      rfl
    have chars := d.chars_filename onDisk
    constructor
    · rintro ⟨stored_le, value_le, -⟩
      right
      by_cases overrun : d.Overrun
      · -- the type is a character too many
        rw [if_pos overrun] at chars
        rw [value, chars, List.length_append, overrun.1] at value_le
        simp only [List.length_singleton] at value_le
        omega
      · rw [if_neg overrun] at chars
        rw [stored, chars, List.length_append, List.length_singleton] at stored_le
        exact ⟨by omega, overrun⟩
    · rintro (none | ⟨fits, notOver⟩)
      · exact absurd none last
      · rw [if_neg notOver] at chars
        have short := d.length_name_le
        constructor
        · rw [stored, chars, List.length_append, List.length_singleton]
          omega
        · rw [value, chars]
          omega
        · rw [value, stored, chars, Int.toNat_natCast, List.take_left, entry]

/-- The first name of the sample directory, read into a buffer of six bytes. -/
theorem dir_read_respects_buffer_shell : RespectsBuffer sample (Kernel.blank 1) 2 6 := by
  apply (dir_read_respects_buffer Fs.sample_namedDirectory (Kernel.blank 1) 2 6).mpr
  decide +kernel

/-- The sample system over an image whose only file has a name of 32 letters. -/
def sampleFullName : Platform := { sample with fs := Fs.sampleFullName }

/-- The name of 32 letters fills 34 bytes of a buffer of 33, and a short one does not care
about the buffer at all. -/
theorem dir_read_overruns :
    (sampleFullName.dirRead (Kernel.blank 1) 2).value = 33 ∧
      (sampleFullName.dirRead (Kernel.blank 1) 2).stored.length = 34 ∧
      (sample.dirRead (Kernel.blank 1) 2).stored = [115, 104, 101, 108, 108, 0] := by
  decide +kernel

end Platform

end Linux391
