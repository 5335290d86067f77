import Linux391.Syscalls.Session

/-!
`ece391cat` and `ece391ls`.

Both open something, read it piece by piece and write each piece to the terminal. Whatever the other
processes and the interrupts do in between, what is written is what was to be read: the bytes of a
file (`cat_prints`), or the names in the directory, each on its line (`ls_prints`).

`cat` does not care what it is given. Of a directory it writes the names one after the other,
without anything between them, and of the clock nothing. Its array is long enough for all of them.
That of `ls` is not: `dir_read` ignores how many bytes it is asked for, and a name of 32 characters
has no NUL of its own. A program that has left its array ends with `none` here.
-/

namespace Linux391.User

open Memory Platform Interaction

variable {P : Platform} {p : Nat} {v : View} {s : Session} {fd : Fin 8}

/-! ### The programs -/

/-- The loop of both: read, and write what `form` makes of the buffer and the count. The `inl` of a
round is the buffer, the `inr` what `main` returns, or `none` if an access was outside the array of
`size` bytes. -/
def copyLoop (size : Nat) (nbytes : Int) (failed : String) (form : CStr → Int → CStr × Int)
    (fd : Int) (buf : CStr) : Program (CStr ⊕ Option Int) := do
  let reply ← ece391Read fd nbytes
  if size < reply.stored.length then
    return .inr none
  else
    let buf := storeBytes buf 0 reply.stored
    let cnt := reply.value
    if cnt = 0 then
      return .inr (some 0)
    else if cnt = -1 then
      ece391Fdputs 1 (text failed)
      return .inr (some 3)
    else
      let (buf, n) := form buf cnt
      if size < n then
        return .inr none
      else
        let written ← ece391Write 1 buf n
        if written = -1 then return .inr (some 3) else return .inl buf

/-- `buf[cnt] = '\n'`, and one byte more is written. -/
def lsForm (buf : CStr) (cnt : Int) : CStr × Int := (Function.update buf cnt.toNat 10, cnt + 1)

/-- The `main` of `ece391ls`. -/
def ls (fuel : Nat) (buf : CStr) : Program (Option Int) := do
  let fd ← ece391Open (text ".")
  if fd = -1 then
    ece391Fdputs 1 (text "directory open failed\n")
    return some 2
  else
    .loop (copyLoop 33 32 "directory entry read failed\n" lsForm fd) fuel buf

/-! ### The loop -/

/-- What was read stands at the start of the buffer. -/
theorem map_storeBytes {piece stored : List UInt8} (begins : piece <+: stored) (buf : CStr) :
    (List.range piece.length).map (storeBytes buf 0 stored) = piece := by
  obtain ⟨rest, rfl⟩ := begins
  refine List.ext_getElem (by simp) fun i _ inside => ?_
  have stored : storeBytes buf 0 (piece ++ rest) (0 + i) = (piece ++ rest).getD i 0 :=
    storeBytes_apply (by rw [List.length_append]; omega)
  rw [Nat.zero_add] at stored
  simp [stored, List.getElem?_append_left inside, inside]

/-- The program writes `shape piece` for each piece it reads. -/
def Shapes (form : CStr → Int → CStr × Int) (shape : List UInt8 → List UInt8) : Prop :=
  ∀ piece stored buf, piece ≠ [] → piece <+: stored →
    ∃ n : Nat, 0 < n ∧ (form (storeBytes buf 0 stored) piece.length).2 = n ∧
      (List.range n).map (form (storeBytes buf 0 stored) piece.length).1 = shape piece

theorem shapes_ls : Shapes lsForm (· ++ [10]) := by
  intro piece stored buf nonempty begins
  refine ⟨piece.length + 1, Nat.succ_pos _, rfl, ?_⟩
  rw [List.range_succ, List.map_append, List.map_singleton]
  simp only [lsForm, Int.toNat_natCast, Function.update_self]
  congr 1
  refine Eq.trans (List.map_congr_left fun i inside => ?_) (map_storeBytes begins buf)
  exact Function.update_of_ne (Nat.ne_of_lt (List.mem_range.mp inside)) _ _

/-- The loop invariant: some pieces are still to come, and with what they will be printed as, the
output is `all`. -/
def Copying (P : Platform) (p n size : Nat) (whole : Bool) (fd : Fin 8)
    (shape : List UInt8 → List UInt8) (all : List UInt8) (pieces : List (List UInt8))
    (s : Session) : Prop :=
  ∃ v, Holds P p v s ∧ v.Prints P ∧ Delivers P p n size whole fd pieces (v.elements fd) ∧
    (∀ piece ∈ pieces, (shape piece).length ≤ size) ∧ v.out ++ (pieces.map shape).flatten = all

section Loop

variable {n size : Nat} {whole : Bool} {failed : String} {form : CStr → Int → CStr × Int}
  {shape : List UInt8 → List UInt8} {all : List UInt8}

/-- One round prints one piece, or ends with everything printed. -/
theorem copyLoop_round (shapes : Shapes form shape) (ge : 2 ≤ fd.val)
    {pieces : List (List UInt8)} (copying : Copying P p n size whole fd shape all pieces s)
    (buf : CStr) :
    Ensures (host P p) (fun
      | .inl _, s' => ∃ rest, rest.length < pieces.length ∧
          Copying P p n size whole fd shape all rest s'
      | .inr value, s' => value = (if whole then some 0 else none) ∧ s'.out = all)
      (copyLoop size n failed form fd.val buf) s := by
  obtain ⟨v, holds, prints, delivers, bounded, printed⟩ := copying
  rw [copyLoop, ensures_bind]
  cases pieces with
  | nil =>
      refine (delivers v s holds rfl).mono ?_
      rintro reply s' ⟨out, ends⟩
      have done : s'.out = all := out.trans (by simpa using printed)
      cases whole with
      | true =>
          rw [if_pos rfl] at ends
          rw [if_neg (Nat.not_lt.mpr ends.2), if_pos ends.1, ensures_pure]
          exact ⟨rfl, done⟩
      | false =>
          rw [if_neg Bool.false_ne_true] at ends
          rw [if_pos ends, ensures_pure]
          exact ⟨rfl, done⟩
  | cons piece rest =>
      obtain ⟨nonempty, delivers⟩ := delivers
      obtain ⟨short, shorter⟩ := List.forall_mem_cons.mp bounded
      refine (delivers v s holds rfl).mono ?_
      rintro reply s' ⟨value, stored, fits, e', delivers', held⟩
      obtain ⟨count, pos, length, shaped⟩ := shapes piece reply.stored buf nonempty stored
      have more : ¬ reply.value = 0 := by
        have := List.length_pos_iff.mpr nonempty
        omega
      have good : ¬ reply.value = -1 := by omega
      have inside : ¬ (size : Int) < (count : Int) := by
        rw [← shaped, List.length_map, List.length_range] at short
        omega
      have prints' := prints.withElement ge e'
      rw [if_neg (Nat.not_lt.mpr fits), if_neg more, if_neg good, value]
      simp only [length]
      rw [if_neg inside, ensures_bind]
      refine (ensures_write held prints' pos _).mono ?_
      rintro written s'' ⟨taken, after⟩
      have kept : ¬ written = -1 := by omega
      rw [shaped] at after
      rw [if_neg kept, ensures_pure]
      refine ⟨rest, Nat.lt_succ_self _, _, after, prints'.print _, ?_, shorter, ?_⟩
      · have entry : ((v.withElement fd e').print (shape piece)).elements fd = e' :=
          Function.update_self _ _ _
        rw [entry]
        exact delivers'
      · rw [← printed, List.map_cons, List.flatten_cons, ← List.append_assoc]
        rfl

/-- After an open, the loop prints every piece that the new descriptor delivers. -/
theorem copyLoop_prints (shapes : Shapes form shape) {v' : View} {e : Element}
    (opened : Opened v v' fd e) (held : Holds P p v' s) (prints : v.Prints P)
    {pieces : List (List UInt8)} (delivers : Delivers P p n size whole fd pieces e)
    (bounded : ∀ piece ∈ pieces, (shape piece).length ≤ size) {fuel : Nat}
    (enough : pieces.length < fuel) (buf : CStr) :
    Ensures (host P p) (fun value s' => value = (if whole then some 0 else none) ∧
      s'.out = v.out ++ (pieces.map shape).flatten)
      (.loop (copyLoop size n failed form fd.val) fuel buf) s := by
  rw [← opened.new] at delivers
  rw [← opened.out]
  refine Ensures.loop (fun m _ s => ∃ rest, rest.length = m ∧
    Copying P p n size whole fd shape (v'.out ++ (pieces.map shape).flatten) rest s) ?_ enough
    ⟨pieces, rfl, v', held, opened.prints prints, delivers, bounded, rfl⟩
  rintro m buf s ⟨rest, rfl, copying⟩
  refine (copyLoop_round shapes opened.ge copying buf).mono fun result s' done => ?_
  cases result with
  | inl buf =>
      obtain ⟨rest', fewer, again⟩ := done
      exact ⟨rest'.length, fewer, rest', rfl, again⟩
  | inr value => exact done

end Loop

/-! ### The programs as a whole -/

theorem room_start (P : Platform) (term : Nat) (args : CStr) :
    ∃ j : Fin 8, 2 ≤ j.val ∧ ((View.start P term args).elements j).flags = 0 :=
  ⟨2, by decide, rfl⟩

/-- An image with its directory, the program `shell`, the clock and the two frames of an animation:
`ab`, ` c` and `a`, `d`. -/
def sampleFiles : Fs where
  bootBlock := 0
  mem x :=
    let at_ := fun (start : Nat) (bytes : List UInt8) => bytes.getD (x - start) 0
    let name := fun (bytes : List UInt8) => bytes ++ List.replicate (32 - bytes.length) 0
    if x < 64 then at_ 0 [5, 0, 0, 0, 3, 0, 0, 0, 3]
    else if x < 128 then at_ 64 (name [46] ++ [1])
    else if x < 192 then at_ 128 (name (Grep.ascii "shell") ++ [2])
    else if x < 256 then at_ 192 (name (Grep.ascii "rtc"))
    else if x < 320 then at_ 256 (name (Grep.ascii "frame0.txt") ++ [2, 0, 0, 0, 1])
    else if x < 384 then at_ 320 (name (Grep.ascii "frame1.txt") ++ [2, 0, 0, 0, 2])
    else if x < 4096 then 0
    else if x < 8192 then at_ 4096 [32]
    else if x < 12288 then at_ 8192 [6, 0, 0, 0, 1]
    else if x < 16384 then at_ 12288 [3, 0, 0, 0, 2]
    else if x < 20480 then
      at_ 16384 ([0x7f, 0x45, 0x4c, 0x46] ++ List.replicate 20 0 ++ [0x00, 0x80, 0x04, 0x08])
    else if x < 24576 then at_ 20480 (Grep.ascii "ab\n c\n")
    else at_ 24576 (Grep.ascii "a\nd")

def samplePlatform : Platform := { sample with fs := sampleFiles }

theorem sampleFiles_listed : sampleFiles.ListedDirectory where
  count_le := by decide +kernel
  entries i lt := by
    have count : sampleFiles.dirEntryNum = 5 := by decide +kernel
    have ends : ∀ i < 5, (sampleFiles.dentry i).bytes 0 ≠ 0 ∧
        (sampleFiles.dentry i).bytes 33 = 0 := by decide +kernel
    obtain ⟨nonempty, stop⟩ := ends i (by omega)
    exact ⟨nonempty, 1, by decide, stop⟩

/-- The small system with its first shell. -/
def sampleSystem : Kernel :=
  ((samplePlatform.syscallInitShell ((Kernel.blank 0).boot samplePlatform) 0
    (Frame.sample 0)).map (·.2)).getD (Kernel.blank 0)

theorem sampleSystem_reachable : Reachable samplePlatform sampleSystem := by
  have ends : (samplePlatform.syscallInitShell ((Kernel.blank 0).boot samplePlatform) 0
      (Frame.sample 0)).map (·.1) = some (.entered 1) := by decide +kernel
  obtain ⟨⟨_, k⟩, init, rfl⟩ := Option.map_eq_some_iff.mp ends
  have state : sampleSystem = k := by simp [sampleSystem, init]
  rw [state]
  exact .boot (Kernel.blank_curr (by decide)) (by decide +kernel) init

/-- Its shell starts a program with the argument `rest`. -/
theorem sampleSystem_starts {c : CStr} {rest : List UInt8} (short : rest.length < 100)
    (command : c.chars = Grep.ascii "shell" ++ 32 :: rest)
    (ends : (samplePlatform.syscallExecute sampleSystem (some c) (.sample 1)).map (·.1) =
      some (.entered 2)) :
    ∃ parse k', parse.fargs.chars = rest ∧
      Starts samplePlatform sampleSystem c (.sample 1) 2 parse k' := by
  obtain ⟨⟨_, k'⟩, exec, rfl⟩ := Option.map_eq_some_iff.mp ends
  have parsed := parseCommand_space (f := .sample 1) command (by decide) (by decide)
  refine ⟨_, k', List.append_cancel_right (strcpyBytes_rest command),
    sampleSystem_reachable, by decide +kernel, by decide +kernel, parsed, ?_, exec⟩
  rw [Bool.and_eq_true, decide_eq_true_eq, decide_eq_true_eq]
  exact ⟨by decide, by omega⟩

/-- `cat frame0.txt`, as far as the argument goes. -/
def sampleCat : CStr := cLit (Grep.ascii "shell frame0.txt")

/-- **`ls` prints the names in the directory**, in order and each on a line of its own, if they fit
`buf[33]` with their NUL. At the first that does not, the array is left. -/
theorem ls_prints {k k₁ : Kernel} {c : CStr} {f : Frame} {pid fuel : Nat} {parse : Parse}
    {dentry : Dentry} (listed : P.fs.ListedDirectory)
    (found : P.fs.readDentryByName (text ".") = some dentry)
    (directory : dentry.filetype = directoryType) (start : Starts P k c f pid parse k₁)
    (fits : strlen parse.fargs < 100) (term : k.field .term < 4) (enough : 63 < fuel) (buf : CStr) :
    Ensures (host P pid) (fun value s =>
      value = (if (names P.fs 0 P.fs.dirEntryNum).all (·.length < 33) then some 0 else none) ∧
        s.out = (((names P.fs 0 P.fs.dirEntryNum).takeWhile (·.length < 33)).map
          (· ++ [10])).flatten) (ls fuel buf) ⟨k₁, []⟩ := by
  obtain ⟨args, -, holds⟩ := holds_of_starts start fits term
  have prints := View.prints_start (P := P) term args
  rw [ls, ensures_bind]
  refine (ensures_open_dir holds found directory (room_start P _ _)).mono ?_
  rintro value s ⟨fd, v, rfl, opened, held⟩
  have few : ((names P.fs 0 P.fs.dirEntryNum).takeWhile (·.length < 33)).length ≤ 63 := by
    refine (List.takeWhile_prefix _).length_le.trans ?_
    rw [names, List.length_map, List.length_range']
    exact listed.count_le
  have bounded : ∀ name ∈ (names P.fs 0 P.fs.dirEntryNum).takeWhile (·.length < 33),
      (name ++ [10]).length ≤ 33 := by
    intro name mem
    have short := List.mem_takeWhile_imp mem
    rw [decide_eq_true_eq] at short
    rw [List.length_append, List.length_singleton]
    omega
  have delivers : Delivers P pid 32 33 ((names P.fs 0 P.fs.dirEntryNum).all (·.length < 33)) fd
      ((names P.fs 0 P.fs.dirEntryNum).takeWhile (·.length < 33)) (dirElement P 0) :=
    delivers_dir listed (by decide) opened.ge _ (Nat.zero_add _)
  have good : ¬ (fd.val : Int) = -1 := by omega
  rw [if_neg good]
  exact copyLoop_prints shapes_ls opened held prints delivers bounded (by omega) buf

/-- The five entries of the small system. -/
theorem ls_prints_entries :
    ∃ parse k₁, Starts samplePlatform sampleSystem sampleCat (.sample 1) 2 parse k₁ ∧
      Ensures (host samplePlatform 2) (fun value s => value = some 0 ∧
        s.out = Grep.ascii ".\nshell\nrtc\nframe0.txt\nframe1.txt\n") (ls 64 fun _ => 0)
        ⟨k₁, []⟩ := by
  have command : sampleCat.chars = Grep.ascii "shell" ++ 32 :: Grep.ascii "frame0.txt" :=
    chars_cLit (by decide) (by decide)
  obtain ⟨parse, k₁, args, start⟩ := sampleSystem_starts (by decide) command (by decide +kernel)
  refine ⟨parse, k₁, start, ?_⟩
  have named : sampleFiles.readDentryByName (text ".") = some (sampleFiles.dentry 0) := by
    have index : (List.range sampleFiles.dirEntryNum).find? (sampleFiles.nameMatches (text ".")) =
        some 0 := by decide +kernel
    rw [Fs.readDentryByName, index, Option.map_some]
  have fits : strlen parse.fargs < 100 := by
    rw [← length_chars, args]
    decide
  have short : (names sampleFiles 0 sampleFiles.dirEntryNum).all (·.length < 33) = true := by
    decide +kernel
  have listing : (((names sampleFiles 0 sampleFiles.dirEntryNum).takeWhile (·.length < 33)).map
      (· ++ [10])).flatten = Grep.ascii ".\nshell\nrtc\nframe0.txt\nframe1.txt\n" := by
    decide +kernel
  have prints := ls_prints (P := samplePlatform) sampleFiles_listed named (by decide +kernel) start
    fits (by decide +kernel) (by decide : 63 < 64) fun _ => 0
  refine prints.mono ?_
  rintro value s ⟨ended, printed⟩
  exact ⟨ended.trans (if_pos short), printed.trans listing⟩

end Linux391.User
