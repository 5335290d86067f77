import Linux391.Lib.Strings
import Linux391.Library.Buffer
import Mathlib.Data.List.Infix

/-!
The search of `ece391grep`: `do_one_file`, with the routines of `ece391support.c` it uses.

The file is read in pieces of at most 1024 bytes into `data`, which has one byte more for a
NUL. A piece is taken apart line by line. An unfinished line at its end is moved to the front and
completed by the next read.

Two things are not as they seem. Whether the last line is finished is decided by the byte
behind the data, which nothing has written when the array is full for the first time. And the first
character of the pattern is compared as a signed `char` with an unsigned byte. What `grep` does
is therefore the search for `Found` lines in a text that may have one more line end (`broken`).
-/

namespace Linux391.Grep

/-! ### The routines -/

/-- The loop of `ece391_strncmp` from index `i` on, with `n` characters still to compare: its
value and the last index it reads. -/
def ece391StrncmpFrom (s1 s2 : CStr) : Nat → Nat → Int × Nat
  | 0, i => (0, i)
  | n + 1, i =>
      if s1 i = s2 i then
        if s1 i = 0 ∨ n = 0 then (0, i) else ece391StrncmpFrom s1 s2 n (i + 1)
      else ((s1 i).toNat - (s2 i).toNat, i)

def ece391Strncmp (s1 s2 : CStr) (n : Nat) : Int × Nat := ece391StrncmpFrom s1 s2 n 0

/-- `ece391_strcpy` inside an array. -/
def ece391Strcpy : Nat → Nat → Nat → Buffer → Option Buffer
  | 0, _, _, _ => none
  | fuel + 1, dst, src, b =>
      let c := b.bytes src
      let b := (b.touch src).put dst c
      if c = 0 then some b else ece391Strcpy fuel (dst + 1) (src + 1) b

structure State where
  data : Buffer
  last : Nat
  /-- What has been written to descriptor 1. -/
  out : List UInt8

/-- The loop that looks for the end of the line; `n` is `last - line_end`. -/
def findEnd (data : Buffer) : Nat → Nat → Nat
  | 0, lineEnd => lineEnd
  | n + 1, lineEnd => if data.bytes lineEnd ≠ 10 then findEnd data n (lineEnd + 1) else lineEnd

/-- The loop over `check`; `n` is `line_end - check`. `s[0]` is a signed `char`. -/
def search (s : CStr) (sLen : Nat) : Nat → Nat → Buffer → Bool × Buffer
  | 0, _, data => (false, data)
  | n + 1, check, data =>
      let data := data.touch check
      if schar (s 0) = (data.bytes check).toNat then
        let (value, read) := ece391Strncmp (data.after check) s sLen
        let data := data.touch (check + read)
        if value = 0 then (true, data) else search s sLen n (check + 1) data
      else search s sLen n (check + 1) data

/-- What `ece391_fdputs` writes: the file name, a colon, the line and a newline. -/
def report (fname : CStr) (line : List UInt8) : List UInt8 := fname.chars ++ [58] ++ line ++ [10]

/-- Search the line and print it if the pattern is found. -/
def searchLine (s fname : CStr) (lineStart lineEnd : Nat) (st : State) : State :=
  let (found, data) := search s (strlen s) (lineEnd - lineStart) lineStart (st.data.put lineEnd 0)
  if found then
    let line : CStr := data.after lineStart
    { st with data := data.touch (lineStart + strlen line), out := st.out ++ report fname line.chars }
  else { st with data }

/-- The inner loop, on what is in `data`. -/
def lineLoop (s fname : CStr) (cnt : Nat) : Nat → Nat → State → Option State
  | 0, _, _ => none
  | fuel + 1, lineStart, st =>
      let lineEnd := findEnd st.data (st.last - lineStart) lineStart
      let st := { st with data := st.data.touch lineEnd }
      if st.data.bytes lineEnd ≠ 10 ∧ cnt ≠ 0 ∧ lineStart ≠ 0 then do
        let data ← ece391Strcpy fuel 0 lineStart (st.data.put lineEnd 0)
        some { st with data, last := st.last - lineStart }
      else
        let st := searchLine s fname lineStart lineEnd st
        if st.last ≤ lineEnd + 1 then some { st with last := 0 }
        else lineLoop s fname cnt fuel (lineEnd + 1) st

/-- The outer loop; `rest` is what has not been read of the file. -/
def readLoop (s fname : CStr) (fuel : Nat) : Nat → List UInt8 → State → Option State
  | 0, _, _ => none
  | rounds + 1, rest, st => do
      let n := 1024 - st.last
      let chunk := rest.take n
      let cnt := chunk.length
      let st ← lineLoop s fname cnt fuel 0
        { st with data := st.data.fill st.last chunk, last := st.last + cnt }
      if cnt = 0 then some st else readLoop s fname fuel rounds (rest.drop n) st

def ascii (s : String) : List UInt8 := s.toList.map fun c => UInt8.ofNat c.toNat

/-- `do_one_file`: what it returns, what it has written and the array. `opened` is the file,
if there is one, and `data` what the uninitialised array holds. -/
def doOneFile (fuel : Nat) (s fname : CStr) (opened : Option (List UInt8)) (closes : Bool)
    (data : Memory.Mem) : Option (Int × State) :=
  let st : State := ⟨⟨1025, data, true⟩, 0, []⟩
  match opened with
  | none => some (-1, { st with out := ascii "file open failed\n" })
  | some file => do
      let st ← readLoop s fname fuel fuel file st
      if closes then some (0, st)
      else some (-1, { st with out := st.out ++ ascii "file close failed\n" })

/-! ### Comparing and copying -/

/-- Comparing a pattern with a text that ends in a NUL: 0 exactly if the text starts with the
pattern, and nothing is read behind the NUL. -/
theorem ece391StrncmpFrom_spec (s1 s2 : CStr) (pattern text : List UInt8) (i : Nat)
    (first : ∀ j (inside : j < text.length), s1 (i + j) = text[j]) (nul : s1 (i + text.length) = 0)
    (second : ∀ j (inside : j < pattern.length), s2 (i + j) = pattern[j])
    (nonzero : ∀ c ∈ pattern, c ≠ 0) :
    ((ece391StrncmpFrom s1 s2 pattern.length i).1 = 0 ↔ pattern <+: text) ∧
      (ece391StrncmpFrom s1 s2 pattern.length i).2 ≤ i + text.length := by
  induction pattern generalizing text i with
  | nil => simp [ece391StrncmpFrom]
  | cons c pattern ih =>
      have letter : s2 i = c := second 0 (Nat.succ_pos _)
      have here : c ≠ 0 := nonzero c List.mem_cons_self
      simp only [List.length_cons, ece391StrncmpFrom, letter]
      cases text with
      | nil =>
          rw [List.length_nil, Nat.add_zero] at nul
          rw [nul, if_neg here.symm]
          have positive : c.toNat ≠ 0 := fun zero => here (UInt8.toNat_inj.mp zero)
          simp [positive]
      | cons d text =>
          have byte : s1 i = d := first 0 (Nat.succ_pos _)
          rw [byte]
          by_cases same : d = c
          · subst same
            rw [if_pos rfl]
            by_cases last : pattern.length = 0
            · rw [if_pos (.inr last), List.length_eq_zero_iff.mp last]
              simp
            · rw [if_neg (by simp [here, last])]
              have rest := ih text (i + 1)
                (fun j inside => by
                  rw [Nat.add_assoc, Nat.add_comm 1 j]
                  exact first (j + 1) (Nat.succ_lt_succ inside))
                (by rw [Nat.add_assoc, Nat.add_comm 1]; exact nul)
                (fun j inside => by
                  rw [Nat.add_assoc, Nat.add_comm 1 j]
                  exact second (j + 1) (Nat.succ_lt_succ inside))
                (fun e mem => nonzero e (List.mem_cons_of_mem d mem))
              refine ⟨?_, ?_⟩
              · rw [rest.1, List.cons_prefix_cons]
                simp
              · rw [List.length_cons]
                omega
          · rw [if_neg same]
            have different : (d.toNat : Int) - c.toNat ≠ 0 := by
              intro zero
              exact same (UInt8.toNat_inj.mp (by omega))
            refine ⟨?_, by simp⟩
            simp only [List.cons_prefix_cons]
            exact ⟨fun zero => absurd zero different, fun h => absurd h.1.symm same⟩

/-- Copying a text down, byte by byte. -/
theorem ece391Strcpy_spec (text : List UInt8) (fuel dst src : Nat) (b : Buffer) (down : dst < src)
    (holds : b.Holds src text) (nul : b.bytes (src + text.length) = 0)
    (nonzero : ∀ c ∈ text, c ≠ 0) (inside : src + text.length < b.size)
    (enough : text.length < fuel) :
    ∃ bytes, ece391Strcpy fuel dst src b = some { b with bytes } ∧
      Buffer.Holds { b with bytes } dst text ∧
      ∀ j, j < dst ∨ dst + text.length < j → bytes j = b.bytes j := by
  induction text generalizing fuel dst src b with
  | nil =>
      obtain ⟨rounds, rfl⟩ := Nat.exists_eq_add_one.mpr enough
      rw [List.length_nil, Nat.add_zero] at nul inside
      refine ⟨Function.update b.bytes dst 0, ?_, Buffer.holds_nil _ _, fun j outside => ?_⟩
      · simp only [ece391Strcpy, nul, if_true]
        rw [Buffer.touch_inside inside, Buffer.put_inside (by omega)]
      · exact Function.update_of_ne (by rw [List.length_nil] at outside; omega) _ _
  | cons c text ih =>
      obtain ⟨rounds, rfl⟩ : ∃ rounds, fuel = rounds + 1 :=
        Nat.exists_eq_add_one.mpr (Nat.lt_of_le_of_lt (Nat.zero_le _) enough)
      rw [List.length_cons] at inside enough nul
      obtain ⟨first, rest⟩ := Buffer.holds_cons.mp holds
      have here : c ≠ 0 := nonzero c List.mem_cons_self
      let moved : Buffer := { b with bytes := Function.update b.bytes dst c }
      have above : ∀ j, dst < j → moved.bytes j = b.bytes j := by
        intro j lt
        exact Function.update_of_ne (by omega) _ _
      have step : ece391Strcpy (rounds + 1) dst src b =
          ece391Strcpy rounds (dst + 1) (src + 1) moved := by
        simp only [ece391Strcpy, first, if_neg here]
        rw [Buffer.touch_inside (by omega), Buffer.put_inside (by omega)]
      obtain ⟨bytes, copied, held, frame⟩ := ih rounds (dst + 1) (src + 1) moved (by omega)
        (rest.congr fun j lower _ => above j (by omega))
        (by rw [above _ (by omega), Nat.add_assoc, Nat.add_comm 1]; exact nul)
        (fun d mem => nonzero d (List.mem_cons_of_mem c mem))
        (by have : moved.size = b.size := rfl
            omega)
        (by omega)
      refine ⟨bytes, step.trans copied, Buffer.holds_cons.mpr ⟨?_, held⟩, fun j outside => ?_⟩
      · exact (frame dst (.inl (by omega))).trans (Function.update_self _ _ _)
      · rw [List.length_cons] at outside
        refine (frame j (by omega)).trans (Function.update_of_ne (by omega) _ _)

/-! ### Searching a line -/

/-- The lines that are found: a pattern that starts with a byte above 127 never is. -/
def Found (s : CStr) (line : List UInt8) : Prop := s 0 < 128 ∧ s.chars <:+: line

instance (s : CStr) (line : List UInt8) : Decidable (Found s line) :=
  inferInstanceAs (Decidable (_ ∧ _))

/-- A signed `char` compared with a byte. -/
theorem schar_eq_toNat_iff (c d : UInt8) : schar c = d.toNat ↔ c < 128 ∧ c = d := by
  have bound := c.toNat_lt
  rw [UInt8.lt_iff_toNat_lt, ← UInt8.toNat_inj, schar]
  have top : (128 : UInt8).toNat = 128 := rfl
  split_ifs with low <;> omega

variable {s fname : CStr}

/-- A text that starts with the pattern starts with its first character. -/
theorem head_of_prefix {c : UInt8} {line : List UInt8} (nonempty : s.chars ≠ [])
    (starts : s.chars <+: c :: line) : s 0 = c := by
  have positive : 0 < s.chars.length := List.length_pos_iff.mpr nonempty
  rw [← getElem_chars positive, starts.getElem positive]
  rfl

theorem found_cons_iff {c : UInt8} {line : List UInt8} :
    Found s (c :: line) ↔ (s 0 < 128 ∧ s.chars <+: c :: line) ∨ Found s line := by
  rw [Found, Found, List.infix_cons_iff, and_or_left]

/-- The loop over a line with a NUL behind it. -/
theorem search_eq (ended : Terminated s) (nonempty : s.chars ≠ []) (line : List UInt8) (check : Nat)
    (b : Buffer) (holds : b.Holds check line) (nul : b.bytes (check + line.length) = 0)
    (inside : check + line.length < b.size) :
    search s (strlen s) line.length check b = (decide (Found s line), b) := by
  obtain ⟨n, bound, stop⟩ := ended
  induction line generalizing check with
  | nil => simp [search, Found, nonempty]
  | cons c line ih =>
      rw [List.length_cons] at nul inside
      obtain ⟨first, rest⟩ := Buffer.holds_cons.mp holds
      have later := ih (check + 1) rest (by rw [Nat.add_assoc, Nat.add_comm 1]; exact nul) (by omega)
      have compared := ece391StrncmpFrom_spec (b.after check) s s.chars (c :: line) 0
        (fun j lt => by rw [Nat.zero_add]; exact holds j lt)
        (by rw [Nat.zero_add]; exact nul)
        (fun j lt => by rw [Nat.zero_add, getElem_chars lt])
        (fun d mem zero => zero_not_mem_chars s (zero ▸ mem))
      rw [length_chars, Nat.zero_add, List.length_cons] at compared
      simp only [search, List.length_cons]
      rw [Buffer.touch_inside (by omega), first]
      by_cases equal : schar (s 0) = c.toNat
      · rw [if_pos equal]
        have read : check + (ece391Strncmp (b.after check) s (strlen s)).2 < b.size := by
          have last := compared.2
          rw [ece391Strncmp]
          omega
        rw [Buffer.touch_inside read, later]
        by_cases value : (ece391Strncmp (b.after check) s (strlen s)).1 = 0
        · have found : Found s (c :: line) :=
            found_cons_iff.mpr (.inl ⟨((schar_eq_toNat_iff _ _).mp equal).1, compared.1.mp value⟩)
          rw [if_pos value, decide_eq_true found]
        · have same : Found s (c :: line) ↔ Found s line := by
            rw [found_cons_iff, or_iff_right fun h => value (compared.1.mpr h.2)]
          rw [if_neg value, decide_eq_decide.mpr same]
      · have same : Found s (c :: line) ↔ Found s line := by
          rw [found_cons_iff, or_iff_right]
          rintro ⟨low, starts⟩
          exact equal ((schar_eq_toNat_iff _ _).mpr ⟨low, head_of_prefix nonempty starts⟩)
        rw [if_neg equal, later, decide_eq_decide.mpr same]

/-- What is printed for a line. -/
def printed (s fname : CStr) (line : List UInt8) : List UInt8 :=
  if Found s line then report fname line else []

/-- A line in the array is searched, with a NUL put behind it. -/
theorem searchLine_eq (fname : CStr) (ended : Terminated s) (nonempty : s.chars ≠ [])
    (line : List UInt8) (lineStart : Nat) (st : State) (holds : st.data.Holds lineStart line)
    (nonzero : ∀ c ∈ line, c ≠ 0) (inside : lineStart + line.length < st.data.size)
    (short : line.length < 2 ^ 32) :
    searchLine s fname lineStart (lineStart + line.length) st =
      { st with
        data := { st.data with bytes := Function.update st.data.bytes (lineStart + line.length) 0 }
        out := st.out ++ printed s fname line } := by
  have held : Buffer.Holds { st.data with
      bytes := Function.update st.data.bytes (lineStart + line.length) 0 } lineStart line := by
    refine holds.congr fun j _ upper => ?_
    exact Function.update_of_ne (by omega) _ _
  have nul : Function.update st.data.bytes (lineStart + line.length) 0 (lineStart + line.length) =
      (0 : UInt8) := Function.update_self _ _ _
  unfold searchLine
  rw [Nat.add_sub_cancel_left, Buffer.put_inside inside]
  generalize zeroed : ({ st.data with
    bytes := Function.update st.data.bytes (lineStart + line.length) 0 } : Buffer) = b at held ⊢
  have within : lineStart + line.length < b.size := by
    rw [← zeroed]
    exact inside
  have ends : b.bytes (lineStart + line.length) = 0 := by
    rw [← zeroed]
    exact nul
  rw [search_eq ended nonempty line lineStart b held ends within]
  simp only [decide_eq_true_eq, printed]
  split_ifs with found
  · have text : CStr.chars (b.after lineStart) = line := chars_of_text held nonzero ends short
    have length : strlen (b.after lineStart) = line.length := by
      rw [← length_chars, text]
    rw [length, text, Buffer.touch_inside within]
  · simp

/-! ### The inner loop -/

theorem findEnd_line (data : Buffer) (line : List UInt8) (n lineEnd : Nat)
    (holds : data.Holds lineEnd line) (noNewline : 10 ∉ line) (within : line.length ≤ n) :
    findEnd data n lineEnd = findEnd data (n - line.length) (lineEnd + line.length) := by
  induction line generalizing n lineEnd with
  | nil => rfl
  | cons c line ih =>
      obtain ⟨less, rfl⟩ : ∃ less, n = less + 1 :=
        Nat.exists_eq_add_one.mpr (Nat.lt_of_lt_of_le (Nat.succ_pos _) within)
      rw [List.length_cons] at within ⊢
      obtain ⟨first, rest⟩ := Buffer.holds_cons.mp holds
      obtain ⟨here, later⟩ := not_or.mp (mt List.mem_cons.mpr noNewline)
      rw [findEnd, first, if_pos (Ne.symm here), ih less (lineEnd + 1) rest later (by omega)]
      congr 1 <;> omega

/-- The end of a line that has one. -/
theorem findEnd_newline {data : Buffer} {line rest : List UInt8} {n lineStart : Nat}
    (holds : data.Holds lineStart (line ++ 10 :: rest)) (noNewline : 10 ∉ line)
    (within : line.length < n) : findEnd data n lineStart = lineStart + line.length := by
  obtain ⟨front, back⟩ := Buffer.holds_append.mp holds
  obtain ⟨newline, -⟩ := Buffer.holds_cons.mp back
  obtain ⟨less, more⟩ : ∃ less, n - line.length = less + 1 := Nat.exists_eq_add_one.mpr (by omega)
  rw [findEnd_line data line n lineStart front noNewline (by omega), more, findEnd, newline,
    if_neg (by simp)]

/-- The end of the data is the end of a line without a newline. -/
theorem findEnd_last {data : Buffer} {line : List UInt8} {lineStart : Nat}
    (holds : data.Holds lineStart line) (noNewline : 10 ∉ line) :
    findEnd data line.length lineStart = lineStart + line.length := by
  rw [findEnd_line data line _ lineStart holds noNewline (Nat.le_refl _), Nat.sub_self, findEnd]

/-- What is printed for all lines of a text. -/
def printedLines (s fname : CStr) (text : List UInt8) : List UInt8 :=
  (text.splitOn 10).flatMap (printed s fname)

theorem printedLines_append_newline (front back : List UInt8) :
    printedLines s fname (front ++ 10 :: back) =
      printedLines s fname front ++ printedLines s fname back := by
  rw [printedLines, List.splitOn_append_cons_self, List.flatMap_append]
  rfl

theorem printedLines_line {line : List UInt8} (noNewline : 10 ∉ line) :
    printedLines s fname line = printed s fname line := by
  rw [printedLines, List.splitOn_eq_singleton noNewline]
  simp

theorem printedLines_nil (nonempty : s.chars ≠ []) : printedLines s fname [] = [] := by
  rw [printedLines_line List.not_mem_nil, printed, if_neg]
  rintro ⟨-, inside⟩
  exact nonempty (List.infix_nil.mp inside)

/-- A text that stops at the end of a line. -/
def Ended (text : List UInt8) : Prop := text = [] ∨ ∃ front, text = front ++ [10]

theorem ended_iff_getLast? (text : List UInt8) :
    Ended text ↔ text = [] ∨ text.getLast? = some 10 := by
  rw [List.getLast?_eq_some_iff, Ended]

instance : DecidablePred Ended := fun text => decidable_of_iff _ (ended_iff_getLast? text).symm

/-- A text is complete lines and the beginning of another. -/
theorem exists_lineStart (text : List UInt8) :
    ∃ front start, text = front ++ start ∧ Ended front ∧ 10 ∉ start := by
  by_cases newline : 10 ∈ text
  · obtain ⟨start, front, eq, noNewline⟩ :=
      List.eq_append_cons_of_mem (List.mem_reverse.mpr newline)
    refine ⟨front.reverse ++ [10], start.reverse, ?_, .inr ⟨front.reverse, rfl⟩, by simpa⟩
    rw [← List.reverse_reverse text, eq]
    simp
  · exact ⟨[], text, rfl, .inl rfl, newline⟩

/-- A text is the rest of a line and what follows its end. -/
theorem exists_lineEnd (text : List UInt8) :
    ∃ rest back, text = rest ++ back ∧ 10 ∉ rest ∧ (back = [] ∨ ∃ next, back = 10 :: next) := by
  by_cases newline : 10 ∈ text
  · obtain ⟨rest, next, eq, noNewline⟩ := List.eq_append_cons_of_mem newline
    exact ⟨rest, 10 :: next, eq, noNewline, .inr ⟨next, rfl⟩⟩
  · exact ⟨text, [], (List.append_nil text).symm, newline, .inl rfl⟩

theorem splitOn_append_of_ended {front : List UInt8} (ended : Ended front) (back : List UInt8) :
    ∃ lines, (front ++ back).splitOn 10 = lines ++ back.splitOn 10 := by
  rcases ended with rfl | ⟨text, rfl⟩
  · exact ⟨[], rfl⟩
  · refine ⟨text.splitOn 10, ?_⟩
    rw [List.append_assoc, List.singleton_append, List.splitOn_append_cons_self]

theorem mem_splitOn_line {front line back : List UInt8} (ended : Ended front)
    (noNewline : 10 ∉ line) (stopped : back = [] ∨ ∃ next, back = 10 :: next) :
    line ∈ (front ++ (line ++ back)).splitOn 10 := by
  obtain ⟨lines, eq⟩ := splitOn_append_of_ended ended (line ++ back)
  rw [eq]
  apply List.mem_append_right
  rcases stopped with rfl | ⟨next, rfl⟩
  · rw [List.append_nil, List.splitOn_eq_singleton noNewline]
    exact List.mem_cons_self
  · rw [List.splitOn_append_cons_self, List.splitOn_eq_singleton noNewline]
    exact List.mem_cons_self

theorem printedLines_append_of_ended (nonempty : s.chars ≠ []) {front : List UInt8}
    (ended : Ended front) (back : List UInt8) :
    printedLines s fname (front ++ back) =
      printedLines s fname front ++ printedLines s fname back := by
  rcases ended with rfl | ⟨text, rfl⟩
  · rw [printedLines_nil nonempty]
    rfl
  · rw [List.append_assoc, List.singleton_append, printedLines_append_newline,
      printedLines_append_newline, printedLines_nil nonempty, List.append_nil]

theorem ended_append_iff {front back : List UInt8} (some : back ≠ []) :
    Ended (front ++ back) ↔ Ended back := by
  have final := List.getLast?_eq_some_getLast some
  simp [ended_iff_getLast?, some, List.getLast?_append, final]

theorem not_ended_of_noNewline {text : List UInt8} (noNewline : 10 ∉ text) (some : text ≠ []) :
    ¬ Ended text := by
  rintro (rfl | ⟨front, rfl⟩)
  · exact some rfl
  · exact noNewline (by simp)

/-- All lines of the text have been searched, the last one too. -/
structure SearchedAll (s fname : CStr) (cnt lineStart : Nat) (text : List UInt8) (st st' : State) :
    Prop where
  last_eq : st'.last = 0
  out_eq : st'.out = st.out ++ printedLines s fname text
  cause : Ended text ∨ cnt = 0 ∨ st.data.bytes st.last = 10 ∨ (10 ∉ text ∧ lineStart = 0)

/-- The lines of `front` have been searched, and the unfinished line `tail` is at the front of
the array. -/
structure CarriedOver (s fname : CStr) (cnt lineStart : Nat) (front tail : List UInt8)
    (st st' : State) : Prop where
  last_eq : st'.last = tail.length
  out_eq : st'.out = st.out ++ printedLines s fname front
  holds : st'.data.Holds 0 tail
  ended : Ended front
  some : lineStart = 0 → front ≠ []
  noNewline : 10 ∉ tail
  nonempty : tail ≠ []
  more : cnt ≠ 0
  behind : st.data.bytes st.last ≠ 10

/-- What the inner loop does with the text from `line_start` on. -/
structure Scanned (s fname : CStr) (cnt lineStart : Nat) (text : List UInt8) (st st' : State) :
    Prop where
  size_eq : st'.data.size = st.data.size
  inRange_eq : st'.data.inRange = st.data.inRange
  /-- The byte behind the array is only written for an unfinished line that fills it. -/
  edge_kept : Ended text ∨ st.last < 1024 → st'.data.bytes 1024 = st.data.bytes 1024
  edge_zero : ¬ Ended text → st.last = 1024 → st'.data.bytes 1024 = 0
  outcome : SearchedAll s fname cnt lineStart text st st' ∨
    ∃ front tail, text = front ++ tail ∧ CarriedOver s fname cnt lineStart front tail st st'

section Unfinished

variable {cnt fuel lineStart : Nat} {text : List UInt8} {st : State}
  (holds : st.data.Holds lineStart text) (last : lineStart + text.length = st.last)
  (bound : st.last ≤ 1024) (size : st.data.size = 1025) (nonzero : ∀ c ∈ text, c ≠ 0)
  (noNewline : 10 ∉ text)

include holds last bound size nonzero noNewline

/-- An unfinished line is carried over if more may follow and it is not the first. -/
theorem lineLoop_carried (nonempty : s.chars ≠ []) (some : text ≠ [])
    (behind : st.data.bytes (lineStart + text.length) ≠ 10) (more : cnt ≠ 0)
    (started : lineStart ≠ 0) (enough : text.length < fuel) :
    ∃ st', lineLoop s fname cnt (fuel + 1) lineStart st = Option.some st' ∧
      Scanned s fname cnt lineStart text st st' := by
  have rest : st.last - lineStart = text.length := by omega
  have within : lineStart + text.length < st.data.size := by omega
  let zeroed : Buffer :=
    { st.data with bytes := Function.update st.data.bytes (lineStart + text.length) 0 }
  have below : ∀ j, j < lineStart + text.length → zeroed.bytes j = st.data.bytes j := by
    intro j lt
    exact Function.update_of_ne (by omega) _ _
  obtain ⟨bytes, copied, held, frame⟩ := ece391Strcpy_spec text fuel 0 lineStart zeroed (by omega)
    (holds.congr fun j _ upper => below j upper) (Function.update_self _ _ _) nonzero within enough
  simp only [lineLoop, rest, findEnd_last holds noNewline]
  rw [Buffer.touch_inside within, if_pos ⟨behind, more, started⟩, Buffer.put_inside within, copied]
  refine ⟨_, rfl, rfl, rfl, ?_, ?_, .inr ⟨[], text, rfl, ?_⟩⟩
  · rintro (all | short)
    · exact absurd all (not_ended_of_noNewline noNewline some)
    · exact (frame 1024 (by omega)).trans (Function.update_of_ne (by omega) _ _)
  · intro _ full
    have edge : lineStart + text.length = 1024 := last.trans full
    refine (frame 1024 (by omega)).trans ?_
    rw [← edge]
    exact Function.update_self _ _ _
  · constructor
    case last_eq => rfl
    case out_eq => rw [printedLines_nil nonempty, List.append_nil]
    case holds => exact held
    case ended => exact .inl rfl
    case some => exact fun zero => absurd zero started
    case noNewline => exact noNewline
    case nonempty => exact some
    case more => exact more
    case behind => rwa [← last]

/-- Otherwise it is searched like a complete one. -/
theorem lineLoop_searched (ended : Terminated s) (nonempty : s.chars ≠ [])
    (some : lineStart = 0 ∨ text ≠ [])
    (final : ¬ (st.data.bytes (lineStart + text.length) ≠ 10 ∧ cnt ≠ 0 ∧ lineStart ≠ 0)) :
    ∃ st', lineLoop s fname cnt (fuel + 1) lineStart st = Option.some st' ∧
      Scanned s fname cnt lineStart text st st' := by
  have rest : st.last - lineStart = text.length := by omega
  have within : lineStart + text.length < st.data.size := by omega
  have searched := searchLine_eq fname ended nonempty text lineStart st holds nonzero
    within (by omega)
  simp only [lineLoop, rest, findEnd_last holds noNewline]
  rw [Buffer.touch_inside within, if_neg final, searched, if_pos (by rw [← last]; omega)]
  refine ⟨_, rfl, rfl, rfl, ?_, ?_, .inl ?_⟩
  · rintro (all | short)
    · have nil : text = [] := by
        by_contra more
        exact not_ended_of_noNewline noNewline more all
      have start : lineStart = 0 := some.resolve_right fun more => more nil
      have length : text.length = 0 := List.length_eq_zero_iff.mpr nil
      exact Function.update_of_ne (by omega) _ _
    · exact Function.update_of_ne (by omega) _ _
  · intro _ full
    have edge : lineStart + text.length = 1024 := last.trans full
    have zero : Function.update st.data.bytes (lineStart + text.length) 0 1024 = 0 := by
      rw [edge, Function.update_self]
    exact zero
  · constructor
    case last_eq => rfl
    case out_eq => rw [printedLines_line noNewline]
    case cause =>
      rw [← last]
      by_cases behind : st.data.bytes (lineStart + text.length) = 10
      · exact .inr (.inr (.inl behind))
      · by_cases none : cnt = 0
        · exact .inr (.inl none)
        · have start : lineStart = 0 := by
            by_contra started
            exact final ⟨behind, none, started⟩
          exact .inr (.inr (.inr ⟨noNewline, start⟩))

/-- The last line of the data, without a newline. -/
theorem lineLoop_unfinished (ended : Terminated s) (nonempty : s.chars ≠ [])
    (some : lineStart = 0 ∨ text ≠ []) (enough : text.length < fuel) :
    ∃ st', lineLoop s fname cnt (fuel + 1) lineStart st = Option.some st' ∧
      Scanned s fname cnt lineStart text st st' := by
  by_cases carry : st.data.bytes (lineStart + text.length) ≠ 10 ∧ cnt ≠ 0 ∧ lineStart ≠ 0
  · obtain ⟨behind, more, started⟩ := carry
    exact lineLoop_carried holds last bound size nonzero noNewline nonempty
      (some.resolve_left started) behind more started enough
  · exact lineLoop_searched holds last bound size nonzero noNewline ended nonempty some carry

end Unfinished

/-- A line with its newline. -/
theorem lineLoop_line (ended : Terminated s) (nonempty : s.chars ≠ []) {cnt fuel : Nat}
    {line rest : List UInt8} {lineStart : Nat} {st : State}
    (holds : st.data.Holds lineStart (line ++ 10 :: rest))
    (last : lineStart + (line ++ 10 :: rest).length = st.last) (bound : st.last ≤ 1024)
    (size : st.data.size = 1025) (nonzero : ∀ c ∈ line, c ≠ 0) (noNewline : 10 ∉ line) :
    lineLoop s fname cnt (fuel + 1) lineStart st =
      let searched : State :=
        { st with
          data := { st.data with bytes := Function.update st.data.bytes (lineStart + line.length) 0 }
          out := st.out ++ printed s fname line }
      if rest = [] then some { searched with last := 0 }
      else lineLoop s fname cnt fuel (lineStart + line.length + 1) searched := by
  rw [List.length_append, List.length_cons] at last
  have found : findEnd st.data (st.last - lineStart) lineStart = lineStart + line.length :=
    findEnd_newline holds noNewline (by omega)
  have within : lineStart + line.length < st.data.size := by omega
  obtain ⟨front, back⟩ := Buffer.holds_append.mp holds
  have newline : st.data.bytes (lineStart + line.length) = 10 := (Buffer.holds_cons.mp back).1
  have searched := searchLine_eq fname ended nonempty line lineStart st front nonzero
    within (by omega)
  simp only [lineLoop, found]
  rw [Buffer.touch_inside within, if_neg (by simp [newline]), searched]
  have done : st.last ≤ lineStart + line.length + 1 ↔ rest = [] := by
    rw [← List.length_eq_zero_iff]
    omega
  simp only [done]

/-- What was found out about the rest of the text holds for all of it. -/
theorem Scanned.line {cnt lineStart next : Nat}
    {line rest : List UInt8} {st searched st' : State} (noNewline : 10 ∉ line) (some : rest ≠ [])
    (scanned : Scanned s fname cnt next rest searched st') (started : next ≠ 0)
    (out : searched.out = st.out ++ printed s fname line) (last : searched.last = st.last)
    (size : searched.data.size = st.data.size) (inRange : searched.data.inRange = st.data.inRange)
    (edge : searched.data.bytes 1024 = st.data.bytes 1024)
    (behind : searched.data.bytes st.last = st.data.bytes st.last) :
    Scanned s fname cnt lineStart (line ++ 10 :: rest) st st' := by
  have text : ∀ back, st.out ++ printedLines s fname (line ++ 10 :: back) =
      searched.out ++ printedLines s fname back := by
    intro back
    rw [printedLines_append_newline, printedLines_line noNewline, out, List.append_assoc]
  have same : Ended (line ++ 10 :: rest) ↔ Ended rest := by
    rw [List.append_cons]
    exact ended_append_iff some
  constructor
  case size_eq => exact scanned.size_eq.trans size
  case inRange_eq => exact scanned.inRange_eq.trans inRange
  case edge_kept =>
    rw [same, ← last]
    intro cause
    exact (scanned.edge_kept cause).trans edge
  case edge_zero =>
    rw [same, ← last]
    exact scanned.edge_zero
  case outcome =>
    rcases scanned.outcome with all | ⟨front, tail, rfl, carried⟩
    · refine .inl ⟨all.last_eq, all.out_eq.trans (text rest).symm, ?_⟩
      have cause := all.cause
      rw [last, behind] at cause
      rcases cause with full | none | stale | first
      · exact .inl (same.mpr full)
      · exact .inr (.inl none)
      · exact .inr (.inr (.inl stale))
      · exact absurd first.2 started
    · refine .inr ⟨line ++ 10 :: front, tail, by simp, ?_⟩
      constructor
      case last_eq => exact carried.last_eq
      case out_eq => exact carried.out_eq.trans (text front).symm
      case holds => exact carried.holds
      case ended =>
        by_cases none : front = []
        · exact .inr ⟨line, by rw [none]⟩
        · rw [List.append_cons]
          exact (ended_append_iff none).mpr carried.ended
      case some => simp
      case noNewline => exact carried.noNewline
      case nonempty => exact carried.nonempty
      case more => exact carried.more
      case behind =>
        rw [← behind, ← last]
        exact carried.behind

/-- **The inner loop** searches the lines of the data one by one. -/
theorem lineLoop_spec (ended : Terminated s) (nonempty : s.chars ≠ []) {cnt : Nat} (fuel : Nat)
    (text : List UInt8) (lineStart : Nat) (st : State) (holds : st.data.Holds lineStart text)
    (last : lineStart + text.length = st.last) (bound : st.last ≤ 1024)
    (size : st.data.size = 1025) (nonzero : ∀ c ∈ text, c ≠ 0)
    (some : lineStart = 0 ∨ text ≠ []) (enough : text.length + 1 < fuel) :
    ∃ st', lineLoop s fname cnt fuel lineStart st = Option.some st' ∧
      Scanned s fname cnt lineStart text st st' := by
  induction fuel generalizing text lineStart st with
  | zero => omega
  | succ fuel ih =>
      by_cases newline : 10 ∈ text
      · obtain ⟨line, rest, rfl, noNewline⟩ := List.eq_append_cons_of_mem newline
        have chars : ∀ c ∈ line, c ≠ 0 := fun c mem => nonzero c (by simp [mem])
        rw [lineLoop_line ended nonempty holds last bound size chars noNewline]
        rw [List.length_append, List.length_cons] at last enough
        simp only
        split_ifs with done
        · subst done
          refine ⟨_, rfl, rfl, rfl, ?_, ?_, .inl ⟨rfl, ?_, .inl (.inr ⟨line, rfl⟩)⟩⟩
          · intro _
            exact Function.update_of_ne (by rw [List.length_nil] at last; omega) _ _
          · intro open_
            exact absurd (.inr ⟨line, rfl⟩) open_
          · rw [printedLines_append_newline, printedLines_line noNewline,
              printedLines_nil nonempty, List.append_nil]
        · obtain ⟨front, back⟩ := Buffer.holds_append.mp holds
          obtain ⟨-, held⟩ := Buffer.holds_cons.mp back
          have behind : ∀ j, lineStart + line.length < j →
              Function.update st.data.bytes (lineStart + line.length) 0 j = st.data.bytes j := by
            intro j lt
            exact Function.update_of_ne (by omega) _ _
          have positive : 0 < rest.length := List.length_pos_iff.mpr done
          obtain ⟨st', run, scanned⟩ := ih rest (lineStart + line.length + 1)
            { st with
              data := { st.data with
                bytes := Function.update st.data.bytes (lineStart + line.length) 0 }
              out := st.out ++ printed s fname line }
            (held.congr fun j lower _ => behind j (by omega)) (by simp only; omega) bound size
            (fun c mem => nonzero c (by simp [mem])) (.inr done) (by omega)
          refine ⟨st', run, scanned.line noNewline done (by omega) rfl rfl rfl rfl ?_ ?_⟩
          · exact behind 1024 (by omega)
          · exact behind st.last (by omega)
      · exact lineLoop_unfinished holds last bound size nonzero newline ended nonempty some (by omega)

end Linux391.Grep
