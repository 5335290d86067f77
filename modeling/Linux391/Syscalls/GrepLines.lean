import Linux391.Syscalls.Grep

/-!
Which lines `ece391grep` prints.

The file is read in pieces, and each round of the outer loop searches the lines of what is carried
over and of the next piece (`Round`). Unless the byte behind the array is a newline from the start,
this is a search of the lines of the file (`readLoop_clean`). Otherwise the first piece that fills
the array with an unfinished line at its end is taken for complete, as if a newline were
there, and after that the byte is a NUL (`readLoop_stale`). `grep_prints_iff` says when this is
seen.
-/

namespace Linux391.Grep

variable {s fname : CStr}

/-! ### The outer loop -/

/-- No line is too long for the array. -/
def ShortLines (text : List UInt8) : Prop := ∀ line ∈ text.splitOn 10, line.length ≤ 1023

/-- A part without newlines lies in one line. -/
theorem exists_line_of_infix {part text : List UInt8} (inside : part <:+: text)
    (noNewline : 10 ∉ part) : ∃ line ∈ text.splitOn 10, part <:+: line := by
  obtain ⟨before, after, rfl⟩ := inside
  obtain ⟨front, start, rfl, ended, noStart⟩ := exists_lineStart before
  obtain ⟨rest, back, rfl, noRest, stopped⟩ := exists_lineEnd after
  refine ⟨start ++ part ++ rest, ?_, ⟨start, rest, rfl⟩⟩
  have line : 10 ∉ start ++ part ++ rest := by
    simp [noStart, noNewline, noRest]
  have mem := mem_splitOn_line ended line stopped
  simpa using mem

/-- The same in terms of the parts of the text, which suits its pieces better. -/
def ShortParts (text : List UInt8) : Prop :=
  ∀ part, part <:+: text → 10 ∉ part → part.length ≤ 1023

theorem ShortLines.parts {text : List UInt8} (short : ShortLines text) : ShortParts text := by
  intro part inside noNewline
  obtain ⟨line, mem, within⟩ := exists_line_of_infix inside noNewline
  exact Nat.le_trans within.length_le (short line mem)

theorem ShortParts.suffix {front back : List UInt8} (short : ShortParts (front ++ back)) :
    ShortParts back := by
  intro part inside
  exact short part (inside.trans (List.suffix_append front back).isInfix)

theorem ShortParts.newline {front back : List UInt8} (short : ShortParts (front ++ back))
    (full : front.length = 1024) : 10 ∈ front := by
  by_contra noNewline
  have := short front (List.prefix_append front back).isInfix noNewline
  omega

theorem Scanned.edge {cnt lineStart : Nat} {text : List UInt8} {st st' : State}
    (scanned : Scanned s fname cnt lineStart text st st') (bound : st.last ≤ 1024) :
    st'.data.bytes 1024 = st.data.bytes 1024 ∨ st'.data.bytes 1024 = 0 := by
  by_cases kept : Ended text ∨ st.last < 1024
  · exact .inl (scanned.edge_kept kept)
  · obtain ⟨open_, full⟩ := not_or.mp kept
    exact .inr (scanned.edge_zero open_ (by omega))

/-- One round of the outer loop: `chunk` is put behind what is carried, and the lines of both are
searched. -/
structure Round (s fname : CStr) (carried chunk rest : List UInt8) (st filled st' : State) :
    Prop where
  last_eq : filled.last = (carried ++ chunk).length
  bound : filled.last ≤ 1024
  out_eq : filled.out = st.out
  size_eq : filled.data.size = 1025
  inRange_eq : filled.data.inRange = st.data.inRange
  edge_eq : filled.data.bytes 1024 = st.data.bytes 1024
  /-- The array is full unless the file ends here. -/
  partly : filled.last < 1024 → rest = []
  scanned : Scanned s fname chunk.length 0 (carried ++ chunk) filled st'

theorem readLoop_round (fname : CStr) (ended : Terminated s) (nonempty : s.chars ≠ [])
    {fuel : Nat} (rounds : Nat) {carried rest : List UInt8} {st : State}
    (holds : st.data.Holds 0 carried) (last : st.last = carried.length)
    (size : st.data.size = 1025) (room : carried.length < 1024)
    (nonzero : ∀ c ∈ carried ++ rest, c ≠ 0) (large : 1025 < fuel) :
    ∃ chunk rest' filled st', rest = chunk ++ rest' ∧
      Round s fname carried chunk rest' st filled st' ∧
      readLoop s fname fuel (rounds + 1) rest st =
        if chunk.length = 0 then some st' else readLoop s fname fuel rounds rest' st' := by
  have split := (List.take_append_drop (1024 - st.last) rest).symm
  have least := List.length_take (i := 1024 - st.last) (l := rest)
  generalize taken : rest.take (1024 - st.last) = chunk at split least
  generalize dropped : rest.drop (1024 - st.last) = rest' at split
  have lengths := congrArg List.length split
  rw [List.length_append] at lengths
  have fits : st.last + chunk.length ≤ st.data.size := by omega
  have length : (carried ++ chunk).length = st.last + chunk.length := by
    rw [List.length_append, last]
  have held : (st.data.write st.last chunk).Holds 0 (carried ++ chunk) := by
    refine Buffer.holds_append.mpr ⟨?_, ?_⟩
    · refine holds.congr fun j _ upper => ?_
      exact Memory.storeBytes_of_lt (by omega)
    · rw [Nat.zero_add, ← last]
      exact Buffer.holds_write _ _ _
  have bytes : ∀ c ∈ carried ++ chunk, c ≠ 0 := by
    intro c mem
    apply nonzero c
    rw [split, ← List.append_assoc]
    exact List.mem_append_left rest' mem
  obtain ⟨st', run, scanned⟩ : ∃ st', lineLoop s fname chunk.length fuel 0
      ⟨st.data.write st.last chunk, st.last + chunk.length, st.out⟩ = some st' ∧ _ :=
    lineLoop_spec ended nonempty fuel (carried ++ chunk) 0 _ held
      (by rw [Nat.zero_add]; exact length) (by simp only; omega) size bytes (.inl rfl) (by omega)
  refine ⟨chunk, rest', ⟨st.data.write st.last chunk, st.last + chunk.length, st.out⟩, st', split,
    ?_, ?_⟩
  · constructor
    case scanned => exact scanned
    case last_eq => exact length.symm
    case bound =>
      simp only
      omega
    case out_eq => rfl
    case size_eq => exact size
    case inRange_eq => rfl
    case edge_eq => exact Memory.storeBytes_of_ge (by omega)
    case partly =>
      intro less
      exact List.length_eq_zero_iff.mp (by simp only at less; omega)
  · rw [readLoop]
    simp only [taken, dropped, Buffer.fill_inside fits, run]
    rfl

namespace Round

variable {carried chunk rest : List UInt8} {st filled st' : State}

/-- A read that gives nothing has reached the end of the file. -/
theorem none_left (round : Round s fname carried chunk rest st filled st') (none : chunk.length = 0)
    (room : carried.length < 1024) : rest = [] := by
  apply round.partly
  rw [round.last_eq, List.length_append]
  omega

/-- Where everything has been searched, the next piece starts a new line, or there is none. -/
theorem apart (round : Round s fname carried chunk rest st filled st')
    (cause : Ended (carried ++ chunk) ∨ chunk.length = 0 ∨ filled.data.bytes filled.last = 10 ∨
      (10 ∉ carried ++ chunk ∧ 0 = 0))
    (room : carried.length < 1024) (short : ShortParts (carried ++ chunk ++ rest))
    (clean : st.data.bytes 1024 ≠ 10 ∨ (carried ++ chunk ++ rest).length < 1024) :
    Ended (carried ++ chunk) ∨ rest = [] := by
  have bound := round.bound
  rcases Nat.lt_or_ge filled.last 1024 with less | full
  · exact .inr (round.partly less)
  · have exactly : filled.last = 1024 := by omega
    rcases cause with complete | none | stale | line
    · exact .inl complete
    · exact .inr (round.none_left none room)
    · rw [exactly, round.edge_eq] at stale
      rcases clean with edge | less
      · exact absurd stale edge
      · rw [List.length_append, ← round.last_eq] at less
        omega
    · exact absurd (short.newline (round.last_eq.symm.trans exactly)) line.1

/-- The byte behind the array is not a newline afterwards if it was not before. -/
theorem clean_after (round : Round s fname carried chunk rest st filled st')
    (clean : st.data.bytes 1024 ≠ 10 ∨ (carried ++ chunk ++ rest).length < 1024) :
    st'.data.bytes 1024 ≠ 10 ∨ (carried ++ chunk ++ rest).length < 1024 := by
  refine clean.imp_left fun edge => ?_
  rcases round.scanned.edge round.bound with same | zero
  · rw [same, round.edge_eq]
    exact edge
  · rw [zero]
    decide

end Round

/-- **The outer loop**, unless the byte behind the array is a newline and gets looked at. -/
theorem readLoop_clean (ended : Terminated s) (nonempty : s.chars ≠ []) {fuel : Nat}
    (large : 1025 < fuel) (rounds : Nat) (carried rest : List UInt8) (st : State)
    (holds : st.data.Holds 0 carried) (last : st.last = carried.length)
    (size : st.data.size = 1025) (room : carried.length < 1024)
    (nonzero : ∀ c ∈ carried ++ rest, c ≠ 0) (short : ShortParts (carried ++ rest))
    (clean : st.data.bytes 1024 ≠ 10 ∨ (carried ++ rest).length < 1024)
    (enough : rest.length < rounds) :
    ∃ st', readLoop s fname fuel rounds rest st = some st' ∧
      st'.data.inRange = st.data.inRange ∧
      st'.out = st.out ++ printedLines s fname (carried ++ rest) := by
  induction rounds generalizing carried rest st with
  | zero => omega
  | succ rounds ih =>
      obtain ⟨chunk, rest', filled, st', split, round, run⟩ :=
        readLoop_round fname ended nonempty rounds holds last size room nonzero large
      rw [run]
      subst split
      rw [List.length_append] at enough
      rw [← List.append_assoc] at nonzero short clean ⊢
      have scanned := round.scanned
      have inRange := scanned.inRange_eq.trans round.inRange_eq
      have size' := scanned.size_eq.trans round.size_eq
      rcases scanned.outcome with all | ⟨front, tail, pieces, carry⟩
      · have apart := round.apart all.cause room short clean
        have lines : printedLines s fname (carried ++ chunk ++ rest') =
            printedLines s fname (carried ++ chunk) ++ printedLines s fname rest' := by
          rcases apart with complete | rfl
          · exact printedLines_append_of_ended nonempty complete rest'
          · rw [printedLines_nil nonempty, List.append_nil, List.append_nil]
        have out : st'.out = st.out ++ printedLines s fname (carried ++ chunk) := by
          rw [all.out_eq, round.out_eq]
        by_cases none : chunk.length = 0
        · have nothing : rest' = [] := round.none_left none room
          rw [if_pos none, lines, nothing, printedLines_nil nonempty, List.append_nil]
          exact ⟨st', rfl, inRange, out⟩
        · rw [if_neg none, lines, ← List.append_assoc, ← out, ← inRange]
          have edge := round.clean_after clean
          exact ih [] rest' st' (Buffer.holds_nil _ _) all.last_eq size' (by decide)
            (fun c mem => nonzero c (List.mem_append_right _ mem)) short.suffix
            (edge.imp_right fun less => by rw [List.length_append] at less; simp; omega) (by omega)
      · have lines : printedLines s fname (carried ++ chunk ++ rest') =
            printedLines s fname front ++ printedLines s fname (tail ++ rest') := by
          rw [pieces, List.append_assoc, printedLines_append_of_ended nonempty carry.ended]
        have out : st'.out = st.out ++ printedLines s fname front := by
          rw [carry.out_eq, round.out_eq]
        have positive : 0 < front.length := List.length_pos_iff.mpr (carry.some rfl)
        have lengths := congrArg List.length pieces
        rw [← round.last_eq, List.length_append] at lengths
        have bound := round.bound
        have edge := round.clean_after clean
        rw [pieces, List.append_assoc] at nonzero short edge
        rw [if_neg carry.more, lines, ← List.append_assoc, ← out, ← inRange]
        exact ih tail rest' st' carry.holds carry.last_eq size' (by omega)
          (fun c mem => nonzero c (List.mem_append_right _ mem)) short.suffix
          (edge.imp_right fun less => by rw [List.length_append] at less; omega)
          (by have := carry.more; omega)

/-! ### A newline behind the array -/

/-- The file as it is searched if the byte behind the array is a newline at the start: pieces of
1024 bytes are complete until one of them is not. -/
def broken (file : List UInt8) : List UInt8 :=
  if file.length < 1024 then file
  else if Ended (file.take 1024) then file.take 1024 ++ broken (file.drop 1024)
  else file.take 1024 ++ 10 :: file.drop 1024
termination_by file.length
decreasing_by
  rw [List.length_drop]
  omega

theorem broken_short {file : List UInt8} (short : file.length < 1024) : broken file = file := by
  rw [broken, if_pos short]

theorem broken_ended {chunk rest : List UInt8} (full : chunk.length = 1024) (ended : Ended chunk) :
    broken (chunk ++ rest) = chunk ++ broken rest := by
  have long : ¬ (chunk ++ rest).length < 1024 := by
    rw [List.length_append]
    omega
  rw [broken, if_neg long, ← full, List.take_left, List.drop_left, if_pos ended]

theorem broken_open {chunk rest : List UInt8} (full : chunk.length = 1024) (open_ : ¬ Ended chunk) :
    broken (chunk ++ rest) = chunk ++ 10 :: rest := by
  have long : ¬ (chunk ++ rest).length < 1024 := by
    rw [List.length_append]
    omega
  rw [broken, if_neg long, ← full, List.take_left, List.drop_left, if_neg open_]

/-- **The outer loop** with a newline behind the array. -/
theorem readLoop_stale (ended : Terminated s) (nonempty : s.chars ≠ []) {fuel : Nat}
    (large : 1025 < fuel) (rounds : Nat) (rest : List UInt8) (st : State) (last : st.last = 0)
    (size : st.data.size = 1025) (nonzero : ∀ c ∈ rest, c ≠ 0) (short : ShortParts rest)
    (stale : st.data.bytes 1024 = 10) (enough : rest.length < rounds) :
    ∃ st', readLoop s fname fuel rounds rest st = some st' ∧
      st'.data.inRange = st.data.inRange ∧
      st'.out = st.out ++ printedLines s fname (broken rest) := by
  induction rounds generalizing rest st with
  | zero => omega
  | succ rounds ih =>
      by_cases few : rest.length < 1024
      · rw [broken_short few]
        exact readLoop_clean ended nonempty large (rounds + 1) [] rest st (Buffer.holds_nil _ _) last
          size (by decide) nonzero short (.inr few) enough
      · obtain ⟨chunk, rest', filled, st', split, round, run⟩ := readLoop_round fname ended
          nonempty rounds (Buffer.holds_nil st.data 0) last size (by decide) nonzero large
        have full : chunk.length = 1024 := by
          have bound := round.bound
          have length := round.last_eq
          rw [List.nil_append] at length
          by_contra less
          rw [split, round.partly (by omega), List.append_nil] at few
          omega
        have last' : filled.last = 1024 := round.last_eq.trans full
        have scanned := round.scanned
        have behind : filled.data.bytes filled.last = 10 := by
          rw [last', round.edge_eq, stale]
        rcases scanned.outcome with all | ⟨_, _, _, carry⟩
        · have out : st'.out = st.out ++ printedLines s fname chunk := by
            rw [all.out_eq, round.out_eq, List.nil_append]
          have inRange := scanned.inRange_eq.trans round.inRange_eq
          have size' := scanned.size_eq.trans round.size_eq
          rw [run, if_neg (by omega)]
          subst split
          rw [List.length_append] at enough
          have later : ∀ c ∈ rest', c ≠ 0 := fun c mem => nonzero c (List.mem_append_right chunk mem)
          by_cases complete : Ended chunk
          · have edge : st'.data.bytes 1024 = 10 :=
              (scanned.edge_kept (.inl complete)).trans (round.edge_eq.trans stale)
            rw [broken_ended full complete, printedLines_append_of_ended nonempty complete,
              ← List.append_assoc, ← out, ← inRange]
            exact ih rest' st' all.last_eq size' later short.suffix edge (by omega)
          · have edge : st'.data.bytes 1024 ≠ 10 := by
              rw [scanned.edge_zero complete last']
              decide
            rw [broken_open full complete, printedLines_append_newline, ← List.append_assoc, ← out,
              ← inRange]
            exact readLoop_clean ended nonempty large rounds [] rest' st' (Buffer.holds_nil _ _)
              all.last_eq size' (by decide) later short.suffix (.inl edge) (by omega)
        · exact absurd behind carry.behind

/-- What `do_one_file` prints, for whatever is in its array. -/
theorem doOneFile_eq (fname : CStr) (ended : Terminated s) (nonempty : s.chars ≠ []) {fuel : Nat}
    {file : List UInt8} (data : Memory.Mem) (nonzero : ∀ c ∈ file, c ≠ 0) (short : ShortLines file)
    (large : file.length + 1026 ≤ fuel) :
    ∃ st, doOneFile fuel s fname (some file) true data = some (0, st) ∧ st.data.inRange = true ∧
      st.out = printedLines s fname (if data 1024 = 10 then broken file else file) := by
  have run : ∃ st, readLoop s fname fuel fuel file ⟨⟨1025, data, true⟩, 0, []⟩ = some st ∧
      st.data.inRange = true ∧
      st.out = [] ++ printedLines s fname (if data 1024 = 10 then broken file else file) := by
    split_ifs with stale
    · exact readLoop_stale ended nonempty (by omega) fuel file _ rfl rfl nonzero short.parts stale
        (by omega)
    · exact readLoop_clean ended nonempty (by omega) fuel [] file _ (Buffer.holds_nil _ _) rfl rfl
        (by decide) nonzero short.parts (.inl stale) (by omega)
  obtain ⟨st, returned, inRange, out⟩ := run
  refine ⟨st, ?_, inRange, out⟩
  simp [doOneFile, returned]

/-! ### The lines printed and the lines asked for -/

/-- What should be printed: the lines that contain the pattern. -/
def matchingLines (s fname : CStr) (file : List UInt8) : List UInt8 :=
  ((file.splitOn 10).filter fun line => decide (s.chars <:+: line)).flatMap (report fname)

/-- The end of the first piece that has an unfinished line at its end. -/
structure FirstBreak (file : List UInt8) (q : Nat) : Prop where
  positive : 0 < q
  aligned : 1024 ∣ q
  within : q ≤ file.length
  unfinished : file[q - 1]? ≠ some 10
  earlier : ∀ j, 0 < j → j < q → 1024 ∣ j → file[j - 1]? = some 10

/-- The part before position `q` of the line there. -/
def lineBefore (file : List UInt8) (q : Nat) : List UInt8 :=
  ((file.take q).reverse.takeWhile (· ≠ 10)).reverse

/-- The part of the line at position `q` from there on. -/
def lineAfter (file : List UInt8) (q : Nat) : List UInt8 := (file.drop q).takeWhile (· ≠ 10)

/-- The files, patterns and old contents of the byte behind the array with which `grep` prints what
it should. Either there is nothing to print, or the pattern starts with an ASCII character and the
line cut in two, if one is, does not contain it. -/
def GrepExact (s : CStr) (file : List UInt8) (behind : UInt8) : Prop :=
  (∀ line ∈ file.splitOn 10, ¬ s.chars <:+: line) ∨
    (s 0 < 128 ∧ (behind = 10 → ∀ q, FirstBreak file q → lineAfter file q ≠ [] →
      ¬ s.chars <:+: lineBefore file q ++ lineAfter file q))

theorem getElem?_last {text : List UInt8} (some : text ≠ []) :
    text[text.length - 1]? = Option.some 10 ↔ Ended text := by
  rw [ended_iff_getLast?, List.getLast?_eq_getElem?, or_iff_right some]

theorem FirstBreak.unique {file : List UInt8} {q q' : Nat} (one : FirstBreak file q)
    (two : FirstBreak file q') : q = q' := by
  rcases Nat.lt_trichotomy q q' with less | same | more
  · exact absurd (two.earlier q one.positive less one.aligned) one.unfinished
  · exact same
  · exact absurd (one.earlier q' two.positive more two.aligned) two.unfinished

section Pieces

variable {chunk rest : List UInt8} (full : chunk.length = 1024)

include full

theorem getElem?_end_chunk : (chunk ++ rest)[1024 - 1]? = some 10 ↔ Ended chunk := by
  have some : chunk ≠ [] := by
    rintro rfl
    cases full
  rw [List.getElem?_append_left (by omega), ← full, getElem?_last some]

theorem getElem?_behind_chunk {j : Nat} (positive : 0 < j) :
    (chunk ++ rest)[1024 + j - 1]? = rest[j - 1]? := by
  rw [List.getElem?_append_right (by omega)]
  congr 1
  omega

/-- Behind a complete piece the search for the first incomplete one goes on. -/
theorem firstBreak_append_iff (ended : Ended chunk) {q : Nat} (positive : 0 < q) :
    FirstBreak (chunk ++ rest) (1024 + q) ↔ FirstBreak rest q := by
  have aligned : ∀ j, 1024 ∣ 1024 + j ↔ 1024 ∣ j := fun j => Nat.dvd_add_right (Nat.dvd_refl 1024)
  constructor
  · intro first
    constructor
    case positive => exact positive
    case aligned => exact (aligned q).mp first.aligned
    case within =>
      have within := first.within
      rw [List.length_append] at within
      omega
    case unfinished =>
      rw [← getElem?_behind_chunk full positive]
      exact first.unfinished
    case earlier =>
      intro j some less multiple
      rw [← getElem?_behind_chunk full some]
      exact first.earlier (1024 + j) (by omega) (by omega) ((aligned j).mpr multiple)
  · intro first
    constructor
    case positive => omega
    case aligned => exact (aligned q).mpr first.aligned
    case within =>
      have within := first.within
      rw [List.length_append]
      omega
    case unfinished =>
      rw [getElem?_behind_chunk full positive]
      exact first.unfinished
    case earlier =>
      intro j some less multiple
      obtain ⟨k, rfl⟩ := multiple
      rcases Nat.lt_or_ge k 2 with one | more
      · have first : 1024 * k - 1 = 1024 - 1 := by omega
        rw [first]
        exact (getElem?_end_chunk full).mpr ended
      · have place : 1024 * k = 1024 + (1024 * k - 1024) := by omega
        rw [place, getElem?_behind_chunk full (by omega)]
        refine first.earlier _ (by omega) (by omega) ((aligned _).mp ?_)
        rw [← place]
        exact Nat.dvd_mul_right 1024 k

theorem FirstBreak.beyond (ended : Ended chunk) {q : Nat} (first : FirstBreak (chunk ++ rest) q) :
    ∃ j, 0 < j ∧ q = 1024 + j := by
  obtain ⟨k, rfl⟩ := first.aligned
  have positive := first.positive
  rcases Nat.lt_or_ge k 2 with one | more
  · have place : 1024 * k - 1 = 1024 - 1 := by omega
    have unfinished := first.unfinished
    rw [place] at unfinished
    exact absurd ((getElem?_end_chunk full).mpr ended) unfinished
  · exact ⟨1024 * k - 1024, by omega, by omega⟩

theorem firstBreak_of_open (open_ : ¬ Ended chunk) : FirstBreak (chunk ++ rest) 1024 := by
  constructor
  case positive => decide
  case aligned => exact Nat.dvd_refl 1024
  case within =>
    rw [List.length_append]
    omega
  case unfinished => exact fun newline => open_ ((getElem?_end_chunk full).mp newline)
  case earlier =>
    intro j positive less multiple
    exact absurd (Nat.le_of_dvd positive multiple) (by omega)

end Pieces

/-- The file is searched with a newline at its first break, or as it is if there is none. -/
theorem broken_cases (file : List UInt8) :
    (∃ q, FirstBreak file q ∧ broken file = file.take q ++ 10 :: file.drop q) ∨
      ((∀ q, ¬ FirstBreak file q) ∧ broken file = file) := by
  by_cases few : file.length < 1024
  · refine .inr ⟨fun q first => ?_, broken_short few⟩
    have least := Nat.le_of_dvd first.positive first.aligned
    have within := first.within
    omega
  · have split := (List.take_append_drop 1024 file).symm
    have full : (file.take 1024).length = 1024 := by
      rw [List.length_take]
      omega
    have less : (file.drop 1024).length < file.length := by
      rw [List.length_drop]
      omega
    have later := broken_cases (file.drop 1024)
    generalize file.take 1024 = chunk at split full
    generalize file.drop 1024 = rest at split later
    subst split
    by_cases ended : Ended chunk
    · rw [broken_ended full ended]
      rcases later with ⟨q, first, eq⟩ | ⟨none, eq⟩
      · refine .inl ⟨1024 + q, (firstBreak_append_iff full ended first.positive).mpr first, ?_⟩
        rw [eq, ← full, List.take_length_add_append, List.drop_length_add_append, List.append_assoc]
      · refine .inr ⟨fun q first => ?_, by rw [eq]⟩
        obtain ⟨j, positive, rfl⟩ := first.beyond full ended
        exact none j ((firstBreak_append_iff full ended positive).mp first)
    · refine .inl ⟨1024, firstBreak_of_open full ended, ?_⟩
      rw [broken_open full ended, ← full, List.take_left, List.drop_left]
termination_by file.length

/-! ### The line at the break -/

theorem takeWhile_line {line back : List UInt8} (noNewline : 10 ∉ line)
    (stopped : back = [] ∨ ∃ next, back = 10 :: next) :
    (line ++ back).takeWhile (· ≠ 10) = line := by
  have inside : ∀ c ∈ line, decide (c ≠ 10) = true := by
    intro c mem
    exact decide_eq_true fun same => noNewline (same ▸ mem)
  rw [List.takeWhile_append_of_pos inside]
  rcases stopped with rfl | ⟨next, rfl⟩ <;> simp

theorem lineBefore_eq {front start rest : List UInt8} (ended : Ended front)
    (noNewline : 10 ∉ start) :
    lineBefore (front ++ start ++ rest) (front ++ start).length = start := by
  rw [lineBefore, List.take_left, List.reverse_append, takeWhile_line (by simpa), List.reverse_reverse]
  rcases ended with rfl | ⟨text, rfl⟩
  · exact .inl rfl
  · exact .inr ⟨text.reverse, by simp⟩

theorem lineAfter_eq {front tail back : List UInt8} (noNewline : 10 ∉ tail)
    (stopped : back = [] ∨ ∃ next, back = 10 :: next) :
    lineAfter (front ++ (tail ++ back)) front.length = tail := by
  rw [lineAfter, List.drop_left, takeWhile_line noNewline stopped]

/-- What follows a line is printed after it. -/
theorem printedLines_line_append (s fname : CStr) {back : List UInt8}
    (stopped : back = [] ∨ ∃ next, back = 10 :: next) :
    ∃ more, ∀ line, 10 ∉ line →
      printedLines s fname (line ++ back) = printed s fname line ++ more := by
  rcases stopped with rfl | ⟨next, rfl⟩
  · refine ⟨[], fun line noNewline => ?_⟩
    rw [List.append_nil, List.append_nil, printedLines_line noNewline]
  · refine ⟨printedLines s fname next, fun line noNewline => ?_⟩
    rw [printedLines_append_newline, printedLines_line noNewline]

theorem length_report (line : List UInt8) :
    (report fname line).length = fname.chars.length + line.length + 2 := by
  simp only [report, List.length_append, List.length_singleton]
  omega

/-- Two parts of a line are printed like the line only if one is empty or it is not found. -/
theorem printed_append_iff (nonempty : s.chars ≠ []) {start tail : List UInt8} (some : start ≠ []) :
    printed s fname start ++ printed s fname tail = printed s fname (start ++ tail) ↔
      tail ≠ [] → ¬ Found s (start ++ tail) := by
  constructor
  · intro same more found
    have positive := List.length_pos_iff.mpr some
    have positive' := List.length_pos_iff.mpr more
    have lengths := congrArg List.length same
    simp only [printed, if_pos found, List.length_append, length_report] at lengths
    split_ifs at lengths <;> simp only [length_report, List.length_nil] at lengths <;> omega
  · intro safe
    by_cases none : tail = []
    · subst none
      have nothing : printed s fname [] = [] := by
        rw [← printedLines_line List.not_mem_nil, printedLines_nil nonempty]
      rw [nothing, List.append_nil, List.append_nil]
    · have hidden := safe none
      have first : ¬ Found s start := fun found =>
        hidden ⟨found.1, found.2.trans (List.prefix_append start tail).isInfix⟩
      have second : ¬ Found s tail := fun found =>
        hidden ⟨found.1, found.2.trans (List.suffix_append start tail).isInfix⟩
      simp only [printed, if_neg hidden, if_neg first, if_neg second, List.append_nil]

/-- The file around a position, with the line there in the middle. -/
structure Around (file : List UInt8) (q : Nat) (front back : List UInt8) : Prop where
  before : file.take q = front ++ lineBefore file q
  after : file.drop q = lineAfter file q ++ back
  ended : Ended front
  stopped : back = [] ∨ ∃ next, back = 10 :: next
  noBefore : 10 ∉ lineBefore file q
  noAfter : 10 ∉ lineAfter file q

theorem exists_around {file : List UInt8} {q : Nat} (within : q ≤ file.length) :
    ∃ front back, Around file q front back := by
  have split := (List.take_append_drop q file).symm
  have length : (file.take q).length = q := by
    rw [List.length_take]
    omega
  obtain ⟨front, start, startEq, ended, noStart⟩ := exists_lineStart (file.take q)
  obtain ⟨tail, back, tailEq, noTail, stopped⟩ := exists_lineEnd (file.drop q)
  rw [startEq, tailEq] at split
  rw [startEq] at length
  have before : lineBefore file q = start := by
    rw [split, ← length]
    exact lineBefore_eq ended noStart
  have after : lineAfter file q = tail := by
    rw [split, ← length]
    exact lineAfter_eq noTail stopped
  refine ⟨front, back, ?_, ?_, ended, stopped, ?_, ?_⟩
  · rw [before, startEq]
  · rw [after, tailEq]
  · rwa [before]
  · rwa [after]

namespace Around

variable {file front back : List UInt8} {q : Nat}

theorem eq_append (around : Around file q front back) :
    file = front ++ (lineBefore file q ++ lineAfter file q ++ back) := by
  have split := (List.take_append_drop q file).symm
  rw [around.before, around.after] at split
  rw [List.append_assoc (lineBefore file q), ← List.append_assoc]
  exact split

theorem noNewline (around : Around file q front back) :
    10 ∉ lineBefore file q ++ lineAfter file q := by
  simp [around.noBefore, around.noAfter]

theorem mem_splitOn (around : Around file q front back) :
    lineBefore file q ++ lineAfter file q ∈ file.splitOn 10 := by
  have mem := mem_splitOn_line around.ended around.noNewline around.stopped
  rwa [← around.eq_append] at mem

/-- Something stands before a break. -/
theorem before_ne_nil (around : Around file q front back) (first : FirstBreak file q) :
    lineBefore file q ≠ [] := by
  intro none
  have positive := first.positive
  have within := first.within
  have length : (file.take q).length = q := by
    rw [List.length_take]
    omega
  have ended : Ended (file.take q) := by
    rw [around.before, none, List.append_nil]
    exact around.ended
  have some : file.take q ≠ [] := by
    rw [← List.length_pos_iff]
    omega
  have last := (getElem?_last some).mpr ended
  rw [length, List.getElem?_take_of_lt (by omega)] at last
  exact first.unfinished last

end Around

/-- A newline put into a line shows exactly if both parts are there and the line is found. -/
theorem printedLines_break_iff (nonempty : s.chars ≠ []) {file : List UInt8} {q : Nat}
    (first : FirstBreak file q) :
    printedLines s fname (file.take q ++ 10 :: file.drop q) = printedLines s fname file ↔
      lineAfter file q ≠ [] → ¬ Found s (lineBefore file q ++ lineAfter file q) := by
  obtain ⟨front, back, around⟩ := exists_around first.within
  obtain ⟨more, lines⟩ := printedLines_line_append s fname around.stopped
  have whole : printedLines s fname file =
      printedLines s fname front ++
        (printed s fname (lineBefore file q ++ lineAfter file q) ++ more) := by
    rw [← lines _ around.noNewline, ← printedLines_append_of_ended nonempty around.ended,
      ← around.eq_append]
  have cut : printedLines s fname (file.take q ++ 10 :: file.drop q) =
      printedLines s fname front ++
        (printed s fname (lineBefore file q) ++ printed s fname (lineAfter file q) ++ more) := by
    rw [printedLines_append_newline, around.before, around.after,
      printedLines_append_of_ended nonempty around.ended, printedLines_line around.noBefore,
      lines _ around.noAfter]
    simp
  rw [cut, whole, List.append_cancel_left_eq, List.append_cancel_right_eq]
  exact printed_append_iff nonempty (around.before_ne_nil first)

/-! ### The result -/

theorem printedLines_eq_matchingLines (low : s 0 < 128) (text : List UInt8) :
    printedLines s fname text = matchingLines s fname text := by
  unfold printedLines matchingLines
  induction text.splitOn 10 with
  | nil => rfl
  | cons line lines ih =>
      by_cases found : s.chars <:+: line
      · simp [printed, Found, low, found, ih]
      · simp [printed, Found, found, ih]

theorem printedLines_high (high : ¬ s 0 < 128) (text : List UInt8) :
    printedLines s fname text = [] := by
  simp [printedLines, printed, Found, high]

theorem matchingLines_eq_nil_iff (text : List UInt8) :
    matchingLines s fname text = [] ↔ ∀ line ∈ text.splitOn 10, ¬ s.chars <:+: line := by
  simp [matchingLines, report]

/-- **`grep` prints exactly the matching lines** exactly for the files, patterns and old contents of
`GrepExact`. It returns for all of them, and never leaves its array. -/
theorem grep_prints_iff (s fname : CStr) (file : List UInt8) (data : Memory.Mem)
    (ended : Terminated s) (nonempty : s.chars ≠ []) (nonzero : ∀ c ∈ file, c ≠ 0)
    (short : ∀ line ∈ file.splitOn 10, line.length ≤ 1023) (fuel : Nat)
    (large : file.length + 1026 ≤ fuel) :
    ∃ st, doOneFile fuel s fname (some file) true data = some (0, st) ∧ st.data.inRange = true ∧
      (st.out = matchingLines s fname file ↔ GrepExact s file (data 1024)) := by
  obtain ⟨st, returned, inRange, out⟩ :=
    doOneFile_eq fname ended nonempty data nonzero short large
  refine ⟨st, returned, inRange, ?_⟩
  rw [out]
  by_cases low : s 0 < 128
  · rw [← printedLines_eq_matchingLines low]
    by_cases stale : data 1024 = 10
    · rw [if_pos stale]
      rcases broken_cases file with ⟨q, first, eq⟩ | ⟨none, eq⟩
      · rw [eq, printedLines_break_iff nonempty first]
        constructor
        · intro safe
          refine .inr ⟨low, fun _ q' first' more inside => ?_⟩
          obtain rfl := first.unique first'
          exact safe more ⟨low, inside⟩
        · rintro (nowhere | ⟨_, safe⟩) more found
          · obtain ⟨front, back, around⟩ := exists_around first.within
            exact nowhere _ around.mem_splitOn found.2
          · exact safe stale q first more found.2
      · rw [eq]
        exact ⟨fun _ => .inr ⟨low, fun _ q first => absurd first (none q)⟩, fun _ => rfl⟩
    · rw [if_neg stale]
      exact ⟨fun _ => .inr ⟨low, fun newline => absurd newline stale⟩, fun _ => rfl⟩
  · rw [printedLines_high low, eq_comm, matchingLines_eq_nil_iff]
    exact ⟨.inl, fun exactly => exactly.resolve_right fun h => low h.1⟩

/-- The line `x` and one of 1023 bytes that reaches one byte into the second piece. -/
def sampleFile : List UInt8 := (120 :: 10 :: List.replicate 1022 97) ++ [98, 10]

/-- The pattern `ab`. -/
def samplePattern : CStr := cLit [97, 98]

theorem chars_samplePattern : samplePattern.chars = [97, 98] :=
  chars_cLit (by decide) (by decide)

theorem sampleFile_nonzero : ∀ c ∈ sampleFile, c ≠ 0 := by
  intro c mem
  simp only [sampleFile, List.mem_append, List.mem_cons, List.mem_replicate, List.not_mem_nil,
    or_false] at mem
  rcases mem with (rfl | rfl | ⟨-, rfl⟩) | rfl | rfl <;> decide

theorem sampleFile_short : ∀ line ∈ sampleFile.splitOn 10, line.length ≤ 1023 := by decide +kernel

theorem grep_prints_zeroed :
    ∃ st, doOneFile 4096 samplePattern (cLit [102]) (some sampleFile) true (fun _ => 0) =
        some (0, st) ∧ st.data.inRange = true ∧
      st.out = matchingLines samplePattern (cLit [102]) sampleFile := by
  have nonempty : samplePattern.chars ≠ [] := by
    rw [chars_samplePattern]
    decide
  have exactly : GrepExact samplePattern sampleFile 0 :=
    .inr ⟨by decide, fun newline => absurd newline (by decide)⟩
  obtain ⟨st, returned, inRange, out⟩ := grep_prints_iff samplePattern (cLit [102]) sampleFile
    (fun _ => 0) ⟨2, by decide, rfl⟩ nonempty sampleFile_nonzero sampleFile_short 4096
    (by decide +kernel)
  exact ⟨st, returned, inRange, out.mpr exactly⟩

/-- With newlines in the array before, the second line is cut and not printed. -/
theorem grep_cuts_line :
    (∃ line ∈ sampleFile.splitOn 10, samplePattern.chars <:+: line) ∧
      ∃ st, doOneFile 4096 samplePattern (cLit [102]) (some sampleFile) true (fun _ => 10) =
        some (0, st) ∧ st.out = [] ∧
          st.out ≠ matchingLines samplePattern (cLit [102]) sampleFile := by
  have nonempty : samplePattern.chars ≠ [] := by
    rw [chars_samplePattern]
    decide
  have found : ∃ line ∈ sampleFile.splitOn 10, samplePattern.chars <:+: line := by
    rw [chars_samplePattern]
    decide +kernel
  have ended : Terminated samplePattern := ⟨2, by decide, rfl⟩
  obtain ⟨st, returned, -, out⟩ := doOneFile_eq (cLit [102]) ended nonempty (fun _ => 10)
    sampleFile_nonzero sampleFile_short (by decide +kernel : sampleFile.length + 1026 ≤ 4096)
  have cut : broken sampleFile = (120 :: 10 :: List.replicate 1022 97) ++ 10 :: [98, 10] :=
    broken_open (by decide +kernel) (by decide +kernel)
  have nothing : st.out = [] := by
    rw [out, if_pos rfl, cut, printedLines_eq_matchingLines (by decide), matchingLines_eq_nil_iff,
      chars_samplePattern]
    decide +kernel
  refine ⟨found, st, returned, nothing, fun same => ?_⟩
  rw [nothing, eq_comm, matchingLines_eq_nil_iff] at same
  obtain ⟨line, mem, inside⟩ := found
  exact same line mem inside

end Linux391.Grep
