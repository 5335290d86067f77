import Linux391.Drivers.Fs
import Mathlib.Data.List.TakeWhile
import Mathlib.Tactic.IntervalCases

/-!
Names in the directory.

A directory entry holds its name in a field of 32 bytes: padded with NULs when the name
is shorter, and with no NUL at all when it has 32 characters. `read_dentry_by_name`
takes the field for a C string, so a full name runs on into the type that follows it: it
ends there for the type 0, and has one character more for the types 1 and 2
(`chars_filename`). `NameSafe` says for which names this makes no difference.
-/

namespace Linux391

open Memory

/-! ### The directory format -/

/-- The name an entry carries: its 32 bytes up to the first NUL. -/
def Dentry.name (d : Dentry) : List UInt8 := ((List.range 32).map d.bytes).takeWhile (· != 0)

/-- An entry as the format has it. -/
structure Dentry.OnDisk (d : Dentry) : Prop where
  nonempty : d.name ≠ []
  padded : ∀ i < 32, d.name.length ≤ i → d.bytes i = 0
  type_le : d.filetype ≤ 2

namespace Fs

structure NamedDirectory (fs : Fs) : Prop where
  count_le : fs.dirEntryNum ≤ 63
  entries : ∀ i < fs.dirEntryNum, (fs.dentry i).OnDisk

/-- The first entry with a name. -/
def firstNamed (fs : Fs) (name : List UInt8) : Option Nat :=
  (List.range fs.dirEntryNum).find? fun i => (fs.dentry i).name == name

/-- `read_dentry_by_name` with what its second argument points at, `none` for NULL: the
return value, and what is there afterwards. -/
def readDentryByNameInto (fs : Fs) (fname : CStr) : Option Dentry → Int × Option Dentry
  | none => (-1, none)
  | some old =>
      match fs.readDentryByName fname with
      | some found => (0, some found)
      | none => (-1, some old)

end Fs

/-! ### The field as a C string -/

variable {d : Dentry}

theorem Dentry.length_name_le (d : Dentry) : d.name.length ≤ 32 := by
  have := (List.takeWhile_sublist (· != 0) (l := (List.range 32).map d.bytes)).length_le
  simpa [name] using this

/-- The name is the first bytes of the field. -/
theorem Dentry.name_eq (d : Dentry) : d.name = (List.range d.name.length).map d.bytes := by
  have front := List.prefix_iff_eq_take.mp
    (List.takeWhile_prefix (· != 0) (l := (List.range 32).map d.bytes))
  have le := d.length_name_le
  unfold name at le ⊢
  conv_lhs => rw [front]
  rw [← List.map_take, List.take_range, Nat.min_eq_left le]

theorem Dentry.bytes_ne_zero {i : Nat} (lt : i < d.name.length) : d.bytes i ≠ 0 := by
  have mem : d.bytes i ∈ d.name := by
    rw [d.name_eq]
    exact List.mem_map.mpr ⟨i, List.mem_range.mpr lt, rfl⟩
  have kept := List.mem_takeWhile_imp mem
  simpa using kept

/-- A type below 256 is its first byte. -/
theorem Dentry.filetype_byte (small : d.filetype < 256) :
    (d.bytes 32).toNat = d.filetype ∧ d.bytes 33 = 0 := by
  have word : d.filetype = (d.bytes 32).toNat + 256 * ((d.bytes 33).toNat + 256 *
      ((d.bytes 34).toNat + 256 * ((d.bytes 35).toNat + 256 * 0))) := rfl
  refine ⟨by omega, ?_⟩
  apply UInt8.toNat_inj.mp
  show (d.bytes 33).toNat = 0
  omega

/-- An entry whose field is taken for a string with one character too many. -/
def Dentry.Overrun (d : Dentry) : Prop := d.name.length = 32 ∧ d.filetype ≠ rtcType

instance (d : Dentry) : Decidable d.Overrun :=
  inferInstanceAs (Decidable (d.name.length = 32 ∧ d.filetype ≠ rtcType))

/-- What `strlen` and `strncmp` see of an entry. -/
theorem Dentry.chars_filename (onDisk : d.OnDisk) :
    d.filename.chars = if d.Overrun then d.name ++ [UInt8.ofNat d.filetype] else d.name := by
  have le := d.length_name_le
  have inside : ∀ j < d.name.length, d.filename j ≠ 0 := fun j lt => d.bytes_ne_zero lt
  obtain ⟨first, second⟩ := d.filetype_byte (by have := onDisk.type_le; omega)
  by_cases short : d.name.length < 32
  · have stop : d.filename d.name.length = 0 := onDisk.padded _ short (Nat.le_refl _)
    rw [if_neg fun overrun => absurd overrun.1 (by omega), chars_eq stop inside (by omega)]
    exact d.name_eq.symm
  · have full : d.name.length = 32 := by omega
    by_cases clock : d.filetype = rtcType
    · have stop : d.filename d.name.length = 0 := by
        rw [full]
        exact UInt8.toNat_inj.mp (first.trans clock)
      rw [if_neg fun overrun => overrun.2 clock, chars_eq stop inside (by omega)]
      exact d.name_eq.symm
    · -- the byte of the type is one more character
      have more : ∀ j < 33, d.filename j ≠ 0 := by
        intro j lt
        rcases Nat.lt_succ_iff_lt_or_eq.mp lt with before | rfl
        · exact inside j (by omega)
        · intro zero
          apply clock
          rw [← first]
          exact congrArg UInt8.toNat zero
      have last : d.bytes 32 = UInt8.ofNat d.filetype := by rw [← first, UInt8.ofNat_toNat]
      have stop : d.filename 33 = 0 := second
      rw [if_pos ⟨full, clock⟩, chars_eq stop more (by omega), List.range_succ, List.map_append,
        List.map_singleton]
      have front := d.name_eq
      rw [full] at front
      rw [← last, front]
      rfl

/-! ### Looking up a name -/

namespace Fs

variable {fs : Fs} {fname : CStr}

/-- The comparison of `read_dentry_by_name` is that of the two C strings. -/
theorem nameMatches_iff {i : Nat} :
    fs.nameMatches fname i = true ↔ fname.chars = (fs.dentry i).filename.chars := by
  rw [chars_eq_iff, nameMatches, Bool.and_eq_true, beq_iff_eq, beq_iff_eq]
  apply and_congr_right
  intro _
  rw [strncmp, strncmpFrom_eq_zero _ _ fun j _ lt => ne_zero_of_lt_strlen (by omega)]
  simp

/-- So a lookup depends on the characters of the name only. -/
theorem readDentryByName_congr {other : CStr} (same : fname.chars = other.chars) :
    fs.readDentryByName fname = fs.readDentryByName other := by
  have matches_ : fs.nameMatches fname = fs.nameMatches other := by
    funext i
    rw [Bool.eq_iff_iff, nameMatches_iff, nameMatches_iff, same]
  rw [readDentryByName, readDentryByName, matches_]

/-- A name for which the type that follows the field makes no difference. A name of 32
characters has to be that of an entry of type 0 first, if it is one's at all; and a name
of 33 must not be that of an entry with its type behind it. -/
structure NameSafe (fs : Fs) (fname : CStr) : Prop where
  full : fname.chars.length = 32 →
    ∀ i, fs.firstNamed fname.chars = some i → (fs.dentry i).filetype = rtcType
  longer : ∀ i < fs.dirEntryNum, (fs.dentry i).Overrun →
    fname.chars ≠ (fs.dentry i).name ++ [UInt8.ofNat (fs.dentry i).filetype]

/-- Under that condition an entry that matches has the name. -/
theorem NameSafe.matches_imp (safe : NameSafe fs fname) (named : fs.NamedDirectory) {i : Nat}
    (lt : i < fs.dirEntryNum) (found : fs.nameMatches fname i = true) :
    (fs.dentry i).name = fname.chars := by
  rw [nameMatches_iff, Dentry.chars_filename (named.entries i lt)] at found
  split_ifs at found with overrun
  · exact absurd found (safe.longer i lt overrun)
  · exact found.symm

/-- And the first entry with the name matches. -/
theorem NameSafe.matches_first (safe : NameSafe fs fname) (named : fs.NamedDirectory) {i : Nat}
    (lt : i < fs.dirEntryNum) (first : fs.firstNamed fname.chars = some i)
    (same : (fs.dentry i).name = fname.chars) : fs.nameMatches fname i = true := by
  rw [nameMatches_iff, Dentry.chars_filename (named.entries i lt), ← same, if_neg]
  rintro ⟨full, other⟩
  exact other (safe.full (by rw [← same, full]) i first)

/-- So the lookup finds what the format says. -/
theorem NameSafe.find_eq (safe : NameSafe fs fname) (named : fs.NamedDirectory) :
    (List.range fs.dirEntryNum).find? (fs.nameMatches fname) = fs.firstNamed fname.chars := by
  cases first : fs.firstNamed fname.chars with
  | none =>
      rw [List.find?_eq_none]
      intro i mem found
      have absent := List.find?_eq_none.mp first i mem
      rw [safe.matches_imp named (List.mem_range.mp mem) found] at absent
      simp at absent
  | some i =>
      obtain ⟨same, j, inside, at_j, before⟩ := List.find?_eq_some_iff_getElem.mp first
      rw [List.length_range] at inside
      rw [List.getElem_range] at at_j
      subst at_j
      have name : (fs.dentry j).name = fname.chars := by simpa using same
      refine List.find?_eq_some_iff_getElem.mpr
        ⟨safe.matches_first named inside first name, j, by simpa using inside, by simp, ?_⟩
      intro i earlier
      have other := before i earlier
      simp only [List.getElem_range] at other ⊢
      rw [Bool.not_eq_true', Bool.eq_false_iff]
      intro found
      rw [safe.matches_imp named (by omega) found] at other
      simp at other

/-- What the lookup should do: copy the first entry with the name, or return -1 and leave
the destination alone. -/
def FollowsFormat (fs : Fs) (fname : CStr) (dentry : Dentry) : Prop :=
  fs.readDentryByNameInto fname (some dentry) =
    match fs.firstNamed fname.chars with
    | some i => (0, some (fs.dentry i))
    | none => (-1, some dentry)

/-- **Looking up a name.** On every directory in the format, the lookup of a name is what
the format says if and only if the name is safe. -/
theorem name_lookup_follows_format (named : fs.NamedDirectory) (dentry : Dentry) :
    FollowsFormat fs fname dentry ↔ NameSafe fs fname := by
  constructor
  · intro follows
    unfold FollowsFormat at follows
    have found : ∀ i < fs.dirEntryNum, fname.chars = (fs.dentry i).filename.chars →
        ∃ j, fs.firstNamed fname.chars = some j := by
      intro i lt same
      cases first : fs.firstNamed fname.chars with
      | some j => exact ⟨j, rfl⟩
      | none =>
          rw [first] at follows
          cases lookup : (List.range fs.dirEntryNum).find? (fs.nameMatches fname) with
          | none =>
              have absent := List.find?_eq_none.mp lookup i (List.mem_range.mpr lt)
              exact absurd (nameMatches_iff.mpr same) absent
          | some j =>
              simp [readDentryByNameInto, readDentryByName, lookup] at follows
    constructor
    · intro full i first
      rw [first] at follows
      by_contra other
      have same : (fs.dentry i).name = fname.chars := by
        have := List.find?_some first
        simpa using this
      have lt : i < fs.dirEntryNum := List.mem_range.mp (List.mem_of_find?_eq_some first)
      -- the entry that is copied has the same bytes, so it matches too
      cases lookup : (List.range fs.dirEntryNum).find? (fs.nameMatches fname) with
      | none => simp [readDentryByNameInto, readDentryByName, lookup] at follows
      | some j =>
          have copied : fs.dentry j = fs.dentry i := by
            simpa [readDentryByNameInto, readDentryByName, lookup] using follows
          have matched := nameMatches_iff.mp (List.find?_some lookup)
          rw [copied, Dentry.chars_filename (named.entries i lt),
            if_pos ⟨same ▸ full, other⟩, same] at matched
          have := congrArg List.length matched
          simp at this
    · intro i lt overrun same
      have matched : fname.chars = (fs.dentry i).filename.chars := by
        rw [same, Dentry.chars_filename (named.entries i lt), if_pos overrun]
      obtain ⟨j, first⟩ := found i lt matched
      have name : (fs.dentry j).name = fname.chars := by
        have := List.find?_some first
        simpa using this
      have short := (fs.dentry j).length_name_le
      have long : fname.chars.length = 33 := by
        rw [same, List.length_append, overrun.1]
        rfl
      rw [name, long] at short
      omega
  · intro safe
    unfold FollowsFormat readDentryByNameInto readDentryByName
    rw [safe.find_eq named]
    cases fs.firstNamed fname.chars <;> rfl

theorem sample_namedDirectory : sample.NamedDirectory where
  count_le := by decide +kernel
  entries i lt := by
    have count : sample.dirEntryNum = 3 := by decide +kernel
    rw [count] at lt
    interval_cases i
    · exact ⟨by decide +kernel, by decide +kernel, by decide +kernel⟩
    · exact ⟨by decide +kernel, by decide +kernel, by decide +kernel⟩
    · exact ⟨by decide +kernel, by decide +kernel, by decide +kernel⟩

/-- The short name of the sample's second program is found. -/
theorem name_lookup_follows_format_bad :
    sample.readDentryByNameInto (cLit [98, 97, 100]) (some ⟨fun _ => 0⟩) =
      (0, some (sample.dentry 1)) := by
  have first : sample.firstNamed (cLit [98, 97, 100]).chars = some 1 := by decide +kernel
  have safe : NameSafe sample (cLit [98, 97, 100]) := by
    have length : (cLit [98, 97, 100]).chars.length = 3 := by decide +kernel
    constructor
    · intro full
      omega
    · intro i _ overrun same
      have := congrArg List.length same
      rw [length, List.length_append, overrun.1] at this
      simp at this
  have follows := (name_lookup_follows_format sample_namedDirectory ⟨fun _ => 0⟩).mpr safe
  rwa [FollowsFormat, first] at follows

/-- An image whose only file has a name of 32 letters. -/
def sampleFullName : Fs where
  bootBlock := 0
  mem x :=
    if x = 0 then 1
    else if 64 ≤ x ∧ x < 96 then 97
    else if x = 96 then 2
    else 0

/-- The file is not found under its name, but under a name that no entry has. -/
theorem name_lookup_misses_full_name :
    sampleFullName.NamedDirectory ∧
      sampleFullName.firstNamed (List.replicate 32 97) = some 0 ∧
      sampleFullName.readDentryByNameInto (cLit (List.replicate 32 97)) (some ⟨fun _ => 0⟩) =
        (-1, some ⟨fun _ => 0⟩) ∧
      sampleFullName.firstNamed (List.replicate 32 97 ++ [2]) = none ∧
      (sampleFullName.readDentryByNameInto (cLit (List.replicate 32 97 ++ [2]))
        (some ⟨fun _ => 0⟩)).1 = 0 := by
  refine ⟨⟨by decide +kernel, ?_⟩, by decide +kernel, ?_, by decide +kernel, ?_⟩
  · intro i lt
    have count : sampleFullName.dirEntryNum = 1 := by decide +kernel
    obtain rfl : i = 0 := by omega
    exact ⟨by decide +kernel, by decide +kernel, by decide +kernel⟩
  · have lookup : (List.range sampleFullName.dirEntryNum).find?
        (sampleFullName.nameMatches (cLit (List.replicate 32 97))) = none := by decide +kernel
    simp only [readDentryByNameInto, readDentryByName, lookup, Option.map_none]
  · have lookup : (List.range sampleFullName.dirEntryNum).find?
        (sampleFullName.nameMatches (cLit (List.replicate 32 97 ++ [2]))) = some 0 := by
      decide +kernel
    simp only [readDentryByNameInto, readDentryByName, lookup, Option.map_some]

end Fs

end Linux391
