import Linux391.Library.FlatMemory
import Mathlib.Logic.Function.Iterate

/-!
`memset` and `memcpy` of `lib/lib.c`.

Both are the same assembly around different moves: single bytes up to an address that is a multiple of
four, a string instruction repeated for the words, single bytes for what is left. `block` is one
block of it between two labels, `run` goes from label to label, and `Moves` is what the two routines
differ in.

That head, words and tail add up is shown once, for any moves and any invariant that is indexed by the
number of bytes done (`Counts.run`). Each routine then has to say what one byte and one word do
(`Moved.byte`, `Moved.word`). `word_routines` is the result for both.
-/

namespace Linux391.MemoryRoutines

open FlatMemory

/-! ### The code -/

/-- The registers a move uses, and the memory. -/
structure Data where
  eax : UInt32
  edi : UInt32
  esi : UInt32
  mem : Space

/-- With the registers that count. -/
structure Cpu extends Data where
  ecx : UInt32
  edx : UInt32

/-- A byte and a word moved, each with the pointers advanced. -/
structure Moves where
  byte : Data → Data
  word : Data → Data

inductive Label
  | top
  | aligned
  | bottom
  | done

/-- `rep`: an instruction as often as `%ecx` says, which counts down to 0. -/
def rep (op : Data → Data) (cpu : Cpu) : Cpu :=
  { op^[cpu.ecx.toNat] cpu.toData with ecx := 0, edx := cpu.edx }

/-- The code from a label to the next jump. -/
def block (moves : Moves) : Label → Cpu → Label × Cpu
  | .top, cpu =>
      if cpu.ecx = 0 then (.done, cpu)
      else if cpu.edi &&& 0x3 = 0 then (.aligned, cpu)
      else (.top, { moves.byte cpu.toData with ecx := cpu.ecx - 1, edx := cpu.edx })
  | .aligned, cpu =>
      let cpu := { cpu with edx := cpu.ecx }
      let cpu := { cpu with ecx := cpu.ecx >>> 2 }
      let cpu := { cpu with edx := cpu.edx &&& 0x3 }
      (.bottom, rep moves.word cpu)
  | .bottom, cpu =>
      if cpu.edx = 0 then (.done, cpu)
      else (.bottom, { moves.byte cpu.toData with ecx := cpu.ecx, edx := cpu.edx - 1 })
  | .done, cpu => (.done, cpu)

/-- At most `fuel` blocks. -/
def run (moves : Moves) : Nat → Label → Cpu → Option Cpu
  | _, .done, cpu => some cpu
  | 0, _, _ => none
  | fuel + 1, label, cpu => run moves fuel (block moves label cpu).1 (block moves label cpu).2

/-- The operand of `memset` for `%eax`. -/
def broadcast (c : UInt32) : UInt32 := c <<< 24 ||| c <<< 16 ||| c <<< 8 ||| c

def memsetMoves : Moves where
  -- `movb %al, (%edi)`
  byte d := { d with mem := Function.update d.mem d.edi d.eax.toUInt8, edi := d.edi + 1 }
  -- `stosl`
  word d := { d with mem := store32 d.mem d.edi d.eax, edi := d.edi + 4 }

/-- `memset(s, c, n)`, entered with the other registers and the memory of `cpu`. -/
def memset (fuel : Nat) (cpu : Cpu) (s c n : UInt32) : Option (UInt32 × Space) :=
  let c := c &&& 0xFF
  let eax := broadcast c
  (run memsetMoves fuel .top { cpu with eax, edi := s, ecx := n }).map fun cpu => (s, cpu.mem)

def memcpyMoves : Moves where
  -- `movb (%esi), %al` and `movb %al, (%edi)`
  byte d :=
    let al := d.mem d.esi
    { eax := d.eax &&& 0xFFFFFF00 ||| al.toUInt32
      edi := d.edi + 1
      esi := d.esi + 1
      mem := Function.update d.mem d.edi al }
  -- `movsl`
  word d :=
    { d with
      edi := d.edi + 4
      esi := d.esi + 4
      mem := store32 d.mem d.edi (load32 d.mem d.esi) }

/-- `memcpy(dest, src, n)`, entered with the other registers and the memory of `cpu`. -/
def memcpy (fuel : Nat) (cpu : Cpu) (dest src n : UInt32) : Option (UInt32 × Space) :=
  (run memcpyMoves fuel .top { cpu with esi := src, edi := dest, ecx := n }).map fun cpu =>
    (dest, cpu.mem)

/-! ### Head, words and tail -/

theorem run_done (moves : Moves) (fuel : Nat) (cpu : Cpu) : run moves fuel .done cpu = some cpu := by
  cases fuel <;> rfl

theorem run_succ (label : Label) (going : label ≠ .done) (moves : Moves) (fuel : Nat) (cpu : Cpu) :
    run moves (fuel + 1) label cpu =
      run moves fuel (block moves label cpu).1 (block moves label cpu).2 := by
  cases label with
  | done => exact absurd rfl going
  | _ => rfl

theorem and_three (x : UInt32) : (x &&& 0x3).toNat = x.toNat % 4 := by
  rw [UInt32.toNat_and]
  exact Nat.and_two_pow_sub_one_eq_mod x.toNat 2

theorem and_three_eq_zero_iff (x : UInt32) : x &&& 0x3 = 0 ↔ x.toNat % 4 = 0 := by
  rw [← UInt32.toNat_inj, and_three]
  rfl

/-- A counter that is not at 0 goes down by one. -/
theorem toNat_sub_one_add_one {x : UInt32} (nonzero : x ≠ 0) : (x - 1).toNat + 1 = x.toNat := by
  have pos : 1 ≤ x.toNat := Nat.one_le_iff_ne_zero.mpr fun zero => nonzero (UInt32.toNat_inj.mp zero)
  have less : (x - 1).toNat = x.toNat - 1 :=
    UInt32.toNat_sub_of_le x 1 (UInt32.le_iff_toNat_le.mpr pos)
  rw [less, Nat.sub_add_cancel pos]

theorem shiftRight_two (x : UInt32) : (x >>> 2).toNat = x.toNat / 4 := by
  rw [UInt32.toNat_shiftRight]
  exact Nat.shiftRight_eq_div_pow x.toNat 2

/-- `I k` is kept while the number of bytes done goes from `k` up to `n`. -/
structure Counts (moves : Moves) (base : UInt32) (n : Nat) (I : Nat → Data → Prop) : Prop where
  edi : ∀ {k d}, I k d → d.edi = base + UInt32.ofNat k
  byte : ∀ {k d}, k < n → I k d → I (k + 1) (moves.byte d)
  word : ∀ {k d}, k + 4 ≤ n → I k d → I (k + 4) (moves.word d)

namespace Counts

variable {moves : Moves} {base : UInt32} {n k fuel : Nat} {I : Nat → Data → Prop} {cpu : Cpu}

theorem multiple_iff (counts : Counts moves base n I) {d : Data} (done : I k d) :
    d.edi &&& 0x3 = 0 ↔ (base.toNat + k) % 4 = 0 := by
  rw [and_three_eq_zero_iff, counts.edi done, UInt32.toNat_add, UInt32.toNat_ofNat']
  omega

theorem words (counts : Counts moves base n I) {d : Data} (j : Nat) (room : k + 4 * j ≤ n)
    (done : I k d) : I (k + 4 * j) (moves.word^[j] d) := by
  induction j with
  | zero => exact done
  | succ j ih =>
      rw [Function.iterate_succ_apply']
      exact counts.word (by omega) (ih (by omega))

/-- A counter at 0 ends the routine, and there is nothing left to do. -/
theorem finish {count : UInt32} (none : count = 0) (done : I k cpu.toData)
    (left : k + count.toNat = n) :
    ∃ cpu', MemoryRoutines.run moves fuel .done cpu = some cpu' ∧ I n cpu'.toData := by
  rw [none] at left
  obtain rfl : k = n := left
  exact ⟨cpu, run_done moves fuel cpu, done⟩

/-- The tail, with `%edx` bytes to go. -/
theorem bottom (counts : Counts moves base n I) (done : I k cpu.toData)
    (left : k + cpu.edx.toNat = n) (enough : cpu.edx.toNat < fuel) :
    ∃ cpu', run moves fuel .bottom cpu = some cpu' ∧ I n cpu'.toData := by
  induction fuel generalizing k cpu with
  | zero => exact absurd enough (Nat.not_lt_zero _)
  | succ fuel ih =>
      rw [run_succ .bottom nofun, block]
      by_cases none : cpu.edx = 0
      · rw [if_pos none]
        exact finish none done left
      · have less := toNat_sub_one_add_one none
        rw [if_neg none]
        refine ih (counts.byte (by omega) done) ?_ ?_
        · dsimp only
          omega
        · dsimp only
          omega

/-- The words: four times the quotient and the remainder make up what `%ecx` says. -/
theorem aligned (counts : Counts moves base n I) (done : I k cpu.toData)
    (left : k + cpu.ecx.toNat = n) (enough : 5 ≤ fuel) :
    ∃ cpu', run moves fuel .aligned cpu = some cpu' ∧ I n cpu'.toData := by
  obtain ⟨fuel, rfl⟩ := Nat.exists_eq_add_one.mpr (Nat.zero_lt_of_lt enough)
  have words : (cpu.ecx >>> 2).toNat = cpu.ecx.toNat / 4 := shiftRight_two _
  have odd : (cpu.ecx &&& 0x3).toNat = cpu.ecx.toNat % 4 := and_three _
  rw [run_succ .aligned nofun, block]
  refine counts.bottom (counts.words (cpu.ecx >>> 2).toNat (by omega) done) ?_ ?_
  · dsimp only [rep]
    omega
  · dsimp only [rep]
    omega

/-- The head, where `r` is the number of bytes up to a multiple of four. -/
theorem top (counts : Counts moves base n I) (r : Nat) (done : I k cpu.toData)
    (left : k + cpu.ecx.toNat = n) (next : (base.toNat + k + r) % 4 = 0) (enough : r + 6 ≤ fuel) :
    ∃ cpu', run moves fuel .top cpu = some cpu' ∧ I n cpu'.toData := by
  induction fuel generalizing k cpu r with
  | zero => exact absurd enough (by omega)
  | succ fuel ih =>
      rw [run_succ .top nofun, block]
      by_cases none : cpu.ecx = 0
      · rw [if_pos none]
        exact finish none done left
      · rw [if_neg none]
        by_cases multiple : cpu.edi &&& 0x3 = 0
        · rw [if_pos multiple]
          exact counts.aligned done left (by omega)
        · rw [if_neg multiple]
          -- not at a multiple of four, so there is a byte up to the next one
          cases r with
          | zero => exact absurd ((counts.multiple_iff done).mpr next) multiple
          | succ r =>
              have less := toNat_sub_one_add_one none
              refine ih r (counts.byte (by omega) done) ?_ (by omega) (by omega)
              dsimp only
              omega

/-- From the first label the routine comes to an end, with all bytes done. -/
theorem run (counts : Counts moves base n I) (cpu : Cpu) (start : I 0 cpu.toData)
    (count : cpu.ecx.toNat = n) (enough : 9 ≤ fuel) :
    ∃ cpu', MemoryRoutines.run moves fuel .top cpu = some cpu' ∧ I n cpu'.toData :=
  counts.top ((4 - base.toNat % 4) % 4) start (by omega) (by omega) (by omega)

end Counts

/-! ### What the moves do -/

/-- Of the places from `base` on the first `k` have been set according to `f`. -/
structure Moved (old : Space) (base : UInt32) (f : UInt32 → UInt8) (k : Nat) (d : Data) : Prop where
  edi : d.edi = base + UInt32.ofNat k
  mem : ∀ o, d.mem (base + o) = if o.toNat < k then f o else old (base + o)

namespace Moved

variable {old : Space} {base : UInt32} {f : UInt32 → UInt8} {k : Nat} {d d' : Data}

theorem start (edi : d.edi = base) (mem : d.mem = old) : Moved old base f 0 d where
  edi := edi.trans (UInt32.add_zero base).symm
  mem o := by rw [mem, if_neg (Nat.not_lt_zero _)]

theorem byte (moved : Moved old base f k d) (fits : k < 2 ^ 32) (edi : d'.edi = d.edi + 1)
    (mem : d'.mem = Function.update d.mem d.edi (f (UInt32.ofNat k))) :
    Moved old base f (k + 1) d' where
  edi := by
    rw [edi, moved.edi]
    exact add_ofNat_add base k _
  mem o := by
    rw [mem, moved.edi, update_offset fits, moved.mem]
    by_cases here : o.toNat = k
    · rw [if_pos here, if_pos (by omega), ← (eq_ofNat_iff fits).mpr here]
    · rw [if_neg here]
      exact if_congr (by omega) rfl rfl

theorem word (moved : Moved old base f k d) (fits : k + 4 ≤ 2 ^ 32) {v : UInt32}
    (edi : d'.edi = d.edi + 4) (mem : d'.mem = store32 d.mem d.edi v)
    (bytes : ∀ i < 4, byteOf v i = f (UInt32.ofNat (k + i))) : Moved old base f (k + 4) d' where
  edi := by
    rw [edi, moved.edi]
    exact add_ofNat_add base k _
  mem o := by
    rw [mem, moved.edi, store32_offset fits, moved.mem]
    by_cases here : k ≤ o.toNat ∧ o.toNat < k + 4
    · have offset : UInt32.ofNat (k + (o.toNat - k)) = o := by
        rw [Nat.add_sub_cancel' here.1]
        exact UInt32.ofNat_toNat
      rw [if_pos here, if_pos here.2, bytes _ (by omega), offset]
    · rw [if_neg here]
      exact if_congr (by omega) rfl rfl

/-- By address instead of offset. -/
theorem apply (moved : Moved old base f k d) (x : UInt32) :
    d.mem x = if (x - base).toNat < k then f (x - base) else old x := by
  have offset : base + (x - base) = x := by rw [UInt32.add_comm, UInt32.sub_add_cancel]
  have there := moved.mem (x - base)
  rwa [offset] at there

/-- What is beyond is still there to be read. -/
theorem outside (moved : Moved old base f k d) {x : UInt32} (far : k ≤ (x - base).toNat) :
    d.mem x = old x := by
  rw [moved.apply, if_neg (Nat.not_lt.mpr far)]

end Moved

/-! ### memset -/

theorem byteOf_broadcast_ofNat :
    ∀ (n : Fin 256) (i : Fin 4), byteOf (broadcast (UInt32.ofNat n)) i = UInt8.ofNat n := by
  decide +kernel

/-- All four bytes are the low byte. -/
theorem byteOf_broadcast (c : UInt32) {i : Nat} (inside : i < 4) :
    byteOf (broadcast (c &&& 0xFF)) i = c.toUInt8 := by
  have small : c.toNat % 256 < 256 := Nat.mod_lt _ (by decide)
  have low : c &&& 0xFF = UInt32.ofNat (c.toNat % 256) := by
    rw [← UInt32.toNat_inj, UInt32.toNat_and, toNat_ofNat_of_lt (by omega)]
    exact Nat.and_two_pow_sub_one_eq_mod c.toNat 8
  have byte : c.toUInt8 = UInt8.ofNat (c.toNat % 256) := by
    rw [← UInt8.toNat_inj, UInt32.toNat_toUInt8, UInt8.toNat_ofNat']
    exact (Nat.mod_mod _ _).symm
  rw [low, byte]
  exact byteOf_broadcast_ofNat ⟨c.toNat % 256, small⟩ ⟨i, inside⟩

theorem memset_counts (old : Space) (s c : UInt32) {n : Nat} (fits : n < 2 ^ 32) :
    Counts memsetMoves s n fun k d =>
      Moved old s (fun _ => c.toUInt8) k d ∧ d.eax = broadcast (c &&& 0xFF) where
  edi inv := inv.1.edi
  byte {k d} lt inv := by
    obtain ⟨moved, eax⟩ := inv
    have low : d.eax.toUInt8 = c.toUInt8 := by
      rw [eax, ← byteOf_zero]
      exact byteOf_broadcast c (Nat.zero_lt_succ 3)
    refine ⟨moved.byte (by omega) rfl ?_, eax⟩
    rw [← low]
    rfl
  word {k d} le inv := by
    obtain ⟨moved, eax⟩ := inv
    refine ⟨moved.word (by omega) rfl rfl fun i lt => ?_, eax⟩
    rw [eax]
    exact byteOf_broadcast c lt

theorem memset_eq (cpu : Cpu) (s c n : UInt32) {fuel : Nat} (enough : 9 ≤ fuel) :
    ∃ mem, memset fuel cpu s c n = some (s, mem) ∧
      ∀ a, mem a = if (a - s).toNat < n.toNat then c.toUInt8 else cpu.mem a := by
  obtain ⟨cpu', returned, moved, -⟩ := (memset_counts cpu.mem s c n.toNat_lt).run
    { cpu with eax := broadcast (c &&& 0xFF), edi := s, ecx := n } ⟨.start rfl rfl, rfl⟩ rfl enough
  refine ⟨cpu'.mem, ?_, moved.apply⟩
  rw [memset, returned]
  rfl

/-! ### memcpy -/

theorem memcpy_counts {old : Space} {dest src : UInt32} {n : Nat} (fits : n < 2 ^ 32)
    (apart : ∀ i < n, n ≤ (src + UInt32.ofNat i - dest).toNat) :
    Counts memcpyMoves dest n fun k d =>
      Moved old dest (fun o => old (src + o)) k d ∧ d.esi = src + UInt32.ofNat k where
  edi inv := inv.1.edi
  byte {k d} lt inv := by
    obtain ⟨moved, esi⟩ := inv
    have read : d.mem d.esi = old (src + UInt32.ofNat k) := by
      rw [esi]
      exact moved.outside (Nat.le_trans (Nat.le_of_lt lt) (apart k lt))
    refine ⟨moved.byte (by omega) rfl (by rw [← read]; rfl), ?_⟩
    exact (congrArg (· + 1) esi).trans (add_ofNat_add src k 1)
  word {k d} le inv := by
    obtain ⟨moved, esi⟩ := inv
    refine ⟨moved.word (by omega) rfl rfl fun i lt => ?_, ?_⟩
    · have inside : k + i < n := by omega
      rw [byteOf_load32 lt, esi, add_ofNat_add]
      exact moved.outside (Nat.le_trans (by omega) (apart (k + i) inside))
    · exact (congrArg (· + 4) esi).trans (add_ofNat_add src k 4)

theorem memcpy_eq (cpu : Cpu) {dest src n : UInt32} {fuel : Nat} (enough : 9 ≤ fuel)
    (apart : ∀ i < n.toNat, n.toNat ≤ (src + UInt32.ofNat i - dest).toNat) :
    ∃ mem, memcpy fuel cpu dest src n = some (dest, mem) ∧
      ∀ a, mem a = if (a - dest).toNat < n.toNat then cpu.mem (src + (a - dest)) else cpu.mem a := by
  obtain ⟨cpu', returned, moved, -⟩ := (memcpy_counts n.toNat_lt apart).run
    { cpu with esi := src, edi := dest, ecx := n }
    ⟨.start rfl rfl, (UInt32.add_zero src).symm⟩ rfl enough
  refine ⟨cpu'.mem, ?_, moved.apply⟩
  rw [memcpy, returned]
  rfl

/-! ### Ranges that do not wrap around -/

section

variable {base src n : UInt32}

/-- Addresses instead of offsets. -/
theorem offset_lt_iff (fits : base.toNat + n.toNat ≤ 2 ^ 32) (a : UInt32) :
    (a - base).toNat < n.toNat ↔ base.toNat ≤ a.toNat ∧ a.toNat < base.toNat + n.toNat := by
  have bound := a.toNat_lt
  rw [UInt32.toNat_sub]
  omega

theorem apart_of_disjoint (fits : src.toNat + n.toNat ≤ 2 ^ 32)
    (fitsBase : base.toNat + n.toNat ≤ 2 ^ 32)
    (disjoint : base.toNat + n.toNat ≤ src.toNat ∨ src.toNat + n.toNat ≤ base.toNat) :
    ∀ i < n.toNat, n.toNat ≤ (src + UInt32.ofNat i - base).toNat := by
  intro i lt
  rw [← Nat.not_lt, offset_lt_iff fitsBase, UInt32.toNat_add, UInt32.toNat_ofNat']
  omega

end

/-- **The word-wise routines do what byte-wise ones would.** `memset` sets the bytes of its range to
the low byte of `c`, `memcpy` copies the bytes of a range that shares none with the destination, and
both leave every other byte as it was, for any alignment and any count. -/
theorem word_routines (cpu : Cpu) {fuel : Nat} (enough : 9 ≤ fuel) :
    (∀ s c n : UInt32, s.toNat + n.toNat ≤ 2 ^ 32 →
      ∃ mem, memset fuel cpu s c n = some (s, mem) ∧
        ∀ a, mem a = if s.toNat ≤ a.toNat ∧ a.toNat < s.toNat + n.toNat then c.toUInt8
          else cpu.mem a) ∧
    (∀ dest src n : UInt32, dest.toNat + n.toNat ≤ 2 ^ 32 → src.toNat + n.toNat ≤ 2 ^ 32 →
      dest.toNat + n.toNat ≤ src.toNat ∨ src.toNat + n.toNat ≤ dest.toNat →
      ∃ mem, memcpy fuel cpu dest src n = some (dest, mem) ∧
        (∀ i < n, mem (dest + i) = cpu.mem (src + i)) ∧
        ∀ a, ¬ (dest.toNat ≤ a.toNat ∧ a.toNat < dest.toNat + n.toNat) → mem a = cpu.mem a) := by
  constructor
  · intro s c n fits
    obtain ⟨mem, returned, bytes⟩ := memset_eq cpu s c n enough
    refine ⟨mem, returned, fun a => ?_⟩
    rw [bytes]
    exact if_congr (offset_lt_iff fits a) rfl rfl
  · intro dest src n fitsDest fitsSrc disjoint
    obtain ⟨mem, returned, bytes⟩ :=
      memcpy_eq cpu enough (apart_of_disjoint fitsSrc fitsDest disjoint)
    refine ⟨mem, returned, fun i lt => ?_, fun a out => ?_⟩
    · have offset : dest + i - dest = i := by rw [UInt32.add_comm, UInt32.add_sub_cancel]
      rw [bytes, offset, if_pos (UInt32.lt_iff_toNat_lt.mp lt)]
    · rw [bytes, if_neg ((offset_lt_iff fitsDest a).not.mpr out)]

/-- Seven bytes from 6 on are two bytes, a word and a byte. They are set to the low byte of `0x141`, or
copied to 32, where the memory holds the low byte of each address. -/
theorem word_routines_seven :
    (∃ mem, memset 9 ⟨⟨0, 0, 0, UInt32.toUInt8⟩, 0, 0⟩ 6 0x141 7 = some (6, mem) ∧
      ∀ a : UInt32, mem a = if 6 ≤ a.toNat ∧ a.toNat < 6 + 7 then 0x41 else a.toUInt8) ∧
    ∃ mem, memcpy 9 ⟨⟨0, 0, 0, UInt32.toUInt8⟩, 0, 0⟩ 32 6 7 = some (32, mem) ∧
      (∀ i < (7 : UInt32), mem (32 + i) = (6 + i).toUInt8) ∧
      ∀ a : UInt32, ¬ (32 ≤ a.toNat ∧ a.toNat < 32 + 7) → mem a = a.toUInt8 :=
  have both := word_routines ⟨⟨0, 0, 0, UInt32.toUInt8⟩, 0, 0⟩ (Nat.le_refl 9)
  ⟨both.1 6 0x141 7 (by decide), both.2 32 6 7 (by decide) (by decide) (.inr (by decide))⟩

end Linux391.MemoryRoutines
