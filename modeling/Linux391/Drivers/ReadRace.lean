import Linux391.Drivers.LineBuffer
import Mathlib.Logic.Relation

/-!
A key pressed while `terminal_read` runs (`drivers/termios.c`).

`terminal_read` takes no lock, and the interrupt of the keyboard may come between any two of
its accesses to the terminal's data. `readStep` is the function access by access, where
`x -= i` loads and stores. Without an interrupt the steps add up to `terminalRead`
(`readSteps_terminalRead`).

A character typed meanwhile belongs behind what the reader leaves. `key_during_read` says
where it ends up instead, for every place at which the interrupt can come: once the shifting
loop has seen the end of the buffer, the store to `in_dat_end` discards the character, and from
there until `in_dat_index` is stored its place in the buffer is not where the end says.
-/

namespace Linux391

/-- Where a read is, before one of its accesses to the terminal's data. `buf` are the
characters copied so far, whose number is `i`. -/
inductive ReadPhase where
  | spin
  | copyTest (buf : List UInt8)
  | copyMove (buf : List UInt8)
  | shiftTest (buf : List UInt8) (crRead : Int) (j : Nat)
  | shiftMove (buf : List UInt8) (crRead : Int) (j : Nat)
  | storeEnd (buf : List UInt8) (crRead : Int) (j : Nat)
  | loadIndex (buf : List UInt8) (crRead : Int)
  | storeIndex (buf : List UInt8) (crRead : Int) (inDatIndex : Int)
  | loadRet (buf : List UInt8) (crRead : Int)
  | storeRet (buf : List UInt8) (crRead : Int) (inDatNrRet : Int)
  | done (buf : List UInt8)

/-- The loop that shifts the buffer has not ended. -/
def ReadPhase.early : ReadPhase → Bool
  | .spin | .copyTest _ | .copyMove _ | .shiftTest .. | .shiftMove .. => true
  | _ => false

namespace Terms

/-- One access of `terminal_read` by a process of terminal `t`. -/
def readStep (t : Fin 4) (len : Int) (s : Terms) : ReadPhase → Terms × ReadPhase
  | .spin => (s, if (s.term t).inDatNrRet = 0 then .spin else .copyTest [])
  | .copyTest buf =>
      (s, if (buf.length : Int) < (s.term t).inDatEnd ∧ (buf.length : Int) < len then .copyMove buf
        else .shiftTest buf 0 0)
  | .copyMove buf =>
      let c := (s.term t).inBuf buf.length
      (s.touchBuf buf.length, if c = 10 then .shiftTest (buf ++ [c]) 1 0 else .copyTest (buf ++ [c]))
  | .shiftTest buf crRead j =>
      (s, if (buf.length : Int) + j < (s.term t).inDatEnd then .shiftMove buf crRead j
        else .storeEnd buf crRead j)
  | .shiftMove buf crRead j =>
      (s.bufCopy s.activeTerm j t (buf.length + j), .shiftTest buf crRead (j + 1))
  | .storeEnd buf crRead j =>
      (s.modify t fun d => { d with inDatEnd := j }, .loadIndex buf crRead)
  | .loadIndex buf crRead => (s, .storeIndex buf crRead (s.term t).inDatIndex)
  | .storeIndex buf crRead index =>
      (s.modify t fun d => { d with inDatIndex := index - buf.length }, .loadRet buf crRead)
  | .loadRet buf crRead => (s, .storeRet buf crRead (s.term t).inDatNrRet)
  | .storeRet buf crRead nrRet =>
      (s.modify t fun d => { d with inDatNrRet := nrRet - crRead }, .done buf)
  | .done buf => (s, .done buf)

/-- The read goes on, with nothing in between. -/
abbrev ReadSteps (t : Fin 4) (len : Int) : Terms × ReadPhase → Terms × ReadPhase → Prop :=
  Relation.ReflTransGen fun σ σ' => readStep t len σ.1 σ.2 = σ'

end Terms

/-! ### The data of a terminal in the middle of a read -/

namespace TermData

/-- The first `j` characters behind the line have been moved to the front. -/
def shifted (d : TermData) (n j : Nat) : TermData :=
  { d with inBuf := fun x => if 0 ≤ x ∧ x < j then d.inBuf (n + x) else d.inBuf x }

/-- How many characters a read takes, and how many it leaves. -/
def taken (d : TermData) (len : Int) : Nat := lineLength d.pending len

def kept (d : TermData) (len : Int) : Nat := d.pending.length - d.taken len

/-- The line that a read takes. -/
def line (d : TermData) (len : Int) : List UInt8 := d.pending.take (d.taken len)

/-- The buffer of a read that has come to its last stores. -/
def moved (d : TermData) (len : Int) : TermData := d.shifted (d.taken len) (d.kept len)

/-- The terminal that a read leaves. -/
def afterRead (d : TermData) (len : Int) : TermData :=
  { d.moved len with
    inDatEnd := d.kept len, inDatIndex := d.inDatIndex - d.taken len
    inDatNrRet := d.inDatNrRet - (d.line len).count 10 }

/-- The reader's terminal, which was `d₀` when the read began, at every place of the read. -/
def Reading (d₀ : TermData) (len : Int) (d : TermData) : ReadPhase → Prop
  | .spin => d = d₀
  | .copyTest buf => d = d₀ ∧ 10 ∉ buf ∧ ∃ k ≤ d₀.taken len, buf = d₀.pending.take k
  | .copyMove buf => d = d₀ ∧ 10 ∉ buf ∧ ∃ k < d₀.taken len, buf = d₀.pending.take k
  | .shiftTest buf cr j =>
      (buf = d₀.line len ∧ cr = (d₀.line len).count 10) ∧ j ≤ d₀.kept len ∧
        d = d₀.shifted (d₀.taken len) j
  | .shiftMove buf cr j =>
      (buf = d₀.line len ∧ cr = (d₀.line len).count 10) ∧ j < d₀.kept len ∧
        d = d₀.shifted (d₀.taken len) j
  | .storeEnd buf cr j =>
      (buf = d₀.line len ∧ cr = (d₀.line len).count 10) ∧ j = d₀.kept len ∧ d = d₀.moved len
  | .loadIndex buf cr =>
      (buf = d₀.line len ∧ cr = (d₀.line len).count 10) ∧
        d = { d₀.moved len with inDatEnd := d₀.kept len }
  | .storeIndex buf cr index =>
      (buf = d₀.line len ∧ cr = (d₀.line len).count 10) ∧ index = d₀.inDatIndex ∧
        d = { d₀.moved len with inDatEnd := d₀.kept len }
  | .loadRet buf cr =>
      (buf = d₀.line len ∧ cr = (d₀.line len).count 10) ∧
        d = { d₀.moved len with
          inDatEnd := d₀.kept len, inDatIndex := d₀.inDatIndex - d₀.taken len }
  | .storeRet buf cr nrRet =>
      (buf = d₀.line len ∧ cr = (d₀.line len).count 10) ∧ nrRet = d₀.inDatNrRet ∧
        d = { d₀.moved len with
          inDatEnd := d₀.kept len, inDatIndex := d₀.inDatIndex - d₀.taken len }
  | .done buf => buf = d₀.line len ∧ d = d₀.afterRead len

/-- The accesses still to be made, at most. -/
def remaining (d₀ : TermData) (len : Int) : ReadPhase → Nat
  | .spin => 2 * d₀.taken len + 2 * d₀.kept len + 10
  | .copyTest buf => 2 * (d₀.taken len - buf.length) + 2 * d₀.kept len + 9
  | .copyMove buf => 2 * (d₀.taken len - buf.length) + 2 * d₀.kept len + 8
  | .shiftTest _ _ j => 2 * (d₀.kept len - j) + 7
  | .shiftMove _ _ j => 2 * (d₀.kept len - j) + 6
  | .storeEnd _ _ _ => 5
  | .loadIndex _ _ => 4
  | .storeIndex _ _ _ => 3
  | .loadRet _ _ => 2
  | .storeRet _ _ _ => 1
  | .done _ => 0

variable {d₀ d : TermData} {len : Int} {k : Nat} {buf : List UInt8}

theorem taken_le (d : TermData) (len : Int) : d.taken len ≤ d.pending.length :=
  Terms.lineLength_le _ len

theorem length_line (d : TermData) (len : Int) : (d.line len).length = d.taken len := by
  rw [line, List.length_take]
  exact Nat.min_eq_left (d.taken_le len)

theorem taken_add_kept (d : TermData) (len : Int) : d.taken len + d.kept len = d.pending.length :=
  Nat.add_sub_of_le (d.taken_le len)

theorem pending_getElem? (inside : k < d.pending.length) : d.pending[k]? = some (d.inBuf k) := by
  rw [length_pending] at inside
  simp [pending, inside]

theorem take_succ_pending (inside : k < d.pending.length) :
    d.pending.take (k + 1) = d.pending.take k ++ [d.inBuf k] := by
  rw [List.take_add_one, pending_getElem? inside]
  rfl

theorem shifted_zero (d : TermData) (n : Nat) : d.shifted n 0 = d := by
  have none : ∀ x : Int, ¬ (0 ≤ x ∧ x < 0) := by omega
  simp [shifted, none]

/-- No newline among the first characters. -/
theorem le_idxOf {queue : List UInt8} (none : 10 ∉ queue.take k) (inside : k ≤ queue.length) :
    k ≤ queue.idxOf 10 := by
  by_contra earlier
  have found : queue.idxOf 10 < queue.length := by omega
  refine none (List.mem_take_iff_getElem.mpr ⟨queue.idxOf 10, by omega, ?_⟩)
  exact List.getElem_idxOf found

end TermData

/-! ### A read that is not interrupted -/

namespace Terms

variable {s s₁ : Terms} {t : Fin 4} {len : Int} {d₀ : TermData} {φ : ReadPhase}

/-- The end of a settled buffer. -/
theorem end_eq (settled : d₀.Settled) : d₀.inDatEnd = d₀.pending.length := by
  have := settled.nonneg
  rw [TermData.length_pending]
  omega

/-- The loop that copies: it goes on while the line does. -/
theorem reading_copyTest {buf : List UInt8} (settled : d₀.Settled)
    (reading : d₀.Reading len (s.input t) (.copyTest buf)) :
    d₀.Reading len (s.input t) (readStep t len s (.copyTest buf)).2 ∧
      d₀.remaining len (readStep t len s (.copyTest buf)).2 < d₀.remaining len (.copyTest buf) := by
  obtain ⟨same, none, k, le_taken, rfl⟩ := reading
  have le := d₀.taken_le len
  have length : (d₀.pending.take k).length = k := by
    rw [List.length_take]
    omega
  have bound : (s.term t).inDatEnd = d₀.pending.length := by
    rw [← end_eq settled, ← same]
    rfl
  simp only [readStep, length, bound]
  split_ifs with more
  · have less : k < d₀.taken len := by
      have before := TermData.le_idxOf none (by omega)
      simp only [TermData.taken, lineLength]
      omega
    refine ⟨⟨same, none, k, less, rfl⟩, ?_⟩
    simp only [TermData.remaining, length]
    omega
  · have all : k = d₀.taken len := by
      simp only [TermData.taken, lineLength] at le_taken ⊢
      omega
    subst all
    refine ⟨⟨⟨rfl, ?_⟩, Nat.zero_le _, ?_⟩, ?_⟩
    · rw [TermData.line, List.count_eq_zero.mpr none]
      rfl
    · rw [TermData.shifted_zero, same]
    · simp only [TermData.remaining, length]
      omega

theorem reading_copyMove {buf : List UInt8} (reading : d₀.Reading len (s.input t) (.copyMove buf)) :
    d₀.Reading len (s.input t) (readStep t len s (.copyMove buf)).2 ∧
      d₀.remaining len (readStep t len s (.copyMove buf)).2 < d₀.remaining len (.copyMove buf) := by
  obtain ⟨same, none, k, less, rfl⟩ := reading
  have le := d₀.taken_le len
  have length : (d₀.pending.take k).length = k := by
    rw [List.length_take]
    omega
  have char : (s.term t).inBuf k = d₀.inBuf k := by
    rw [← same]
    rfl
  have longer := TermData.take_succ_pending (d := d₀) (k := k) (by omega)
  simp only [readStep, length, char]
  rw [← longer]
  split_ifs with newline
  · -- the newline just copied is the first one
    have all : k + 1 = d₀.taken len := by
      have first : d₀.pending.idxOf 10 ≤ k := by
        have found : 10 ∈ d₀.pending.take (k + 1) := by simp [longer, newline]
        have lt := (List.mem_take_iff_idxOf_lt (List.mem_of_mem_take found)).mp found
        omega
      have upper : d₀.taken len ≤ d₀.pending.idxOf 10 + 1 := by
        simp only [TermData.taken, lineLength]
        omega
      omega
    refine ⟨⟨⟨?_, ?_⟩, Nat.zero_le _, ?_⟩, ?_⟩
    · rw [all]
      rfl
    · rw [TermData.line, ← all, longer, newline, List.count_append, List.count_eq_zero.mpr none]
      rfl
    · rw [TermData.shifted_zero, same]
    · simp only [TermData.remaining, length]
      omega
  · refine ⟨⟨same, ?_, k + 1, less, rfl⟩, ?_⟩
    · rw [longer, List.mem_append, List.mem_singleton]
      exact not_or.mpr ⟨none, Ne.symm newline⟩
    · have length' : (d₀.pending.take (k + 1)).length = k + 1 := by
        rw [List.length_take]
        omega
      simp only [TermData.remaining, length, length']
      omega

/-- The loop that shifts reads ahead of what it has moved. -/
theorem input_shiftMove {n j : Nat} (visible : t = s.activeTerm) (fits : n + j < 128)
    (same : s.input t = d₀.shifted n j) :
    (s.bufCopy s.activeTerm j t (n + j)).input t = d₀.shifted n (j + 1) := by
  subst visible
  have copied := (setsInput_bufCopy s s.activeTerm s.activeTerm (i := j) (j := n + j) (by omega)
    (by omega) (by omega) (by omega)).own
  have ahead : ¬ (0 ≤ (n + j : Int) ∧ (n + j : Int) < j) := by omega
  have char : (d₀.shifted n j).inBuf (n + j) = d₀.inBuf (n + j) := if_neg ahead
  have filled := Loop.update_filled (f := fun x => d₀.inBuf (n + x)) (g := d₀.inBuf) (j := j)
    (by omega)
  rw [copied, same, char]
  simp only [TermData.shifted, filled, Nat.cast_add, Nat.cast_one]

/-- One access keeps the terminal in the middle of the same read. -/
theorem reading_step (visible : t = s.activeTerm) (settled : d₀.Settled)
    (ready : d₀.inDatNrRet ≠ 0) (going : ∀ buf, φ ≠ .done buf)
    (reading : d₀.Reading len (s.input t) φ) :
    d₀.Reading len ((readStep t len s φ).1.input t) (readStep t len s φ).2 ∧
      d₀.remaining len (readStep t len s φ).2 < d₀.remaining len φ := by
  have sum := d₀.taken_add_kept len
  have lineLen := d₀.length_line len
  have ends := end_eq settled
  have le := settled.le
  cases φ with
  | spin =>
    have same : s.input t = d₀ := reading
    have count : (s.term t).inDatNrRet ≠ 0 := by
      have read : (s.input t).inDatNrRet ≠ 0 := same ▸ ready
      exact read
    simp only [readStep, if_neg count]
    refine ⟨⟨same, by simp, 0, Nat.zero_le _, rfl⟩, ?_⟩
    simp only [TermData.remaining, List.length_nil]
    omega
  | copyTest buf => exact reading_copyTest settled reading
  | copyMove buf => exact reading_copyMove reading
  | shiftTest buf cr j =>
    obtain ⟨⟨rfl, rfl⟩, upTo, same⟩ := reading
    have bound : (s.term t).inDatEnd = d₀.inDatEnd := (congrArg TermData.inDatEnd same :)
    simp only [readStep, bound, lineLen]
    split_ifs with more
    · refine ⟨⟨⟨rfl, rfl⟩, by omega, same⟩, ?_⟩
      simp only [TermData.remaining]
      omega
    · have all : j = d₀.kept len := by omega
      refine ⟨⟨⟨rfl, rfl⟩, all, ?_⟩, ?_⟩
      · rw [same, all]
        rfl
      · simp only [TermData.remaining]
        omega
  | shiftMove buf cr j =>
    obtain ⟨⟨rfl, rfl⟩, less, same⟩ := reading
    simp only [readStep, lineLen]
    refine ⟨⟨⟨rfl, rfl⟩, less, input_shiftMove visible (by omega) same⟩, ?_⟩
    simp only [TermData.remaining]
    omega
  | storeEnd buf cr j =>
    obtain ⟨lines, rfl, same⟩ := reading
    refine ⟨⟨lines, ?_⟩, Nat.lt_succ_self 4⟩
    have stored := (setsInput_modify s t
      (fun d => { d with inDatEnd := (d₀.kept len : Int) }) fun _ => rfl).own
    rw [same] at stored
    exact stored
  | loadIndex buf cr =>
    obtain ⟨lines, same⟩ := reading
    have index : (s.term t).inDatIndex = d₀.inDatIndex :=
      (congrArg TermData.inDatIndex same :)
    exact ⟨⟨lines, index, same⟩, Nat.lt_succ_self 3⟩
  | storeIndex buf cr index =>
    obtain ⟨⟨rfl, rfl⟩, rfl, same⟩ := reading
    refine ⟨⟨⟨rfl, rfl⟩, ?_⟩, Nat.lt_succ_self 2⟩
    have stored := (setsInput_modify s t
      (fun d => { d with inDatIndex := d₀.inDatIndex - (d₀.line len).length }) fun _ => rfl).own
    rw [same, lineLen] at stored
    simp only [readStep, lineLen]
    exact stored
  | loadRet buf cr =>
    obtain ⟨lines, same⟩ := reading
    have nrRet : (s.term t).inDatNrRet = d₀.inDatNrRet :=
      (congrArg TermData.inDatNrRet same :)
    exact ⟨⟨lines, nrRet, same⟩, Nat.lt_succ_self 1⟩
  | storeRet buf cr nrRet =>
    obtain ⟨⟨rfl, rfl⟩, rfl, same⟩ := reading
    refine ⟨⟨rfl, ?_⟩, Nat.lt_succ_self 0⟩
    have stored := (setsInput_modify s t
      (fun d => { d with inDatNrRet := d₀.inDatNrRet - (d₀.line len).count 10 }) fun _ => rfl).own
    rw [same] at stored
    exact stored
  | done buf => exact absurd rfl (going buf)

/-- One access changes the input of the reader's terminal at most. -/
theorem setsInput_readStep (visible : t = s.activeTerm) (settled : d₀.Settled)
    (reading : d₀.Reading len (s.input t) φ) :
    SetsInput t ((readStep t len s φ).1.input t) s (readStep t len s φ).1 := by
  have sum := d₀.taken_add_kept len
  have lineLen := d₀.length_line len
  have ends := end_eq settled
  have le := settled.le
  have own {d : TermData} {s' : Terms} (sets : SetsInput t d s s') :
      SetsInput t (s'.input t) s s' := by rwa [← sets.own] at sets
  cases φ with
  | copyMove buf =>
    obtain ⟨-, -, k, less, rfl⟩ := reading
    refine ⟨rfl, (Function.update_eq_self t s.input).symm, ?_⟩
    refine touchBuf_offBuf (by omega) ?_
    rw [List.length_take]
    omega
  | shiftMove buf cr j =>
    obtain ⟨⟨rfl, rfl⟩, less, -⟩ := reading
    subst visible
    simp only [readStep, lineLen]
    exact own (setsInput_bufCopy s s.activeTerm s.activeTerm (by omega) (by omega) (by omega)
      (by omega))
  | storeEnd buf cr j =>
    simp only [readStep]
    exact own (setsInput_modify s t _ fun _ => rfl)
  | storeIndex buf cr index =>
    simp only [readStep]
    exact own (setsInput_modify s t _ fun _ => rfl)
  | storeRet buf cr nrRet =>
    simp only [readStep]
    exact own (setsInput_modify s t _ fun _ => rfl)
  | _ => exact .refl t s

/-- However far a read has come, the terminal is in the middle of it. -/
theorem reading_steps (visible : t = s.activeTerm) (settled : (s.input t).Settled)
    (ready : (s.input t).inDatNrRet ≠ 0) (steps : ReadSteps t len (s, .spin) (s₁, φ)) :
    (s.input t).Reading len (s₁.input t) φ ∧ SetsInput t (s₁.input t) s s₁ := by
  obtain ⟨σ, eq⟩ : ∃ σ, σ = (s₁, φ) := ⟨_, rfl⟩
  rw [← eq] at steps
  suffices (s.input t).Reading len (σ.1.input t) σ.2 ∧ SetsInput t (σ.1.input t) s σ.1 by
    rwa [eq] at this
  clear eq
  induction steps with
  | refl => exact ⟨rfl, .refl t s⟩
  | @tail σ σ' _ step ih =>
    obtain ⟨reading, sets⟩ := ih
    have visible' : t = σ.1.activeTerm := visible.trans sets.active_eq.symm
    rw [← step]
    refine ⟨?_, sets.trans (setsInput_readStep visible' settled reading)⟩
    by_cases going : ∃ buf, σ.2 = .done buf
    · obtain ⟨buf, eq⟩ := going
      rw [eq] at reading ⊢
      exact reading
    · exact (reading_step visible' settled ready (not_exists.mp going) reading).1

/-- From any place of a read, the read comes to its end. -/
theorem read_finishes (visible : t = s.activeTerm) (settled : d₀.Settled)
    (ready : d₀.inDatNrRet ≠ 0) (reading : d₀.Reading len (s.input t) φ) :
    ∃ s', ReadSteps t len (s, φ) (s', .done (d₀.line len)) ∧ SetsInput t (d₀.afterRead len) s s' := by
  -- by induction on the number of accesses still to be made
  obtain ⟨m, bound⟩ : ∃ m, m = d₀.remaining len φ := ⟨_, rfl⟩
  induction m using Nat.strongRecOn generalizing s φ with
  | ind m ih =>
    by_cases going : ∃ buf, φ = .done buf
    · obtain ⟨buf, rfl⟩ := going
      obtain ⟨rfl, same⟩ := reading
      exact ⟨s, .refl, same ▸ .refl t s⟩
    · have sets := setsInput_readStep visible settled reading
      obtain ⟨next, less⟩ := reading_step visible settled ready (not_exists.mp going) reading
      obtain ⟨s', steps, ends⟩ := ih _ (bound ▸ less) (visible.trans sets.active_eq.symm) next rfl
      exact ⟨s', .head rfl steps, sets.trans ends⟩

/-- The test of the shifting loop is the only way out of the loops. -/
theorem readStep_early (s : Terms) (t : Fin 4) (len : Int) (early : φ.early = true) :
    (readStep t len s φ).2.early = true ∨
      ∃ buf cr j, (readStep t len s φ).2 = .storeEnd buf cr j := by
  cases φ with
  | spin | copyTest | copyMove =>
    left
    simp only [readStep]
    split_ifs
    · rfl
    · rfl
  | shiftTest buf cr j =>
    simp only [readStep]
    split_ifs
    · exact .inl rfl
    · exact .inr ⟨buf, cr, j, rfl⟩
  | shiftMove => exact .inl rfl
  | _ => exact absurd early Bool.false_ne_true

/-- Every read comes to its stores. -/
theorem read_stores (visible : t = s.activeTerm) (settled : d₀.Settled) (ready : d₀.inDatNrRet ≠ 0)
    (early : φ.early = true) (reading : d₀.Reading len (s.input t) φ) :
    ∃ s', ReadSteps t len (s, φ)
      (s', .storeEnd (d₀.line len) ((d₀.line len).count 10) (d₀.kept len)) := by
  obtain ⟨m, bound⟩ : ∃ m, m = d₀.remaining len φ := ⟨_, rfl⟩
  induction m using Nat.strongRecOn generalizing s φ with
  | ind m ih =>
    have going : ∀ buf, φ ≠ .done buf := by
      rintro buf rfl
      exact Bool.false_ne_true early
    have sets := setsInput_readStep visible settled reading
    obtain ⟨next, less⟩ := reading_step visible settled ready going reading
    obtain again | ⟨buf, cr, j, eq⟩ := readStep_early s t len early
    · obtain ⟨s', steps⟩ := ih _ (bound ▸ less) (visible.trans sets.active_eq.symm) again next rfl
      exact ⟨s', .head rfl steps⟩
    · rw [eq] at next
      obtain ⟨⟨rfl, rfl⟩, rfl, -⟩ := next
      exact ⟨(readStep t len s φ).1, .single (Prod.ext rfl eq)⟩

theorem afterRead_pending (settled : d₀.Settled) :
    (d₀.afterRead len).pending = d₀.pending.drop (d₀.taken len) := by
  have sum := d₀.taken_add_kept len
  have ends := end_eq settled
  have count : d₀.inDatEnd.toNat - d₀.taken len = d₀.kept len := by omega
  rw [TermData.pending_drop, count]
  refine List.map_congr_left fun j mem => ?_
  have inside : j < ((d₀.kept len : Nat) : Int).toNat := List.mem_range.mp mem
  exact if_pos ⟨by omega, by omega⟩

/-- The accesses add up to `terminalRead`: the same characters and the same input of every
terminal. -/
theorem readSteps_terminalRead (visible : t = s.activeTerm) (settled : (s.input t).Settled)
    {chars : List UInt8} {s' : Terms} (read : s.terminalRead t len = some (chars, s')) :
    ∃ s'', ReadSteps t len (s, .spin) (s'', .done chars) ∧ s''.input = s'.input ∧
      s''.activeTerm = s'.activeTerm ∧ s''.offBuf = s'.offBuf := by
  have ready : (s.input t).inDatNrRet ≠ 0 := by
    intro waiting
    have waiting' : (s.term t).inDatNrRet = 0 := waiting
    simp [terminalRead, waiting'] at read
  obtain ⟨length, effect⟩ := terminalRead_effect settled read
  have taken : chars.length = (s.input t).taken len := length
  have line : chars = (s.input t).line len := by
    rw [TermData.line, ← taken]
    exact effect.chars_eq
  have sum := (s.input t).taken_add_kept len
  have ends := end_eq settled
  have start : (s.input t).Reading len (s.input t) .spin := rfl
  obtain ⟨s'', steps, sets⟩ := read_finishes visible settled ready start
  refine ⟨s'', line ▸ steps, ?_, sets.active_eq.trans effect.active_eq.symm,
    sets.offBuf_eq.trans effect.offBuf_eq.symm⟩
  funext u
  by_cases own : u = t
  · subst own
    have left : (s.input u).inDatEnd - chars.length = (s.input u).kept len := by omega
    rw [sets.own, effect.own, if_pos visible, left]
    unfold TermData.movedFront
    simp only [TermData.afterRead, TermData.moved, TermData.shifted, left, ← taken, ← line,
      settled.index_eq]
  · rw [sets.other own, effect.other own (visible ▸ own)]

end Terms

/-! ### A key in between -/

namespace TermData

/-- An ordinary character stored at the index, which is at the end or behind it. -/
def pressed (d : TermData) (c : UInt8) : TermData :=
  { d with
    inBuf := Function.update d.inBuf d.inDatIndex c
    inDatIndex := d.inDatIndex + 1, inDatEnd := d.inDatEnd + 1
    inDatNrRet := d.inDatNrRet + if c = keyEnterCode then 1 else 0 }

variable {d₀ d : TermData} {len : Int} {c : UInt8} {φ : ReadPhase}

theorem pressed_pending (settled : d.Settled) : (d.pressed c).pending = d.pending ++ [c] :=
  pending_append settled.nonneg rfl (congrArg (Function.update d.inBuf · c) settled.index_eq)

theorem pressed_settled (settled : d.Settled) (room : d.inDatEnd < 128) : (d.pressed c).Settled :=
  ⟨congrArg (· + 1) settled.index_eq, Int.add_nonneg settled.nonneg (by decide), room⟩

/-- With a complete line in the buffer, a character behind it does not change what is read. -/
theorem pressed_taken (len : Int) (c : UInt8) (settled : d.Settled) (complete : 10 ∈ d.pending) :
    (d.pressed c).taken len = d.taken len := by
  have before := List.idxOf_lt_length_of_mem complete
  rw [taken, taken, pressed_pending settled, lineLength, lineLength,
    List.idxOf_append_of_mem complete, List.length_append]
  omega

theorem pressed_line (len : Int) (c : UInt8) (settled : d.Settled) (complete : 10 ∈ d.pending) :
    (d.pressed c).line len = d.line len := by
  rw [line, line, pressed_taken len c settled complete, pressed_pending settled]
  exact List.take_append_of_le_length (d.taken_le len)

theorem pressed_kept (len : Int) (c : UInt8) (settled : d.Settled) (complete : 10 ∈ d.pending) :
    (d.pressed c).kept len = d.kept len + 1 := by
  have le := d.taken_le len
  rw [kept, kept, pressed_taken len c settled complete, pressed_pending settled, List.length_append,
    List.length_singleton]
  omega

/-- The loop that shifts has moved nothing of what is stored behind its reach. -/
theorem shifted_pressed {n j : Nat} (nonneg : 0 < n) (behind : n + j ≤ d.inDatIndex) :
    (d.shifted n j).pressed c = (d.pressed c).shifted n j := by
  have buf : Function.update (d.shifted n j).inBuf d.inDatIndex c =
      ((d.pressed c).shifted n j).inBuf := by
    funext x
    by_cases last : x = d.inDatIndex
    · subst last
      have outside : ¬ (0 ≤ d.inDatIndex ∧ d.inDatIndex < j) := by omega
      simp [shifted, pressed, outside]
    · rw [Function.update_of_ne last]
      by_cases inside : 0 ≤ x ∧ x < j
      · have before : (n : Int) + x ≠ d.inDatIndex := by omega
        simp [shifted, pressed, inside, before]
      · simp [shifted, pressed, inside, last]
  simp only [pressed, shifted] at buf ⊢
  rw [buf]

/-- Until the shifting loop has ended, a key is as good as one pressed before the read. -/
theorem Reading.pressed (settled : d₀.Settled) (complete : 10 ∈ d₀.pending)
    (some : 0 < d₀.taken len) (reading : d₀.Reading len d φ) (early : φ.early = true) :
    (d₀.pressed c).Reading len (d.pressed c) φ := by
  have pending := pressed_pending (c := c) settled
  have taken := pressed_taken len c settled complete
  have line := pressed_line len c settled complete
  have kept := pressed_kept len c settled complete
  have le := d₀.taken_le len
  have sum := d₀.taken_add_kept len
  have ends := Terms.end_eq settled
  have index := settled.index_eq
  cases φ with
  | spin =>
    obtain rfl : d = d₀ := reading
    rfl
  | copyTest buf =>
    obtain ⟨rfl, none, k, upTo, rfl⟩ := reading
    refine ⟨rfl, none, k, taken ▸ upTo, ?_⟩
    rw [pending, List.take_append_of_le_length (by omega)]
  | copyMove buf =>
    obtain ⟨rfl, none, k, less, rfl⟩ := reading
    refine ⟨rfl, none, k, taken ▸ less, ?_⟩
    rw [pending, List.take_append_of_le_length (by omega)]
  | shiftTest buf cr j =>
    obtain ⟨⟨rfl, rfl⟩, upTo, rfl⟩ := reading
    refine ⟨⟨line.symm, by rw [line]⟩, by omega, ?_⟩
    rw [taken, shifted_pressed some (by omega)]
  | shiftMove buf cr j =>
    obtain ⟨⟨rfl, rfl⟩, less, rfl⟩ := reading
    refine ⟨⟨line.symm, by rw [line]⟩, by omega, ?_⟩
    rw [taken, shifted_pressed some (by omega)]
  | _ => exact absurd early Bool.false_ne_true

end TermData

namespace Terms

variable {s s₁ : Terms} {t : Fin 4} {len : Int} {d₀ : TermData} {φ : ReadPhase} {c : UInt8}

/-- With the index not before the end, nothing has to be moved for a character. -/
theorem insertInput_ahead (s : Terms) (t : Fin 4) (c : UInt8)
    (ahead : (s.term t).inDatEnd ≤ (s.term t).inDatIndex) :
    s.insertInput t c = (s.touchBuf (s.term t).inDatIndex).modify t fun d => d.pressed c := by
  simp only [insertInput]
  rw [Loop.forRange_empty (by simp [modify, ahead])]
  by_cases enter : c = keyEnterCode
  · simp [enter, bufPut, touchBuf, modify, TermData.pressed]
  · simp [enter, bufPut, touchBuf, modify, TermData.pressed]

/-- What an ordinary key does when the index is not before the end: the character is stored at
the index, in the buffer or not. -/
theorem setsInput_pressed (scancode alt : UInt8) (ordinary : c ≠ 0)
    (notBack : c ≠ keyBackspaceCode) (notDelete : c ≠ keyDeleteCode) (visible : t = s.activeTerm)
    (isOpen : (s.input t).isActive ≠ 0) (room : (s.input t).inDatEnd < 128)
    (ahead : (s.input t).inDatEnd ≤ (s.input t).inDatIndex) :
    SetsInput t ((s.input t).pressed c) (s.touchBuf (s.input t).inDatIndex)
      (s.inputProcessKey c scancode 0 alt) := by
  subst visible
  have isOpen' : (s.term s.activeTerm).isActive ≠ 0 := isOpen
  have room' : (s.term s.activeTerm).inDatEnd < 128 := room
  have edited : s.editInput s.activeTerm c = s.insertInput s.activeTerm c := by
    rw [editInput, if_neg notBack, if_neg notDelete, if_pos ⟨ordinary, room'⟩]
  rw [inputProcessKey, if_neg isOpen', acceptKey, edited, insertInput_ahead _ _ _ ahead]
  have stored := setsInput_modify (s.touchBuf (s.term s.activeTerm).inDatIndex) s.activeTerm
    (fun d => d.pressed c) fun _ => rfl
  exact SetsInput.draws stored (draws_terminalHandleKey _ s.activeTerm fun held => held.1 rfl)

/-- With the end at the end of the buffer an ordinary key is refused. -/
theorem offBuf_refused {scancode alt : UInt8} (notBack : c ≠ keyBackspaceCode)
    (notDelete : c ≠ keyDeleteCode) (full : 128 ≤ (s.term s.activeTerm).inDatEnd) :
    (s.inputProcessKey c scancode 0 alt).offBuf = s.offBuf := by
  have edited : s.editInput s.activeTerm c = s := by
    rw [editInput, if_neg notBack, if_neg notDelete, if_neg fun stored => by omega]
  rw [inputProcessKey, acceptKey, edited]
  by_cases isOpen : (s.term s.activeTerm).isActive = 0
  · rw [if_pos isOpen]
  · rw [if_neg isOpen]
    exact (draws_terminalHandleKey s s.activeTerm fun held => held.1 rfl).offBuf_eq

/-! The end of a read, from each of its last accesses. -/

section LastAccesses

variable (s t len) (buf : List UInt8) (cr : Int)

theorem storeRet_finishes (nrRet : Int) :
    ∃ s', ReadSteps t len (s, .storeRet buf cr nrRet) (s', .done buf) ∧
      SetsInput t { s.input t with inDatNrRet := nrRet - cr } s s' :=
  ⟨_, .single rfl, setsInput_modify s t (fun d => { d with inDatNrRet := nrRet - cr }) fun _ => rfl⟩

theorem loadRet_finishes :
    ∃ s', ReadSteps t len (s, .loadRet buf cr) (s', .done buf) ∧
      SetsInput t { s.input t with inDatNrRet := (s.input t).inDatNrRet - cr } s s' := by
  obtain ⟨s', steps, sets⟩ := storeRet_finishes s t len buf cr (s.input t).inDatNrRet
  exact ⟨s', .head rfl steps, sets⟩

theorem storeIndex_finishes (index : Int) :
    ∃ s', ReadSteps t len (s, .storeIndex buf cr index) (s', .done buf) ∧
      SetsInput t
        { s.input t with
          inDatIndex := index - buf.length, inDatNrRet := (s.input t).inDatNrRet - cr } s s' := by
  have stored := setsInput_modify s t (fun d => { d with inDatIndex := index - buf.length })
    fun _ => rfl
  obtain ⟨s', steps, sets⟩ := loadRet_finishes
    (s.modify t fun d => { d with inDatIndex := index - buf.length }) t len buf cr
  rw [stored.own] at sets
  exact ⟨s', .head rfl steps, stored.trans sets⟩

theorem loadIndex_finishes :
    ∃ s', ReadSteps t len (s, .loadIndex buf cr) (s', .done buf) ∧
      SetsInput t
        { s.input t with
          inDatIndex := (s.input t).inDatIndex - buf.length
          inDatNrRet := (s.input t).inDatNrRet - cr } s s' := by
  obtain ⟨s', steps, sets⟩ := storeIndex_finishes s t len buf cr (s.input t).inDatIndex
  exact ⟨s', .head rfl steps, sets⟩

theorem storeEnd_finishes (j : Nat) :
    ∃ s', ReadSteps t len (s, .storeEnd buf cr j) (s', .done buf) ∧
      SetsInput t
        { s.input t with
          inDatEnd := j, inDatIndex := (s.input t).inDatIndex - buf.length
          inDatNrRet := (s.input t).inDatNrRet - cr } s s' := by
  have stored := setsInput_modify s t (fun d => { d with inDatEnd := (j : Int) }) fun _ => rfl
  obtain ⟨s', steps, sets⟩ := loadIndex_finishes
    (s.modify t fun d => { d with inDatEnd := (j : Int) }) t len buf cr
  rw [stored.own] at sets
  exact ⟨s', .head rfl steps, stored.trans sets⟩

end LastAccesses

end Terms

namespace ReadPhase

/-- What is in the buffer behind the line that was read, when a character `c` was typed at this
place of the read. `old` is the character that the buffer still has behind the rest. -/
def leaves (rest : List UInt8) (old c : UInt8) : ReadPhase → List UInt8
  | .storeEnd .. => rest
  | .loadIndex .. | .storeIndex .. => rest ++ [old]
  | _ => rest ++ [c]

/-- How far the insertion point is then from the end of the buffer. -/
def skew : ReadPhase → Int
  | .storeEnd .. => 1
  | .storeIndex .. => -1
  | _ => 0

/-- How often a newline typed there is counted. -/
def counts (c : UInt8) : ReadPhase → Int
  | .storeRet .. => 0
  | _ => if c = 10 then 1 else 0

theorem plain_of_early {φ : ReadPhase} (early : φ.early = true) (rest : List UInt8)
    (old c : UInt8) :
    φ.leaves rest old c = rest ++ [c] ∧ φ.skew = 0 ∧ φ.counts c = if c = 10 then 1 else 0 := by
  cases φ with
  | spin | copyTest | copyMove | shiftTest | shiftMove => exact ⟨rfl, rfl, rfl⟩
  | _ => exact absurd early Bool.false_ne_true

/-- The end has been stored and the index has not. -/
def apart : ReadPhase → Bool
  | .loadIndex .. | .storeIndex .. => true
  | _ => false

end ReadPhase

namespace TermData

variable {d₀ e : TermData} {len : Int}

/-- The rest of the line, where it was moved to. -/
theorem pending_rest (settled : d₀.Settled) (ends : e.inDatEnd = d₀.kept len)
    (front : ∀ x : Nat, x < d₀.kept len → e.inBuf x = d₀.inBuf (d₀.taken len + x)) :
    e.pending = d₀.pending.drop (d₀.taken len) := by
  rw [← Terms.afterRead_pending settled]
  refine pending_congr ends fun x nonneg inside => ?_
  obtain ⟨k, rfl⟩ := Int.eq_ofNat_of_zero_le nonneg
  rw [front k (by omega)]
  exact (if_pos ⟨by omega, by omega⟩).symm

/-- The rest of the line with the character behind it. -/
theorem pending_rest_succ (settled : d₀.Settled) (ends : e.inDatEnd = d₀.kept len + 1)
    (front : ∀ x : Nat, x < d₀.kept len → e.inBuf x = d₀.inBuf (d₀.taken len + x)) :
    e.pending = d₀.pending.drop (d₀.taken len) ++ [e.inBuf (d₀.kept len)] := by
  have rest := pending_rest (e := { e with inDatEnd := d₀.kept len }) settled rfl front
  rw [← rest]
  exact pending_append (Int.natCast_nonneg _) ends (Function.update_eq_self _ _).symm

/-- At every place of a read the index is at the end or behind it. -/
theorem Reading.ahead {d : TermData} {φ : ReadPhase} (settled : d₀.Settled)
    (reading : d₀.Reading len d φ) :
    d.inDatEnd ≤ d.inDatIndex ∧ d.inDatEnd ≤ d₀.inDatEnd ∧ d.isActive = d₀.isActive := by
  have sum := d₀.taken_add_kept len
  have ends := Terms.end_eq settled
  have index := settled.index_eq
  have whole : d₀.inDatEnd ≤ d₀.inDatIndex ∧ d₀.inDatEnd ≤ d₀.inDatEnd ∧
      d₀.isActive = d₀.isActive := ⟨by omega, Int.le_refl _, rfl⟩
  have cut : (d₀.kept len : Int) ≤ d₀.inDatIndex ∧ (d₀.kept len : Int) ≤ d₀.inDatEnd ∧
      d₀.isActive = d₀.isActive := ⟨by omega, by omega, rfl⟩
  have level : (d₀.kept len : Int) ≤ d₀.inDatIndex - d₀.taken len ∧
      (d₀.kept len : Int) ≤ d₀.inDatEnd ∧ d₀.isActive = d₀.isActive := ⟨by omega, by omega, rfl⟩
  cases φ with
  | spin => exact (show d = d₀ from reading) ▸ whole
  | copyTest buf => exact reading.1 ▸ whole
  | copyMove buf => exact reading.1 ▸ whole
  | shiftTest buf cr j => exact reading.2.2 ▸ whole
  | shiftMove buf cr j => exact reading.2.2 ▸ whole
  | storeEnd buf cr j => exact reading.2.2 ▸ whole
  | loadIndex buf cr => exact reading.2 ▸ cut
  | storeIndex buf cr index => exact reading.2.2 ▸ cut
  | loadRet buf cr => exact reading.2 ▸ level
  | storeRet buf cr nrRet => exact reading.2.2 ▸ level
  | done buf => exact reading.2 ▸ level

/-- Where a key is stored during a read from a full buffer, if it is stored. -/
theorem Reading.place {d : TermData} {φ : ReadPhase} (settled : d₀.Settled)
    (full : d₀.inDatEnd = 128) (some : 0 < d₀.taken len) (reading : d₀.Reading len d φ) :
    (φ.apart = true → d.inDatEnd < 128 ∧ d.inDatIndex = 128) ∧
      (φ.apart = false → 128 ≤ d.inDatEnd ∨ d.inDatEnd < 128 ∧ 0 ≤ d.inDatIndex ∧
        d.inDatIndex < 128) := by
  have sum := d₀.taken_add_kept len
  have ends := Terms.end_eq settled
  have index := settled.index_eq
  have whole : 128 ≤ d₀.inDatEnd := by omega
  have cut : (d₀.kept len : Int) < 128 ∧ d₀.inDatIndex = 128 := by omega
  have level : (d₀.kept len : Int) < 128 ∧ 0 ≤ d₀.inDatIndex - d₀.taken len ∧
      d₀.inDatIndex - d₀.taken len < 128 := by omega
  cases φ with
  | spin => exact ⟨nofun, fun _ => .inl ((show d = d₀ from reading) ▸ whole)⟩
  | copyTest buf => exact ⟨nofun, fun _ => .inl (reading.1 ▸ whole)⟩
  | copyMove buf => exact ⟨nofun, fun _ => .inl (reading.1 ▸ whole)⟩
  | shiftTest buf cr j => exact ⟨nofun, fun _ => .inl (reading.2.2 ▸ whole)⟩
  | shiftMove buf cr j => exact ⟨nofun, fun _ => .inl (reading.2.2 ▸ whole)⟩
  | storeEnd buf cr j => exact ⟨nofun, fun _ => .inl (reading.2.2 ▸ whole)⟩
  | loadIndex buf cr => exact ⟨fun _ => reading.2 ▸ cut, nofun⟩
  | storeIndex buf cr index => exact ⟨fun _ => reading.2.2 ▸ cut, nofun⟩
  | loadRet buf cr => exact ⟨nofun, fun _ => .inr (reading.2 ▸ level)⟩
  | storeRet buf cr nrRet => exact ⟨nofun, fun _ => .inr (reading.2.2 ▸ level)⟩
  | done buf => exact ⟨nofun, fun _ => .inr (reading.2 ▸ level)⟩

/-- The terminal after a read in which a character `c` was typed at the place `φ`. -/
structure Raced (d₀ : TermData) (len : Int) (c : UInt8) (φ : ReadPhase) (e : TermData) : Prop where
  pending_eq : e.pending =
    φ.leaves (d₀.pending.drop (d₀.taken len)) (d₀.inBuf (d₀.kept len)) c
  index_eq : e.inDatIndex = e.inDatEnd + φ.skew
  nrRet_eq : e.inDatNrRet = d₀.inDatNrRet - (d₀.line len).count 10 + φ.counts c

/-- A key that is stored before the read has a use for the end of the buffer. -/
theorem raced_early {c : UInt8} {φ : ReadPhase} (settled : d₀.Settled) (room : d₀.inDatEnd < 128)
    (complete : 10 ∈ d₀.pending) (early : φ.early = true) :
    d₀.Raced len c φ ((d₀.pressed c).afterRead len) := by
  have le := d₀.taken_le len
  have sum := d₀.taken_add_kept len
  have ends := Terms.end_eq settled
  have index := settled.index_eq
  have taken := pressed_taken len c settled complete
  have kept := pressed_kept len c settled complete
  obtain ⟨leaves, skew, counts⟩ := ReadPhase.plain_of_early early
    (d₀.pending.drop (d₀.taken len)) (d₀.inBuf (d₀.kept len)) c
  refine ⟨?_, ?_, ?_⟩
  · rw [leaves, Terms.afterRead_pending (pressed_settled settled room), taken,
      pressed_pending settled, List.drop_append_of_le_length le]
  · rw [skew]
    show d₀.inDatIndex + 1 - ((d₀.pressed c).taken len : Int) = (d₀.pressed c).kept len + 0
    omega
  · rw [counts]
    simp only [afterRead, pressed_line len c settled complete]
    exact add_sub_right_comm _ _ _

/-- Nor is there a difference when the index has been stored. -/
theorem raced_late {c : UInt8} {φ : ReadPhase} (settled : d₀.Settled) {e : TermData}
    (buf : e.inBuf = ((d₀.afterRead len).pressed c).inBuf)
    (index : e.inDatIndex = d₀.kept len + 1) (last : e.inDatEnd = d₀.kept len + 1)
    (leaves : ∀ rest old, φ.leaves rest old c = rest ++ [c]) (skew : φ.skew = 0)
    (nrRet : e.inDatNrRet = d₀.inDatNrRet - (d₀.line len).count 10 + φ.counts c) :
    d₀.Raced len c φ e := by
  have sum := d₀.taken_add_kept len
  have ends := Terms.end_eq settled
  have place : (d₀.afterRead len).inDatIndex = (d₀.afterRead len).inDatEnd := by
    have := settled.index_eq
    simp only [afterRead, moved, shifted]
    omega
  refine ⟨?_, ?_, nrRet⟩
  · rw [leaves, ← Terms.afterRead_pending settled]
    refine pending_append (Int.natCast_nonneg _) last ?_
    rw [buf, ← place]
    rfl
  · rw [skew, index, last, Int.add_zero]

/-- The shifting loop has ended and the key is stored where the line ended. -/
theorem pressed_moved_front {d : TermData} {c : UInt8} (settled : d₀.Settled)
    (some : 0 < d₀.taken len) (buf : d.inBuf = (d₀.moved len).inBuf)
    (index : d.inDatIndex = d₀.inDatIndex) :
    (∀ x : Nat, x < d₀.kept len → (d.pressed c).inBuf x = d₀.inBuf (d₀.taken len + x)) ∧
      (d.pressed c).inBuf (d₀.kept len) = d₀.inBuf (d₀.kept len) := by
  have sum := d₀.taken_add_kept len
  have ends := Terms.end_eq settled
  have index' := settled.index_eq
  have away (x : Int) (before : x ≤ d₀.kept len) :
      (d.pressed c).inBuf x = (d₀.moved len).inBuf x := by
    rw [← buf]
    exact Function.update_of_ne (by omega) _ _
  refine ⟨fun x inside => ?_, ?_⟩
  · rw [away x (by omega)]
    exact if_pos ⟨by omega, by omega⟩
  · rw [away _ (Int.le_refl _)]
    exact if_neg (by omega)

end TermData

namespace Terms

section Racing

variable {s s₁ : Terms} {t : Fin 4} {len : Int} {φ : ReadPhase} {c : UInt8} {d₀ : TermData}

/-- The read goes on after the key. -/
theorem raced (visible : t = s₁.activeTerm) (settled : d₀.Settled) (ready : 0 < d₀.inDatNrRet)
    (complete : 10 ∈ d₀.pending) (some : 0 < d₀.taken len) (room : d₀.inDatEnd < 128)
    {d : TermData} (key : s₁.input t = d.pressed c) (reading : d₀.Reading len d φ) :
    ∃ s₂, ReadSteps t len (s₁, φ) (s₂, .done (d₀.line len)) ∧
      d₀.Raced len c φ (s₂.input t) := by
  have sum := d₀.taken_add_kept len
  have lineLen := d₀.length_line len
  have ends := end_eq settled
  have index := settled.index_eq
  by_cases early : φ.early = true
  · -- it is a read of the longer buffer
    have counted : (d₀.pressed c).inDatNrRet ≠ 0 := by
      simp only [TermData.pressed]
      split_ifs
      · omega
      · omega
    have reading' := reading.pressed (c := c) settled complete some early
    obtain ⟨s₂, steps, sets⟩ :=
      read_finishes visible (TermData.pressed_settled settled room) counted (key ▸ reading')
    rw [TermData.pressed_line len c settled complete] at steps
    exact ⟨s₂, steps, sets.own ▸ TermData.raced_early settled room complete early⟩
  cases φ with
  | spin | copyTest | copyMove | shiftTest | shiftMove => exact absurd rfl early
  | storeEnd buf cr j =>
    obtain ⟨⟨rfl, rfl⟩, rfl, rfl⟩ := reading
    obtain ⟨front, -⟩ := TermData.pressed_moved_front (c := c) settled some
      (rfl : (d₀.moved len).inBuf = _) rfl
    obtain ⟨s₂, steps, sets⟩ := storeEnd_finishes s₁ t len (d₀.line len) ((d₀.line len).count 10)
      (d₀.kept len)
    rw [key] at sets
    refine ⟨s₂, steps, ?_⟩
    rw [sets.own]
    refine ⟨TermData.pending_rest settled rfl front, ?_, add_sub_right_comm _ _ _⟩
    show d₀.inDatIndex + 1 - ((d₀.line len).length : Int) = d₀.kept len + 1
    omega
  | loadIndex buf cr =>
    obtain ⟨⟨rfl, rfl⟩, rfl⟩ := reading
    obtain ⟨front, old⟩ := TermData.pressed_moved_front (c := c) settled some
      (d := { d₀.moved len with inDatEnd := d₀.kept len }) rfl rfl
    obtain ⟨s₂, steps, sets⟩ := loadIndex_finishes s₁ t len (d₀.line len) ((d₀.line len).count 10)
    rw [key] at sets
    refine ⟨s₂, steps, ?_⟩
    rw [sets.own]
    have rest := TermData.pending_rest_succ settled rfl front
    rw [old] at rest
    refine ⟨rest, ?_, add_sub_right_comm _ _ _⟩
    · show d₀.inDatIndex + 1 - ((d₀.line len).length : Int) = d₀.kept len + 1 + 0
      omega
  | storeIndex buf cr loaded =>
    obtain ⟨⟨rfl, rfl⟩, rfl, rfl⟩ := reading
    obtain ⟨front, old⟩ := TermData.pressed_moved_front (c := c) settled some
      (d := { d₀.moved len with inDatEnd := d₀.kept len }) rfl rfl
    obtain ⟨s₂, steps, sets⟩ := storeIndex_finishes s₁ t len (d₀.line len)
      ((d₀.line len).count 10) d₀.inDatIndex
    rw [key] at sets
    refine ⟨s₂, steps, ?_⟩
    rw [sets.own]
    have rest := TermData.pending_rest_succ settled rfl front
    rw [old] at rest
    refine ⟨rest, ?_, add_sub_right_comm _ _ _⟩
    · show d₀.inDatIndex - ((d₀.line len).length : Int) = d₀.kept len + 1 + -1
      omega
  | loadRet buf cr =>
    obtain ⟨⟨rfl, rfl⟩, rfl⟩ := reading
    obtain ⟨s₂, steps, sets⟩ := loadRet_finishes s₁ t len (d₀.line len) ((d₀.line len).count 10)
    rw [key] at sets
    refine ⟨s₂, steps, ?_⟩
    rw [sets.own]
    refine TermData.raced_late settled rfl ?_ rfl (fun _ _ => rfl) rfl (add_sub_right_comm _ _ _)
    show d₀.inDatIndex - d₀.taken len + 1 = d₀.kept len + 1
    omega
  | storeRet buf cr nrRet =>
    obtain ⟨⟨rfl, rfl⟩, rfl, rfl⟩ := reading
    obtain ⟨s₂, steps, sets⟩ := storeRet_finishes s₁ t len (d₀.line len) ((d₀.line len).count 10)
      d₀.inDatNrRet
    rw [key] at sets
    refine ⟨s₂, steps, ?_⟩
    rw [sets.own]
    refine TermData.raced_late settled rfl ?_ rfl (fun _ _ => rfl) rfl (Int.add_zero _).symm
    show d₀.inDatIndex - d₀.taken len + 1 = d₀.kept len + 1
    omega
  | done buf =>
    obtain ⟨rfl, rfl⟩ := reading
    refine ⟨s₁, .refl, ?_⟩
    rw [key]
    refine TermData.raced_late settled rfl ?_ rfl (fun _ _ => rfl) rfl rfl
    show d₀.inDatIndex - d₀.taken len + 1 = d₀.kept len + 1
    omega

end Racing

variable {s₀ s s₁ : Terms} {len : Int} {φ : ReadPhase} {c : UInt8} {es : List InputEvent}
  {out : List Delivery}

/-- A key pressed while a process of the visible terminal reads a line. The read delivers the
line all the same and comes to its end. Only before the shifting loop has ended and after the
index is stored does the character get to where it belongs. In between the end and the index are
stored from what they were before the key: the character is lost or replaced by one that was
typed long before, and the insertion point may stay away from the end. A newline typed
while the count is being stored is in the buffer and not in the count. -/
theorem key_during_read (run : InputRun (fun _ _ => True) s₀.booted es out s) (positive : 0 < len)
    (complete : 10 ∈ (s.term s.activeTerm).pending)
    (ready : 0 < (s.term s.activeTerm).inDatNrRet)
    (room : (s.term s.activeTerm).pending.length < 128)
    (ordinary : c ≠ 0 ∧ c ≠ keyBackspaceCode ∧ c ≠ keyDeleteCode)
    (reached : ReadSteps s.activeTerm len (s, .spin) (s₁, φ)) (scancode alt : UInt8) :
    let queue := (s.term s.activeTerm).pending
    let n := lineLength queue len
    ∃ s₂, ReadSteps s.activeTerm len (s₁.inputProcessKey c scancode 0 alt, φ)
        (s₂, .done (queue.take n)) ∧
      (s₂.term s.activeTerm).pending =
        φ.leaves (queue.drop n) (queue.getD (queue.length - n) 0) c ∧
      (s₂.term s.activeTerm).inDatIndex = (s₂.term s.activeTerm).inDatEnd + φ.skew ∧
      (s₂.term s.activeTerm).inDatNrRet =
        (s.term s.activeTerm).inDatNrRet - (queue.take n).count 10 + φ.counts c := by
  intro queue n
  obtain ⟨orderly, -⟩ := run.orderly (orderly_booted s₀)
  have settled := orderly.settled s.activeTerm
  have ends := end_eq settled
  have full : (s.input s.activeTerm).inDatEnd < 128 := by
    have short : (s.input s.activeTerm).pending.length < 128 := room
    omega
  have some : 0 < (s.input s.activeTerm).taken len := by
    have found : 0 < queue.length := List.length_pos_of_mem complete
    show 0 < lineLength queue len
    simp only [lineLength]
    omega
  obtain ⟨reading, sets⟩ := reading_steps rfl settled (Int.ne_of_gt ready) reached
  obtain ⟨ahead, shorter, open₁⟩ := reading.ahead settled
  have visible := sets.active_eq.symm
  have key := setsInput_pressed scancode alt ordinary.1 ordinary.2.1 ordinary.2.2 visible
    (open₁ ▸ orderly.isOpen) (by omega) ahead
  obtain ⟨s₂, steps, raced⟩ := raced (visible.trans key.active_eq.symm) settled ready complete some
    full key.own reading
  refine ⟨s₂, steps, ?_, raced.index_eq, raced.nrRet_eq⟩
  have old : queue.getD (queue.length - n) 0 =
      (s.input s.activeTerm).inBuf ((s.input s.activeTerm).kept len) := by
    have sum := (s.input s.activeTerm).taken_add_kept len
    have there := TermData.pending_getElem? (d := s.input s.activeTerm)
      (k := (s.input s.activeTerm).kept len) (by omega)
    exact (List.getD_eq_getElem?_getD ..).trans (congrArg (Option.getD · 0) there)
  rw [old]
  exact raced.pending_eq

theorem input_inDatNrRet (s : Terms) (t : Fin 4) :
    (s.input t).inDatNrRet = (s.term t).inDatNrRet := rfl

/-- Newlines typed after boot. -/
theorem newlines_typed (s₀ : Terms) (n : Nat) (fits : n ≤ 128) : ∃ es s,
    InputRun (fun _ _ => True) s₀.booted es [] s ∧ s.activeTerm = 0 ∧
      (s.term 0).pending = List.replicate n 10 ∧ (s.term 0).inDatNrRet = n := by
  induction n with
  | zero =>
    have none := (booted_input s₀ 0).2.2.1
    rw [input_inDatNrRet] at none
    have empty : (s₀.booted.term 0).pending = List.replicate 0 10 := by
      rw [booted_pending, List.replicate_zero]
    exact ⟨[], _, .nil, booted_activeTerm s₀, empty, by rw [none, Nat.cast_zero]⟩
  | succ n ih =>
    obtain ⟨es, s, run, active, pending, returns⟩ := ih (by omega)
    obtain ⟨orderly, -⟩ := run.orderly (orderly_booted s₀)
    obtain ⟨d, sets, keyed⟩ := orderly.setsInput_key 10 0x1C 0 0
    rw [active] at sets keyed
    have pending' : (s.input 0).pending = List.replicate n 10 := pending
    have returns' : (s.input 0).inDatNrRet = n := returns
    have room : n < 128 := by omega
    have queue : d.pending = List.replicate (n + 1) 10 := by
      rw [keyed.pending_eq, pending', List.replicate_succ']
      simp [typed, room, keyBackspaceCode, keyDeleteCode]
    have count : d.inDatNrRet = n + 1 := by
      rw [keyed.returns_eq, pending', returns']
      simp [countTyped, room, keyEnterCode]
    have longer : InputRun (fun _ _ => True) s₀.booted (es ++ [.key 10 0x1C 0 0]) ([] ++ [])
        (s.inputProcessKey 10 0x1C 0 0) := .snoc run True.intro rfl
    exact ⟨_, _, longer, sets.active_eq.trans active,
      (congrArg TermData.pending sets.own).trans queue,
      (congrArg TermData.inDatNrRet sets.own).trans count⟩

/-- A letter typed just before the first store of a read is not in the buffer, and the
insertion point is not at its end. -/
theorem key_during_read_lost : ∃ s s₁ s₂,
    ReadSteps 0 128 (s, .spin) (s₁, .storeEnd [10] 1 0) ∧
    ReadSteps 0 128 (s₁.inputProcessKey 98 0x30 0 0, .storeEnd [10] 1 0) (s₂, .done [10]) ∧
    (s₂.term 0).pending = [] ∧ (s₂.term 0).inDatIndex = (s₂.term 0).inDatEnd + 1 ∧
    (s₂.term 0).inDatNrRet = 0 := by
  obtain ⟨es, s, run, active, pending, returns⟩ := newlines_typed blank 1 (by decide)
  obtain ⟨orderly, -⟩ := run.orderly (orderly_booted blank)
  have queue : (s.input 0).pending = [10] := pending
  have returns' : (s.input 0).inDatNrRet = 1 := returns
  have start : (s.input 0).Reading 128 (s.input 0) .spin := rfl
  obtain ⟨s₁, reached⟩ := read_stores active.symm (orderly.settled 0)
    (by rw [returns']; decide) rfl start
  have line : (s.input 0).line 128 = [10] ∧ (s.input 0).kept 128 = 0 := by
    simp only [TermData.line, TermData.kept, TermData.taken, queue]
    decide
  rw [line.1, line.2] at reached
  have raced := key_during_read (c := 98) run (by decide : (0 : Int) < 128)
    (by rw [active, pending]; decide) (by rw [active, returns]; decide)
    (by rw [active, pending]; decide) (by decide) (active.symm ▸ reached) 0x30 0
  simp only [active, pending, returns] at raced
  obtain ⟨s₂, steps, left, index, count⟩ := raced
  exact ⟨s, s₁, s₂, reached, steps, left, index, count⟩

/-- With the buffer full, a character can only be stored after the end has gone down, and then
it is stored where the index still is: behind the last place of the buffer. -/
theorem key_overruns (run : InputRun (fun _ _ => True) s₀.booted es out s) (positive : 0 < len)
    (ready : (s.term s.activeTerm).inDatNrRet ≠ 0)
    (full : (s.term s.activeTerm).pending.length = 128)
    (ordinary : c ≠ 0 ∧ c ≠ keyBackspaceCode ∧ c ≠ keyDeleteCode)
    (reached : ReadSteps s.activeTerm len (s, .spin) (s₁, φ)) (scancode alt : UInt8) :
    (s₁.inputProcessKey c scancode 0 alt).offBuf = (s₀.offBuf || φ.apart) := by
  obtain ⟨orderly, kept⟩ := run.orderly (orderly_booted s₀)
  have boot : s₀.booted.offBuf = s₀.offBuf :=
    (setsInput_terminalOpen s₀.terminalInit 0 rfl).offBuf_eq
  have settled := orderly.settled s.activeTerm
  have ends := end_eq settled
  have full' : (s.input s.activeTerm).pending.length = 128 := full
  have some : 0 < (s.input s.activeTerm).taken len := by
    show 0 < lineLength (s.term s.activeTerm).pending len
    simp only [lineLength]
    omega
  obtain ⟨reading, sets⟩ := reading_steps rfl settled ready reached
  obtain ⟨ahead, -, open₁⟩ := reading.ahead settled
  obtain ⟨outside, otherwise⟩ := reading.place settled (by omega) some
  have visible := sets.active_eq.symm
  have untouched : s₁.offBuf = s₀.offBuf := sets.offBuf_eq.trans (kept.trans boot)
  have stored (room : (s₁.input s.activeTerm).inDatEnd < 128) :
      (s₁.inputProcessKey c scancode 0 alt).offBuf =
        (s₀.offBuf || !decide (0 ≤ (s₁.input s.activeTerm).inDatIndex ∧
          (s₁.input s.activeTerm).inDatIndex < 128)) := by
    rw [← untouched]
    exact (setsInput_pressed scancode alt ordinary.1 ordinary.2.1 ordinary.2.2 visible
      (open₁ ▸ orderly.isOpen) room ahead).offBuf_eq
  cases apart : φ.apart with
  | true =>
    obtain ⟨room, index⟩ := outside apart
    rw [stored room, index]
    rfl
  | false =>
    rw [Bool.or_false]
    obtain refused | ⟨room, inside⟩ := otherwise apart
    · rw [offBuf_refused ordinary.2.1 ordinary.2.2 (visible ▸ refused), untouched]
    · rw [stored room, decide_eq_true inside]
      exact Bool.or_false _

/-- The buffer full of newlines, and a letter typed between the first two stores of a read. -/
theorem key_overruns_full : ∃ s s₁,
    ReadSteps 0 128 (s, .spin) (s₁, .loadIndex [10] 1) ∧ s₁.offBuf = false ∧
    (s₁.inputProcessKey 98 0x30 0 0).offBuf = true := by
  obtain ⟨es, s, run, active, pending, returns⟩ := newlines_typed blank 128 (by decide)
  obtain ⟨orderly, kept⟩ := run.orderly (orderly_booted blank)
  have queue : (s.input 0).pending = List.replicate 128 10 := pending
  have returns' : (s.input 0).inDatNrRet = 128 := returns
  have ready : (s.input 0).inDatNrRet ≠ 0 := by
    rw [returns']
    decide
  have start : (s.input 0).Reading 128 (s.input 0) .spin := rfl
  obtain ⟨s₁, reached⟩ := read_stores active.symm (orderly.settled 0) ready rfl start
  have line : (s.input 0).line 128 = [10] ∧ (s.input 0).kept 128 = 127 := by
    simp only [TermData.line, TermData.kept, TermData.taken, queue]
    decide +kernel
  rw [line.1, line.2] at reached
  obtain ⟨s₂, next⟩ : ∃ s₂, ReadSteps 0 128 (s, .spin) (s₂, .loadIndex [10] 1) :=
    ⟨_, reached.tail rfl⟩
  obtain ⟨-, sets⟩ := reading_steps active.symm (orderly.settled 0) ready next
  have boot : blank.booted.offBuf = false :=
    (setsInput_terminalOpen blank.terminalInit 0 rfl).offBuf_eq
  have overrun := key_overruns (c := 98) run (by decide : (0 : Int) < 128)
    (by rw [active]; exact ready) (by rw [active, pending, List.length_replicate]) (by decide)
    (active.symm ▸ next) 0x30 0
  exact ⟨s, s₂, next, sets.offBuf_eq.trans (kept.trans boot), overrun⟩

end Terms

end Linux391
