import Mathlib.Data.List.Nodup
import Mathlib.Data.List.Rotate
import Mathlib.Tactic.Common

/-!
Round-robin selection among `0 .. n - 1`.

`turn n p` lists them in cyclic order from the one after `p`, which comes last. The
next to be served is the first one in it that is ready, and `queue` are all that are.
Serving from a ready `p` moves the head of the queue to its end (`queue_next`), so as
many services in a row as there are ready ones go through the whole queue once
(`served_queue`).
-/

namespace Linux391.RoundRobin

variable {n : Nat} {ready : Nat → Bool} {p q : Nat}

def turn (n p : Nat) : List Nat := (List.range n).rotate (p + 1)

/-- Those that are ready, in the order of their turns after `p`. -/
def queue (n : Nat) (ready : Nat → Bool) (p : Nat) : List Nat := (turn n p).filter ready

/-- Whose turn it is after `p`. -/
def next (n : Nat) (ready : Nat → Bool) (p : Nat) : Option Nat := (turn n p).find? ready

/-- The ones served in `k` rounds after `p`. -/
def served (n : Nat) (ready : Nat → Bool) : Nat → Nat → List Nat
  | 0, _ => []
  | k + 1, p =>
      match next n ready p with
      | none => []
      | some q => q :: served n ready k q

theorem mem_turn : q ∈ turn n p ↔ q < n := by
  rw [turn, List.mem_rotate, List.mem_range]

theorem mem_queue : q ∈ queue n ready p ↔ q < n ∧ ready q = true := by
  rw [queue, List.mem_filter, mem_turn]

theorem nodup_queue : (queue n ready p).Nodup := by
  apply List.Nodup.filter
  rw [turn, List.nodup_rotate]
  exact List.nodup_range

/-- How many are ready does not depend on whose turn it is. -/
theorem length_queue : (queue n ready p).length = ((List.range n).filter ready).length := by
  have perm : (turn n p).Perm (List.range n) := List.rotate_perm _ _
  exact (perm.filter ready).length_eq

/-- The turns after `q` are those after `p`, rotated to just behind `q`. -/
theorem turn_of_getElem {j : Nat} (at_j : (turn n p)[j]? = some q) :
    turn n q = (turn n p).rotate (j + 1) := by
  obtain ⟨inside, eq⟩ := List.getElem?_eq_some_iff.mp at_j
  have index : q = (j + (p + 1)) % n := by
    rw [← eq]
    simp [turn, List.getElem_rotate]
  have shift : (q + 1) % n = (p + 1 + (j + 1)) % n := by
    rw [index, Nat.mod_add_mod]
    congr 1
    omega
  unfold turn
  rw [List.rotate_rotate, ← List.rotate_mod, List.length_range, shift]
  conv_rhs => rw [← List.rotate_mod, List.length_range]

/-- The one whose turn it is heads the queue, and is the last in the queue after its own
turn. -/
theorem queue_next (served : next n ready p = some q) :
    ∃ rest, queue n ready p = q :: rest ∧ queue n ready q = rest ++ [q] := by
  obtain ⟨isReady, before, after, split, skipped⟩ := List.find?_eq_some_iff_append.mp served
  have none_before : before.filter ready = [] := by
    rw [List.filter_eq_nil_iff]
    intro a mem
    simpa using skipped a mem
  have at_q : (turn n p)[before.length]? = some q := by
    rw [split]
    simp
  have turned : turn n q = after ++ (before ++ [q]) := by
    rw [turn_of_getElem at_q, split]
    have front : before ++ q :: after = (before ++ [q]) ++ after := by simp
    have length : before.length + 1 = (before ++ [q]).length := by simp
    rw [front, length, List.rotate_append_length_eq]
  refine ⟨after.filter ready, ?_, ?_⟩
  · rw [queue, split, List.filter_append, none_before, List.filter_cons_of_pos isReady,
      List.nil_append]
  · rw [queue, turned, List.filter_append, List.filter_append, none_before,
      List.filter_cons_of_pos isReady, List.filter_nil, List.nil_append]

theorem next_isReady (served : next n ready p = some q) : q < n ∧ ready q = true :=
  ⟨mem_turn.mp (List.mem_of_find?_eq_some served), List.find?_some served⟩

/-- Somebody is served as long as anybody is ready. -/
theorem next_eq_head : next n ready p = (queue n ready p).head? := by
  rw [next, queue, List.head?_filter]

/-- Rounds take the queue from its front. -/
theorem served_eq_take (k : Nat) (le : k ≤ (queue n ready p).length) :
    served n ready k p = (queue n ready p).take k := by
  induction k generalizing p with
  | zero => rfl
  | succ k ih =>
      cases whose : next n ready p with
      | none =>
          rw [next_eq_head, List.head?_eq_none_iff] at whose
          rw [whose] at le
          exact absurd le (Nat.not_succ_le_zero k)
      | some q =>
          obtain ⟨rest, first, then_⟩ := queue_next whose
          rw [first, List.length_cons] at le
          have room : k ≤ (queue n ready q).length := by
            rw [then_, List.length_append]
            omega
          simp only [served, whose]
          rw [ih room, first, then_, List.take_succ_cons, List.take_append_of_le_length (by omega)]

/-- As many rounds as there are ready ones serve each of them once. -/
theorem served_queue : served n ready (queue n ready p).length p = queue n ready p := by
  rw [served_eq_take _ (Nat.le_refl _), List.take_length]

/-! ### Consecutive rounds -/

/-- While the last one served is ready, nobody has to wait. -/
theorem length_served (k : Nat) (lt : p < n) (isReady : ready p = true) :
    (served n ready k p).length = k := by
  induction k generalizing p with
  | zero => rfl
  | succ k ih =>
      have waiting : p ∈ queue n ready p := mem_queue.mpr ⟨lt, isReady⟩
      cases whose : next n ready p with
      | none =>
          rw [next_eq_head, List.head?_eq_none_iff] at whose
          rw [whose] at waiting
          cases waiting
      | some q =>
          obtain ⟨ltq, readyq⟩ := next_isReady whose
          simp only [served, whose, List.length_cons, ih ltq readyq]

/-- The last one served is ready too. -/
theorem last_served (k : Nat) (lt : p < n) (isReady : ready p = true) :
    (served n ready k p).getLastD p < n ∧ ready ((served n ready k p).getLastD p) = true := by
  induction k generalizing p with
  | zero => exact ⟨lt, isReady⟩
  | succ k ih =>
      cases whose : next n ready p with
      | none =>
          simp only [served, whose]
          exact ⟨lt, isReady⟩
      | some q =>
          obtain ⟨ltq, readyq⟩ := next_isReady whose
          simp only [served, whose, List.getLastD_cons]
          exact ih ltq readyq

/-- More rounds go on from the last one served. -/
theorem served_add (a b : Nat) (lt : p < n) (isReady : ready p = true) :
    served n ready (a + b) p =
      served n ready a p ++ served n ready b ((served n ready a p).getLastD p) := by
  induction a generalizing p with
  | zero => rw [Nat.zero_add]; rfl
  | succ a ih =>
      rw [Nat.succ_add]
      cases whose : next n ready p with
      | none =>
          have full := length_served 1 lt isReady
          simp [served, whose] at full
      | some q =>
          obtain ⟨ltq, readyq⟩ := next_isReady whose
          simp only [served, whose, List.cons_append, List.getLastD_cons]
          rw [ih ltq readyq]

/-- **Fairness.** Among consecutive rounds, as many as there are ready ones serve each of
them exactly once. -/
theorem served_block {k : Nat} {before block after : List Nat} (lt : p < n)
    (isReady : ready p = true) (split : served n ready k p = before ++ block ++ after)
    (whole : block.length = ((List.range n).filter ready).length) :
    block.Nodup ∧ ∀ q, q ∈ block ↔ q < n ∧ ready q = true := by
  have rounds : k = before.length + (block.length + after.length) := by
    have := congrArg List.length split
    rw [length_served k lt isReady] at this
    simpa [Nat.add_assoc] using this
  obtain ⟨ltLast, readyLast⟩ := last_served before.length lt isReady
  rw [rounds, served_add _ _ lt isReady, served_add _ _ ltLast readyLast,
    List.append_assoc] at split
  obtain ⟨_, behind⟩ := List.append_inj split (length_served _ lt isReady)
  obtain ⟨eq, _⟩ := List.append_inj behind (length_served _ ltLast readyLast)
  generalize (served n ready before.length p).getLastD p = last at eq ltLast readyLast
  have all : block = queue n ready last := by
    rw [← eq, whole, ← length_queue, served_queue]
  rw [all]
  exact ⟨nodup_queue, fun q => mem_queue⟩

end Linux391.RoundRobin
