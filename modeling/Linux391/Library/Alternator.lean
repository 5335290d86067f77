import Mathlib.Logic.Function.Iterate
import Mathlib.Data.Nat.Basic

/-!
A counter with two phases.

It stays in a phase for the turns of that phase and then changes over to the other one with that
one's turns to go. Started in the first phase, it is there in turn `k` exactly if `k` modulo the
length of both is below the length of the first (`on_iterate_start`). Two such counters of which one
has no longer phases than the other are in the same phase in every turn only if their lengths agree
(`same_phases_iff`).
-/

namespace Linux391

structure Alternator where
  onTurns : Nat
  offTurns : Nat
  on : Bool
  /-- The turns to go, this one included. -/
  left : Nat

namespace Alternator

variable {a b r : Nat}

def step (s : Alternator) : Alternator :=
  if 1 < s.left then { s with left := s.left - 1 }
  else { s with on := !s.on, left := if s.on then s.offTurns else s.onTurns }

def start (a b : Nat) : Alternator := ⟨a, b, true, a⟩

/-- The counter `r` turns into its period. -/
def into (a b r : Nat) : Alternator :=
  if r < a then ⟨a, b, true, a - r⟩ else ⟨a, b, false, a + b - r⟩

theorem into_on (early : r < a) : into a b r = ⟨a, b, true, a - r⟩ := if_pos early

theorem into_off (late : a ≤ r) : into a b r = ⟨a, b, false, a + b - r⟩ := if_neg late.not_gt

theorem step_into (on : 0 < a) (off : 0 < b) (inside : r < a + b) :
    (into a b r).step = into a b ((r + 1) % (a + b)) := by
  rcases Nat.lt_or_ge r a with early | late
  · rw [into_on early, Nat.mod_eq_of_lt (by omega)]
    by_cases last : r + 1 < a
    · rw [into_on last, step, if_pos (by dsimp only; omega)]
      dsimp only
      rw [Nat.sub_sub]
    · have whole : a + b - (r + 1) = b := by omega
      rw [into_off (Nat.le_of_not_lt last), step, if_neg (by dsimp only; omega), whole]
      rfl
  · rw [into_off late]
    by_cases last : r + 1 < a + b
    · rw [Nat.mod_eq_of_lt last, into_off (Nat.le_succ_of_le late), step,
        if_pos (by dsimp only; omega)]
      dsimp only
      rw [Nat.sub_sub]
    · have whole : r + 1 = a + b := by omega
      rw [whole, Nat.mod_self, into_on on, step, if_neg (by dsimp only; omega)]
      rfl

theorem iterate_start (on : 0 < a) (off : 0 < b) (k : Nat) :
    step^[k] (start a b) = into a b (k % (a + b)) := by
  induction k with
  | zero =>
      rw [Nat.zero_mod, into_on on]
      rfl
  | succ k ih =>
      rw [Function.iterate_succ_apply', ih, step_into on off (Nat.mod_lt k (by omega)),
        Nat.mod_add_mod]

theorem on_iterate_start (on : 0 < a) (off : 0 < b) (k : Nat) :
    (step^[k] (start a b)).on = true ↔ k % (a + b) < a := by
  rw [iterate_start on off, into]
  split_ifs with early
  · exact iff_of_true rfl early
  · exact iff_of_false not_false early

/-- The end of the shorter first phase tells two counters apart, and so does the end of the shorter
second one. -/
theorem same_phases_iff {a' b' : Nat} (on : 0 < a') (off : 0 < b') (onLe : a' ≤ a) (offLe : b' ≤ b) :
    (∀ k, k % (a' + b') < a' ↔ k % (a + b) < a) ↔ a' = a ∧ b' = b := by
  constructor
  · intro same
    have first : a' = a := by
      by_contra differ
      have early : a' % (a + b) < a := by
        rw [Nat.mod_eq_of_lt (by omega)]
        omega
      have late := (same a').mpr early
      rw [Nat.mod_eq_of_lt (by omega)] at late
      exact Nat.lt_irrefl a' late
    subst first
    refine ⟨rfl, ?_⟩
    by_contra differ
    have again : (a' + b') % (a' + b') < a' := by
      rw [Nat.mod_self]
      exact on
    have late := (same (a' + b')).mp again
    rw [Nat.mod_eq_of_lt (by omega)] at late
    omega
  · rintro ⟨rfl, rfl⟩ k
    exact Iff.rfl

end Alternator

end Linux391
