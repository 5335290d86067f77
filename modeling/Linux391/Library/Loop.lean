import Mathlib.Logic.Function.Basic

/-!
Counting loops over integers.

`forUp body n i s` is the loop `for (j = i; j < i + n; j++) s = body j s`. Its
rule is the usual one: an invariant indexed by the loop variable
(`forUp_induction`).
-/

namespace Linux391.Loop

variable {σ : Type*}

def forUp (body : Int → σ → σ) : Nat → Int → σ → σ
  | 0, _, s => s
  | n + 1, i, s => forUp body n (i + 1) (body i s)

/-- `for (i = lo; i < hi; i++)`. -/
def forRange (lo hi : Int) (body : Int → σ → σ) (s : σ) : σ := forUp body (hi - lo).toNat lo s

/-- An invariant that each iteration carries from its index to the next holds
after the loop at the final index. -/
theorem forUp_induction {body : Int → σ → σ} (motive : Int → σ → Prop)
    (n : Nat) (i : Int) (s : σ) (start : motive i s)
    (step : ∀ j s, i ≤ j → j < i + n → motive j s → motive (j + 1) (body j s)) :
    motive (i + n) (forUp body n i s) := by
  induction n generalizing i s with
  | zero => simpa [forUp] using start
  | succ n ih =>
      have first := step i s (Int.le_refl i) (by omega) start
      have rest := ih (i + 1) (body i s) first fun j s' lower upper =>
        step j s' (by omega) (by omega)
      rw [show i + ((n + 1 : Nat) : Int) = i + 1 + n by omega]
      exact rest

/-- The same rule for `forRange`, when its bounds are in order. -/
theorem forRange_induction {lo hi : Int} {body : Int → σ → σ} (motive : Int → σ → Prop) (s : σ)
    (ordered : lo ≤ hi) (start : motive lo s)
    (step : ∀ j s, lo ≤ j → j < hi → motive j s → motive (j + 1) (body j s)) :
    motive hi (forRange lo hi body s) := by
  have result := forUp_induction motive (hi - lo).toNat lo s start fun j s' lower upper =>
    step j s' lower (by omega)
  rwa [show lo + ((hi - lo).toNat : Int) = hi by omega] at result

/-- A loop whose body keeps a property keeps it, whatever its range. -/
theorem forRange_invariant {lo hi : Int} {body : Int → σ → σ} {P : σ → Prop} (s : σ)
    (start : P s) (step : ∀ j s, lo ≤ j → j < hi → P s → P (body j s)) :
    P (forRange lo hi body s) :=
  forUp_induction (fun _ => P) _ lo s start fun j s' lower upper => step j s' lower (by omega)

/-- A loop whose round `j` stores `f` at place `base + j` fills a range of places. Each
round may use what the rounds before it have done. -/
theorem forRange_fill {β : Type*} (get : σ → Int → β) (f : Int → β) (base : Int)
    (dom : Int → Prop) {lo hi : Int} {body : Int → σ → σ} (s : σ) (ordered : lo ≤ hi)
    (step : ∀ j s', lo ≤ j → j < hi →
      (∀ i, dom i → get s' i = if base + lo ≤ i ∧ i < base + j then f i else get s i) →
      ∀ i, dom i → get (body j s') i = if i = base + j then f i else get s' i) :
    ∀ i, dom i → get (forRange lo hi body s) i =
      if base + lo ≤ i ∧ i < base + hi then f i else get s i := by
  refine forRange_induction (fun j s' => ∀ i, dom i → get s' i =
    if base + lo ≤ i ∧ i < base + j then f i else get s i) s ordered ?_ ?_
  · intro i _
    rw [if_neg (by omega)]
  · intro j s' lower upper before i inside
    rw [step j s' lower upper before i inside]
    by_cases here : i = base + j
    · rw [if_pos here, if_pos (by omega)]
    · rw [if_neg here, before i inside]
      exact if_congr (by omega) rfl rfl

theorem forRange_empty {lo hi : Int} {body : Int → σ → σ} {s : σ} (none : hi ≤ lo) :
    forRange lo hi body s = s := by
  simp [forRange, show (hi - lo).toNat = 0 by omega, forUp]

/-- One more round of a loop that fills a buffer from the front. -/
theorem update_filled {α : Type*} {f g : Int → α} {j : Int} (nonneg : 0 ≤ j) :
    Function.update (fun i => if 0 ≤ i ∧ i < j then f i else g i) j (f j) =
      fun i => if 0 ≤ i ∧ i < j + 1 then f i else g i := by
  funext i
  by_cases last : i = j
  · subst last
    rw [Function.update_self, if_pos (by omega)]
  · have same : (0 ≤ i ∧ i < j) ↔ (0 ≤ i ∧ i < j + 1) := by omega
    rw [Function.update_of_ne last, if_congr same rfl rfl]

end Linux391.Loop
