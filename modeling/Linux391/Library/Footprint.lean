import Linux391.Library.Loop

/-!
Programs that work on one component of a shared state.

The state has a family of components, each seen through an equivalence `same t`
("component `t` looks the same in both states"), and a condition `ok` that a
program may lose but never regain. A program is *local to `u`* when, as long as
the state stays `ok`, it changes no other component and its effect on `u`
depends on `u` alone. Local programs compose, branch on what `u` shows and
loop. The payoff is `run_project`: in a run that mixes programs of many
components with steps that change none, each component ends up as if only its
own programs had been run.
-/

namespace Linux391.Footprint

variable {ι σ ε : Type*}

/-- The components of a state type. -/
structure Views (ι σ : Type*) where
  ok : σ → Prop
  same : ι → σ → σ → Prop
  refl : ∀ t s, same t s s
  trans : ∀ {t s₁ s₂ s₃}, same t s₁ s₂ → same t s₂ s₃ → same t s₁ s₃
  symm : ∀ {t s₁ s₂}, same t s₁ s₂ → same t s₂ s₁

/-- A program that works on component `u` only. -/
structure Local (V : Views ι σ) (u : ι) (F : σ → σ) : Prop where
  ok_of : ∀ s, V.ok (F s) → V.ok s
  frame : ∀ t, t ≠ u → ∀ s, V.ok (F s) → V.same t s (F s)
  congr : ∀ s s', V.ok (F s) → V.ok s' → V.same u s s' → V.ok (F s') ∧ V.same u (F s) (F s')

namespace Local

variable {V : Views ι σ} {u : ι} {F G : σ → σ}

theorem id : Local V u fun s => s :=
  ⟨fun _ h => h, fun t _ s _ => V.refl t s, fun _ _ _ good same => ⟨good, same⟩⟩

theorem comp (hG : Local V u G) (hF : Local V u F) : Local V u fun s => G (F s) where
  ok_of s good := hF.ok_of s (hG.ok_of (F s) good)
  frame t ne s good :=
    V.trans (hF.frame t ne s (hG.ok_of (F s) good)) (hG.frame t ne (F s) good)
  congr s s' good good' same := by
    obtain ⟨middle, sameF⟩ := hF.congr s s' (hG.ok_of (F s) good) good' same
    exact hG.congr (F s) (F s') good middle sameF

/-- Branching on something the component shows. -/
theorem ite {c : σ → Prop} [DecidablePred c] (view : ∀ s s', V.same u s s' → (c s ↔ c s'))
    (hF : Local V u F) (hG : Local V u G) : Local V u fun s => if c s then F s else G s where
  ok_of s good := by
    split at good
    · exact hF.ok_of s good
    · exact hG.ok_of s good
  frame t ne s good := by
    by_cases h : c s
    · simp only [if_pos h] at good ⊢
      exact hF.frame t ne s good
    · simp only [if_neg h] at good ⊢
      exact hG.frame t ne s good
  congr s s' good good' same := by
    by_cases h : c s
    · have h' := (view s s' same).mp h
      simp only [if_pos h, if_pos h'] at good ⊢
      exact hF.congr s s' good good' same
    · have h' := fun k => h ((view s s' same).mpr k)
      simp only [if_neg h, if_neg h'] at good ⊢
      exact hG.congr s s' good good' same

/-- Running a program chosen by what the component shows. -/
theorem bind {α : Type*} {r : σ → α} {B : α → σ → σ}
    (view : ∀ s s', V.same u s s' → r s = r s') (each : ∀ a, Local V u (B a)) :
    Local V u fun s => B (r s) s where
  ok_of s good := (each _).ok_of s good
  frame t ne s good := (each _).frame t ne s good
  congr s s' good good' same := by
    have result := (each (r s)).congr s s' good good' same
    rwa [← view s s' same]

theorem forUp {body : Int → σ → σ} (n : Nat) (i : Int) (each : ∀ j, Local V u (body j)) :
    Local V u (Loop.forUp body n i) := by
  induction n generalizing i with
  | zero => exact id
  | succ n ih => exact comp (G := Loop.forUp body n (i + 1)) (F := body i) (ih (i + 1)) (each i)

theorem forRange {body : Int → σ → σ} (lo hi : Int) (each : ∀ j, Local V u (body j)) :
    Local V u (Loop.forRange lo hi body) :=
  forUp _ _ each

theorem foldl {α : Type*} {body : σ → α → σ} (each : ∀ a, Local V u (fun s => body s a)) :
    ∀ l : List α, Local V u (fun s => l.foldl body s)
  | [] => id
  | a :: rest => comp (F := fun s => body s a) (foldl each rest) (each a)

end Local

/-! ### Runs -/

section Run

variable (V : Views ι σ) (step : σ → ε → σ) (target : σ → ε → Option ι) (act : ι → ε → σ → σ)

/-- What a run needs of its steps: a step with no target changes no component,
and a step directed at `u` is the local program `act u e`. -/
structure Directed : Prop where
  quiet : ∀ s e, target s e = none → V.ok (step s e) → V.ok s ∧ ∀ t, V.same t s (step s e)
  acts : ∀ s e u, target s e = some u → step s e = act u e s
  isLocal : ∀ u e, Local V u (act u e)

/-- The events of a run that are directed at `t`, in order. -/
def directedAt [DecidableEq ι] (t : ι) : σ → List ε → List ε
  | _, [] => []
  | s, e :: es =>
      if target s e = some t then e :: directedAt t (step s e) es
      else directedAt t (step s e) es

variable {V step target act}

theorem ok_of_run (directed : Directed V step target act) (s : σ) (es : List ε)
    (good : V.ok (es.foldl step s)) : V.ok s := by
  induction es generalizing s with
  | nil => exact good
  | cons e es ih =>
      have next := ih (step s e) good
      cases h : target s e with
      | none => exact (directed.quiet s e h next).1
      | some u => exact (directed.isLocal u e).ok_of s (directed.acts s e u h ▸ next)

/-- **Projection.** Run all events from `s`, and from a state `s'` in which `t`
looks the same only the programs of those directed at `t`: at the end `t` looks
the same. -/
theorem run_project [DecidableEq ι] (directed : Directed V step target act) (t : ι) (s s' : σ)
    (es : List ε) (good : V.ok (es.foldl step s)) (good' : V.ok s') (same : V.same t s s') :
    V.same t (es.foldl step s)
      ((directedAt step target t s es).foldl (fun s e => act t e s) s') := by
  induction es generalizing s s' with
  | nil => exact same
  | cons e es ih =>
      have next : V.ok (step s e) := ok_of_run directed (step s e) es good
      by_cases mine : target s e = some t
      · simp only [directedAt, if_pos mine, List.foldl_cons] at good ⊢
        have eq := directed.acts s e t mine
        obtain ⟨good'', same'⟩ := (directed.isLocal t e).congr s s' (eq ▸ next) good' same
        exact ih (step s e) (act t e s') good good'' (eq ▸ same')
      · simp only [directedAt, if_neg mine, List.foldl_cons] at good ⊢
        apply ih (step s e) s' good good'
        cases h : target s e with
        | none => exact V.trans (V.symm ((directed.quiet s e h next).2 t)) same
        | some u =>
            have ne : t ≠ u := fun eq => mine (by rw [h, eq])
            have eq := directed.acts s e u h
            rw [eq] at next ⊢
            exact V.trans (V.symm ((directed.isLocal u e).frame t ne s next)) same

end Run

end Linux391.Footprint
