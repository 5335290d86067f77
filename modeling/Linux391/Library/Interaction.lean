import Mathlib.Tactic.Common

/-!
Programs that make calls.

A program is a tree: it ends with a value, or makes a call and goes on with the reply. A `Host` says
what a call may be answered, and what may happen to the state before the next call is made. So the
program is one party among others, and `Ensures` is about all runs of it: each call is answered,
whatever was done in between, the program ends, and the condition holds then.

`Ensures` is computed along the program. Its rules are those of a program logic: `ensures_bind` for
one program after the other, `Ensures.mono` for the consequence, `ensures_perform` for a call and
`Ensures.loop` for a loop with an invariant and a bound on its rounds.
-/

namespace Linux391.Interaction

variable {Call Reply State α β σ : Type}

/-- A program: `spin` makes no more calls and does not end. -/
inductive Prog (Call Reply α : Type) where
  | ret (a : α)
  | call (c : Call) (next : Reply → Prog Call Reply α)
  | spin

namespace Prog

def bind : Prog Call Reply α → (α → Prog Call Reply β) → Prog Call Reply β
  | .ret a, f => f a
  | .call c next, f => .call c fun reply => (next reply).bind f
  | .spin, _ => .spin

instance : Monad (Prog Call Reply) where
  pure := .ret
  bind := .bind

/-- One call, whose reply is the value. -/
def perform (c : Call) : Prog Call Reply Reply := .call c .ret

/-- The body is run again with a new `inl`, and left with an `inr`. -/
def loop (body : σ → Prog Call Reply (σ ⊕ α)) : Nat → σ → Prog Call Reply α
  | 0, _ => .spin
  | fuel + 1, x => body x >>= fun
    | .inl x => loop body fuel x
    | .inr a => pure a

end Prog

/-- The other side of the calls. `none` is a call that is never answered. -/
structure Host (Call Reply State : Type) where
  between : State → State → Prop
  answers : State → Call → Option (Reply × State) → Prop

/-- However the host behaves, the program ends, and the condition holds of its value and the
state then. -/
def Ensures (host : Host Call Reply State) (post : α → State → Prop) :
    Prog Call Reply α → State → Prop
  | .ret a, s => post a s
  | .call c next, s => ∀ s', host.between s s' →
      (∃ outcome, host.answers s' c outcome) ∧ ∀ outcome, host.answers s' c outcome →
        ∃ reply s'', outcome = some (reply, s'') ∧ Ensures host post (next reply) s''
  | .spin, _ => False

variable {host : Host Call Reply State} {s : State}

/-! ### Rules -/

@[simp] theorem ensures_pure {post : α → State → Prop} (a : α) :
    Ensures host post (pure a) s ↔ post a s := Iff.rfl

theorem ensures_perform {post : Reply → State → Prop} {c : Call} :
    Ensures host post (.perform c) s ↔ ∀ s', host.between s s' →
      (∃ outcome, host.answers s' c outcome) ∧ ∀ outcome, host.answers s' c outcome →
        ∃ reply s'', outcome = some (reply, s'') ∧ post reply s'' := Iff.rfl

theorem Ensures.mono {post post' : α → State → Prop} {prog : Prog Call Reply α}
    (ensures : Ensures host post prog s) (weaker : ∀ a s, post a s → post' a s) :
    Ensures host post' prog s := by
  induction prog generalizing s with
  | ret a => exact weaker a s ensures
  | call c next ih =>
      intro s' between
      obtain ⟨answered, all⟩ := ensures s' between
      refine ⟨answered, fun outcome answer => ?_⟩
      obtain ⟨reply, s'', eq, rest⟩ := all outcome answer
      exact ⟨reply, s'', eq, ih reply rest⟩
  | spin => exact ensures

@[simp] theorem ensures_bind {post : β → State → Prop} {prog : Prog Call Reply α}
    {f : α → Prog Call Reply β} :
    Ensures host post (prog >>= f) s ↔ Ensures host (fun a => Ensures host post (f a)) prog s := by
  induction prog generalizing s with
  | ret a => exact Iff.rfl
  | call c next ih =>
      have same (reply : Reply) (s : State) := ih reply (s := s)
      refine forall₂_congr fun s' _ => and_congr_right fun _ => forall₂_congr fun outcome _ => ?_
      exact exists₂_congr fun reply s'' => and_congr_right fun _ => same reply s''
  | spin => exact Iff.rfl

/-- A loop whose invariant carries a bound on the rounds still to come. -/
theorem Ensures.loop {body : σ → Prog Call Reply (σ ⊕ α)} {post : α → State → Prop}
    (invariant : Nat → σ → State → Prop)
    (round : ∀ n x s, invariant n x s → Ensures host (fun
      | .inl x', s' => ∃ m < n, invariant m x' s'
      | .inr a, s' => post a s') (body x) s)
    {n fuel : Nat} (enough : n < fuel) {x : σ} (start : invariant n x s) :
    Ensures host post (.loop body fuel x) s := by
  induction fuel generalizing n x s with
  | zero => exact absurd enough (Nat.not_lt_zero n)
  | succ fuel ih =>
      rw [Prog.loop, ensures_bind]
      refine (round n x s start).mono fun result s' done => ?_
      cases result with
      | inl x' =>
          obtain ⟨m, less, again⟩ := done
          exact ih (Nat.lt_of_lt_of_le less (Nat.le_of_lt_succ enough)) again
      | inr a => exact done

end Linux391.Interaction
