import Mathlib.Data.List.Infix
import Mathlib.Data.List.Nodup
import Mathlib.Logic.Function.Basic

/-!
Families of stacks without repetition.

No element stands on two stacks or twice on one, so each has at most one neighbour
above it and one below. Pushing a fresh element and popping keep this, which is why it
is part of the type. `Above`, `Top` and `Bottom` are what a linked representation of
the stacks shows, and the lemmas say how the two operations change them.
-/

namespace Linux391

structure Stacks (ι α : Type*) where
  /-- The stacks, top first. -/
  stack : ι → List α
  nodup : ∀ i, (stack i).Nodup
  apart : ∀ i j a, a ∈ stack i → a ∈ stack j → i = j

namespace Stacks

variable {ι α : Type*}

instance : Membership α (Stacks ι α) := ⟨fun s a => ∃ i, a ∈ s.stack i⟩

/-- `a` is the top of stack `i`. -/
def Top (s : Stacks ι α) (i : ι) (a : α) : Prop := (s.stack i).head? = some a

/-- `a` lies directly on `b`. -/
def Above (s : Stacks ι α) (a b : α) : Prop := ∃ i, [a, b] <:+: s.stack i

/-- `a` has nothing below it. -/
def Bottom (s : Stacks ι α) (a : α) : Prop := ∃ i, (s.stack i).getLast? = some a

theorem mem_iff {s : Stacks ι α} {a : α} : a ∈ s ↔ ∃ i, a ∈ s.stack i := Iff.rfl

variable {s : Stacks ι α} {i j : ι} {a b c : α}

theorem Top.mem_stack (top : s.Top i a) : a ∈ s.stack i := List.mem_of_mem_head? top

theorem Top.mem (top : s.Top i a) : a ∈ s := ⟨i, top.mem_stack⟩

theorem Above.mem_left (above : s.Above a b) : a ∈ s := by
  obtain ⟨i, inside⟩ := above
  exact ⟨i, inside.subset (by simp)⟩

theorem Above.mem_right (above : s.Above a b) : b ∈ s := by
  obtain ⟨i, inside⟩ := above
  exact ⟨i, inside.subset (by simp)⟩

theorem Bottom.mem (bottom : s.Bottom a) : a ∈ s := by
  obtain ⟨i, last⟩ := bottom
  exact ⟨i, List.mem_of_getLast? last⟩

/-! ### Neighbours -/

theorem pair_infix_cons {l : List α} :
    [a, b] <:+: c :: l ↔ (a = c ∧ l.head? = some b) ∨ [a, b] <:+: l := by
  rw [List.infix_cons_iff, List.cons_prefix_cons]
  cases l with
  | nil => simp
  | cons x l => simp [List.cons_prefix_cons, @eq_comm α x]

/-- In a list without repetition only one element stands before another, and none
before the first. -/
theorem pair_infix_unique {l : List α} (nodup : l.Nodup) (one : [a, c] <:+: l)
    (two : [b, c] <:+: l) : a = b := by
  induction l with
  | nil => simp at one
  | cons x l ih =>
      obtain ⟨-, nodup'⟩ := List.nodup_cons.mp nodup
      rw [pair_infix_cons] at one two
      rcases one with ⟨rfl, first⟩ | one <;> rcases two with ⟨rfl, first'⟩ | two
      · rfl
      · exact absurd two (not_pair_infix_head nodup' first)
      · exact absurd one (not_pair_infix_head nodup' first')
      · exact ih nodup' one two
where
  not_pair_infix_head {l : List α} {a c : α} (nodup : l.Nodup) (first : l.head? = some c) :
      ¬ [a, c] <:+: l := by
    cases l with
    | nil => simp
    | cons x l =>
        obtain rfl : x = c := by simpa using first
        rw [pair_infix_cons]
        rintro (⟨-, second⟩ | later)
        · exact (List.nodup_cons.mp nodup).1 (List.mem_of_mem_head? second)
        · exact (List.nodup_cons.mp nodup).1 (later.subset (by simp))

/-- An element has at most one neighbour above it. -/
theorem Above.unique (one : s.Above a c) (two : s.Above b c) : a = b := by
  obtain ⟨i, one⟩ := one
  obtain ⟨j, two⟩ := two
  obtain rfl := s.apart i j c (one.subset (by simp)) (two.subset (by simp))
  exact pair_infix_unique (s.nodup i) one two

/-- The top has no neighbour above it. -/
theorem Top.not_above (top : s.Top i a) : ¬ s.Above b a := by
  rintro ⟨j, inside⟩
  obtain rfl := s.apart i j a top.mem_stack (inside.subset (by simp))
  exact pair_infix_unique.not_pair_infix_head (s.nodup i) top inside

/-- An element is a top or has a neighbour above it. -/
theorem top_or_above (mem : a ∈ s.stack i) : s.Top i a ∨ ∃ b, s.Above b a := by
  suffices h : ∀ l : List α, a ∈ l → l.head? = some a ∨ ∃ b, [b, a] <:+: l by
    exact (h _ mem).imp_right fun ⟨b, inside⟩ => ⟨b, i, inside⟩
  intro l
  induction l with
  | nil => simp
  | cons x l ih =>
      intro mem
      rcases List.mem_cons.mp mem with rfl | mem
      · exact .inl rfl
      · rcases ih mem with first | ⟨b, inside⟩
        · exact .inr ⟨x, pair_infix_cons.mpr (.inl ⟨rfl, first⟩)⟩
        · exact .inr ⟨b, pair_infix_cons.mpr (.inr inside)⟩

/-- What holds at the bottom of a stack and is passed upwards holds on all of it. -/
theorem bottom_induction {motive : α → Prop}
    (bottom : ∀ a ∈ s.stack i, s.Bottom a → motive a)
    (above : ∀ a b, a ∈ s.stack i → b ∈ s.stack i → s.Above a b → motive b → motive a) :
    ∀ a ∈ s.stack i, motive a := by
  suffices h : ∀ l, l <:+ s.stack i → ∀ a ∈ l, motive a from h _ List.suffix_rfl
  intro l
  induction l with
  | nil => simp
  | cons x l ih =>
      intro suffix_of a mem
      have tail_suffix : l <:+ s.stack i := (List.suffix_cons x l).trans suffix_of
      rcases List.mem_cons.mp mem with rfl | mem
      · have here := suffix_of.subset List.mem_cons_self
        cases l with
        | nil =>
            obtain ⟨front, eq⟩ := suffix_of
            exact bottom a here ⟨i, by simp [← eq]⟩
        | cons y l =>
            refine above a y here (tail_suffix.subset List.mem_cons_self) ⟨i, ?_⟩
              (ih tail_suffix y List.mem_cons_self)
            exact List.IsInfix.trans ⟨[], l, rfl⟩ suffix_of.isInfix
      · exact ih tail_suffix a mem

/-- An element is at the bottom or lies on another. -/
theorem bottom_or_above (mem : a ∈ s.stack i) : s.Bottom a ∨ ∃ b, s.Above a b :=
  bottom_induction (motive := fun a => s.Bottom a ∨ ∃ b, s.Above a b)
    (fun _ _ bottom => .inl bottom) (fun _ b _ _ above _ => .inr ⟨b, above⟩) a mem

/-! ### Operations -/

/-- Stacks with nothing on them. -/
def empty : Stacks ι α := ⟨fun _ => [], fun _ => List.nodup_nil, fun _ _ _ mem => nomatch mem⟩

theorem notMem_empty : a ∉ (empty : Stacks ι α) := fun ⟨_, mem⟩ => nomatch mem

section Operations

variable [DecidableEq ι]

/-- Put a fresh element on stack `i`. -/
def push (s : Stacks ι α) (i : ι) (a : α) (fresh : a ∉ s) : Stacks ι α where
  stack := Function.update s.stack i (a :: s.stack i)
  nodup j := by
    rcases eq_or_ne j i with rfl | ne
    · simpa using ⟨fun mem => fresh ⟨j, mem⟩, s.nodup j⟩
    · simpa [ne] using s.nodup j
  apart j k b := by
    have fresh' : ∀ j, a ∉ s.stack j := fun j mem => fresh ⟨j, mem⟩
    have apart := s.apart j k b
    simp only [Function.update_apply]
    grind

/-- Take the top off stack `i`. -/
def pop (s : Stacks ι α) (i : ι) : Stacks ι α where
  stack := Function.update s.stack i (s.stack i).tail
  nodup j := by
    rcases eq_or_ne j i with rfl | ne
    · simpa using (s.nodup j).tail
    · simpa [ne] using s.nodup j
  apart j k b := by
    have apart := s.apart j k b
    have sub := List.tail_subset (s.stack i)
    simp only [Function.update_apply]
    grind

variable {fresh : a ∉ s}

theorem stack_push_same : (s.push i a fresh).stack i = a :: s.stack i := by simp [push]

theorem stack_push_other (ne : j ≠ i) : (s.push i a fresh).stack j = s.stack j := by
  simp [push, ne]

theorem stack_pop_same : (s.pop i).stack i = (s.stack i).tail := by simp [pop]

theorem stack_pop_other (ne : j ≠ i) : (s.pop i).stack j = s.stack j := by simp [pop, ne]

theorem mem_push : b ∈ s.push i a fresh ↔ b = a ∨ b ∈ s := by
  constructor
  · rintro ⟨j, mem⟩
    rcases eq_or_ne j i with rfl | ne
    · rw [stack_push_same] at mem
      exact (List.mem_cons.mp mem).imp_right fun mem => ⟨j, mem⟩
    · rw [stack_push_other ne] at mem
      exact .inr ⟨j, mem⟩
  · rintro (rfl | ⟨j, mem⟩)
    · exact ⟨i, by simp [stack_push_same]⟩
    · rcases eq_or_ne j i with rfl | ne
      · exact ⟨j, by simp [stack_push_same, mem]⟩
      · exact ⟨j, by rwa [stack_push_other ne]⟩

theorem top_push_same : (s.push i a fresh).Top i b ↔ b = a := by
  simp [Top, stack_push_same, eq_comm]

theorem top_push_other (ne : j ≠ i) : (s.push i a fresh).Top j b ↔ s.Top j b := by
  simp [Top, stack_push_other ne]

theorem above_push : (s.push i a fresh).Above b c → (b = a ∧ s.Top i c) ∨ s.Above b c := by
  rintro ⟨j, inside⟩
  rcases eq_or_ne j i with rfl | ne
  · rw [stack_push_same, pair_infix_cons] at inside
    exact inside.imp_right fun inside => ⟨j, inside⟩
  · rw [stack_push_other ne] at inside
    exact .inr ⟨j, inside⟩

theorem bottom_push : (s.push i a fresh).Bottom b → (b = a ∧ s.stack i = []) ∨ s.Bottom b := by
  rintro ⟨j, last⟩
  rcases eq_or_ne j i with rfl | ne
  · rw [stack_push_same] at last
    cases rest : s.stack j with
    | nil =>
        rw [rest] at last
        exact .inl ⟨by simpa using last.symm, rfl⟩
    | cons x l =>
        rw [rest, List.getLast?_cons_cons] at last
        exact .inr ⟨j, by rw [rest, last]⟩
  · rw [stack_push_other ne] at last
    exact .inr ⟨j, last⟩

/-- Popping `a` removes `a` and nothing else. -/
theorem mem_pop (top : s.Top i a) : b ∈ s.pop i ↔ b ∈ s ∧ b ≠ a := by
  have head := top
  cases rest : s.stack i with
  | nil => simp [Top, rest] at head
  | cons x l =>
      obtain rfl : x = a := by simpa [Top, rest] using head
      have notin : x ∉ l := (List.nodup_cons.mp (rest ▸ s.nodup i)).1
      have only : ∀ j, x ∈ s.stack j → j = i := fun j mem => s.apart j i x mem top.mem_stack
      simp only [mem_iff, pop, Function.update_apply, rest, List.tail_cons]
      grind

theorem above_pop : (s.pop i).Above b c → s.Above b c := by
  rintro ⟨j, inside⟩
  refine ⟨j, inside.trans ?_⟩
  rcases eq_or_ne j i with rfl | ne
  · rw [stack_pop_same]
    exact (List.tail_suffix _).isInfix
  · rw [stack_pop_other ne]

theorem bottom_pop : (s.pop i).Bottom b → s.Bottom b := by
  rintro ⟨j, last⟩
  refine ⟨j, ?_⟩
  rcases eq_or_ne j i with rfl | ne
  · rw [stack_pop_same] at last
    cases rest : s.stack j with
    | nil => simp [rest] at last
    | cons x l =>
        rw [rest, List.tail_cons] at last
        cases l with
        | nil => simp at last
        | cons y l => rwa [List.getLast?_cons_cons]
  · rwa [stack_pop_other ne] at last

theorem top_pop_other (ne : j ≠ i) : (s.pop i).Top j b ↔ s.Top j b := by
  simp [Top, stack_pop_other ne]

theorem mem_stack_of_pop (mem : b ∈ (s.pop i).stack j) : b ∈ s.stack j := by
  rcases eq_or_ne j i with rfl | ne
  · rw [stack_pop_same] at mem
    exact List.mem_of_mem_tail mem
  · rwa [stack_pop_other ne] at mem

/-- Popping uncovers the element below the top. -/
theorem Top.top_pop (top : s.Top i a) (above : s.Above a b) : (s.pop i).Top i b := by
  obtain ⟨j, inside⟩ := above
  obtain rfl := s.apart i j a top.mem_stack (inside.subset (by simp))
  cases stack : s.stack i with
  | nil => simp [Top, stack] at top
  | cons x l =>
      obtain rfl : x = a := by simpa [Top, stack] using top
      rw [stack, pair_infix_cons] at inside
      rcases inside with ⟨-, first⟩ | later
      · rw [Top, stack_pop_same, stack]
        exact first
      · have twice := List.nodup_cons.mp (stack ▸ s.nodup i)
        exact absurd (later.subset (by simp)) twice.1

end Operations

end Stacks

end Linux391
