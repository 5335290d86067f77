import Mathlib.Data.List.Nodup
import Mathlib.Logic.Function.Basic

/-!
Singly linked lists in a store.

A store of cells is seen through its links only: `next i` is the pointer in cell `i`, `none` the null
pointer. `Path next p l q` says that `l` is what one meets on the way from the pointer `p` to the
pointer `q`, and `Linked next p l` that the way ends there.

Two walks are given as the loops one writes: `findFrom` looks for a cell, `linkTo` for the link that
points to a given cell, where a link is the head (`none`) or the one in a cell. Both take fuel, and
`none` is their answer when they do not return. On a linked list they do (`findFrom_eq`,
`linkTo_eq`), and storing the successor in the link found takes the cell out (`Linked.unlink`).
-/

namespace Linux391.Chain

variable {ι : Type*} {next next' : ι → Option ι} {p q : Option ι} {l front back : List ι} {i e : ι}

def Path (next : ι → Option ι) : Option ι → List ι → Option ι → Prop
  | p, [], q => p = q
  | p, i :: l, q => p = some i ∧ Path next (next i) l q

def Linked (next : ι → Option ι) (p : Option ι) (l : List ι) : Prop := Path next p l none

/-! ### Paths -/

theorem path_append :
    Path next p (front ++ back) q ↔ ∃ r, Path next p front r ∧ Path next r back q := by
  induction front generalizing p with
  | nil => simp [Path]
  | cons i front ih => simp [Path, ih, and_assoc]

/-- A path through `e` is one to `e` and one from its successor. -/
theorem path_through :
    Path next p (front ++ e :: back) q ↔
      Path next p front (some e) ∧ Path next (next e) back q := by
  rw [path_append]
  constructor
  · rintro ⟨r, before, rfl, after⟩
    exact ⟨before, after⟩
  · rintro ⟨before, after⟩
    exact ⟨some e, before, rfl, after⟩

/-- Only the links of the cells on a path matter for it. -/
theorem Path.congr (path : Path next p l q) (same : ∀ i ∈ l, next' i = next i) :
    Path next' p l q := by
  induction l generalizing p with
  | nil => exact path
  | cons i l ih =>
      obtain ⟨here, rest⟩ := path
      refine ⟨here, ?_⟩
      rw [same i List.mem_cons_self]
      exact ih rest fun j mem => same j (List.mem_cons_of_mem i mem)

theorem Linked.unique {l' : List ι} (one : Linked next p l) (other : Linked next p l') : l = l' := by
  induction l generalizing p l' with
  | nil =>
      obtain rfl : p = none := one
      cases l' with
      | nil => rfl
      | cons j l' => exact absurd other.1 (Option.some_ne_none j).symm
  | cons i l ih =>
      obtain ⟨rfl, rest⟩ := one
      cases l' with
      | nil => exact absurd other (Option.some_ne_none i)
      | cons j l' =>
          obtain ⟨same, rest'⟩ := other
          obtain rfl := Option.some.inj same
          rw [ih rest rest']

/-- A list that ends meets no cell twice: the way from a cell is the same each time. -/
theorem Linked.nodup (linked : Linked next p l) : l.Nodup := by
  induction l generalizing p with
  | nil => exact List.nodup_nil
  | cons i l ih =>
      obtain ⟨-, rest⟩ := linked
      refine List.nodup_cons.mpr ⟨fun mem => ?_, ih rest⟩
      obtain ⟨front, back, rfl⟩ := List.append_of_mem mem
      have length := congrArg List.length (Linked.unique rest (path_through.mp rest).2)
      simp at length
      omega

/-- A cell that points to itself is on no list that ends. -/
theorem not_linked_of_loop (loop : next i = some i) : ¬ Linked next (some i) l := by
  intro linked
  cases l with
  | nil => exact Option.some_ne_none i linked
  | cons j l =>
      obtain ⟨same, rest⟩ := linked
      obtain rfl := Option.some.inj same
      have whole : Linked next (some i) (i :: l) := ⟨rfl, rest⟩
      have shorter : Linked next (some i) l := by
        rw [← loop]
        exact rest
      have length := congrArg List.length (whole.unique shorter)
      simp at length

/-! ### Looking for a cell -/

/-- Follow the links from `p` to the first cell with `hit`, or to the end. -/
def findFrom (next : ι → Option ι) (hit : ι → Bool) : Nat → Option ι → Option (Option ι)
  | 0, _ => none
  | _ + 1, none => some none
  | fuel + 1, some i => if hit i then some (some i) else findFrom next hit fuel (next i)

theorem findFrom_eq {hit : ι → Bool} {fuel : Nat} (linked : Linked next p l)
    (large : l.length < fuel) : findFrom next hit fuel p = some (l.find? hit) := by
  induction l generalizing p fuel with
  | nil =>
      obtain rfl : p = none := linked
      obtain ⟨fuel, rfl⟩ := Nat.exists_eq_add_one.mpr large
      rfl
  | cons i l ih =>
      obtain ⟨rfl, rest⟩ := linked
      rw [List.length_cons] at large
      obtain ⟨fuel, rfl⟩ := Nat.exists_eq_add_one.mpr (Nat.zero_lt_of_lt large)
      rw [findFrom, List.find?_cons]
      cases hit i with
      | true => rfl
      | false => exact ih rest (Nat.lt_of_succ_lt_succ large)

theorem findFrom_loop {hit : ι → Bool} (loop : next i = some i) (miss : hit i = false) (fuel : Nat) :
    findFrom next hit fuel (some i) = none := by
  induction fuel with
  | zero => rfl
  | succ fuel ih => simp [findFrom, miss, loop, ih]

/-! ### Taking a cell out -/

/-- What a link holds. -/
def target (next : ι → Option ι) (head : Option ι) (link : Option ι) : Option ι := link.elim head next

/-- Follow the links to the one that points to `e`. There is no test for the end: behind it the walk
has left the store. -/
def linkTo [DecidableEq ι] (next : ι → Option ι) (head : Option ι) (e : ι) :
    Nat → Option ι → Option (Option ι)
  | 0, _ => none
  | fuel + 1, link =>
      if target next head link = some e then some link
      else match target next head link with
        | none => none
        | some i => linkTo next head e fuel (some i)

/-- The link found is the one in the last cell before `e`. -/
theorem linkTo_eq [DecidableEq ι] {head link : Option ι} {fuel : Nat}
    (path : Path next (target next head link) front (some e)) (first : e ∉ front)
    (large : front.length < fuel) :
    linkTo next head e fuel link = some (front.getLast?.or link) := by
  induction front generalizing link fuel with
  | nil =>
      obtain ⟨fuel, rfl⟩ := Nat.exists_eq_add_one.mpr large
      exact if_pos path
  | cons i front ih =>
      obtain ⟨here, rest⟩ := path
      rw [List.length_cons] at large
      obtain ⟨fuel, rfl⟩ := Nat.exists_eq_add_one.mpr (Nat.zero_lt_of_lt large)
      have differs : some i ≠ some e := fun same =>
        first (Option.some.inj same ▸ List.mem_cons_self)
      have onward : Path next (target next head (some i)) front (some e) := rest
      have later := ih onward (fun mem => first (List.mem_cons_of_mem i mem))
        (Nat.lt_of_succ_lt_succ large)
      simp only [linkTo, here, if_neg differs, later, List.getLast?_cons]
      cases front.getLast? <;> rfl

/-- The links after a store to `link`. -/
def setNext [DecidableEq ι] (link p : Option ι) (next : ι → Option ι) : ι → Option ι :=
  link.elim next fun i => Function.update next i p

/-- The head after a store to `link`. -/
def setHead (link p head : Option ι) : Option ι := link.elim p fun _ => head

/-- Storing the successor of `e` in the link to `e` takes `e` out. -/
theorem Linked.unlink [DecidableEq ι] {head : Option ι}
    (linked : Linked next head (front ++ e :: back)) (nodup : (front ++ e :: back).Nodup) :
    Linked (setNext front.getLast? (next e) next) (setHead front.getLast? (next e) head)
      (front ++ back) := by
  rcases List.eq_nil_or_concat' front with rfl | ⟨init, i, rfl⟩
  · exact (path_through.mp linked).2
  · obtain ⟨before, after⟩ := path_through.mp linked
    obtain ⟨before, -⟩ := path_through.mp before
    have apart : i ∉ init ∧ i ∉ back := by
      simp only [List.append_assoc, List.singleton_append, List.nodup_append, List.nodup_cons,
        List.mem_cons, not_or] at nodup
      exact ⟨fun mem => nodup.2.2 i mem i (.inl rfl) rfl, nodup.2.1.1.2⟩
    have elsewhere : ∀ j, j ≠ i → Function.update next i (next e) j = next j := fun j differs =>
      Function.update_of_ne differs _ _
    rw [List.getLast?_concat, List.append_assoc]
    refine path_through.mpr ⟨before.congr fun j mem => elsewhere j ?_, ?_⟩
    · exact fun same => apart.1 (same ▸ mem)
    · rw [setNext, Option.elim_some, Function.update_self]
      exact after.congr fun j mem => elsewhere j fun same => apart.2 (same ▸ mem)

end Linux391.Chain
