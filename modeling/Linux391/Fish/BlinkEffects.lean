import Linux391.Fish.BlinkList

/-!
What an event can do.

`Effect` lists it, for any state: a request is refused, or it inserts, unlinks or synchronises an
element; a tasklet that returns has come to the end of the list and has given each element on it
one turn. `step_effect` says that there is nothing else. What is shown and how long an element is on
both follow from it.

The off character in the effect of a sync is not a mistake here: the conditional move behind the
`testb` of `mp1_ioctl_sync` is never made (`not_and_one_neg`).
-/

namespace Linux391.Fish

open Chain (Linked)

/-! ### The screen -/

/-- Where on the screen. -/
def Blink.offset (blink : Blink) : Nat := blink.location.toNat * 2

/-- The character an element puts on the screen in its turn: none unless its time is up. -/
def Blink.due (blink : Blink) : Option UInt8 :=
  if 0 < (blink.countdown - 1).toInt16 then none
  else some (if blink.status &&& 1 = 0 then blink.onChar else blink.offChar)

def Blink.draw (video : Nat → UInt8) (blink : Blink) : Nat → UInt8 :=
  match blink.due with
  | none => video
  | some c => Function.update video blink.offset c

section

variable {st st' : State} {slots : List Slot} {e : Slot} {fuel : Nat}

theorem video_setLink (link p : Option Slot) : (st.setLink link p).video = st.video := by
  cases link <;> rfl

theorem video_taskletBody (st : State) (e : Slot) :
    (taskletBody st e).video = Blink.draw st.video (st.blinkArray e).toBlink := by
  by_cases time : 0 < ((st.blinkArray e).countdown - 1).toInt16
  · simp only [taskletBody, Blink.draw, Blink.due, if_pos time]
    rfl
  · by_cases off : (st.blinkArray e).status &&& 1 = 0
    · simp only [taskletBody, Blink.draw, Blink.due, if_neg time, if_pos off]
      rfl
    · simp only [taskletBody, Blink.draw, Blink.due, if_neg time, if_neg off]
      rfl

theorem video_taskletLoop {p : Option Slot} (linked : Linked st.next p slots)
    (returned : taskletLoop fuel p st = some st') :
    st'.video = (st.blinks slots).foldl Blink.draw st.video := by
  induction slots generalizing st p fuel with
  | nil =>
      obtain rfl : p = none := linked
      cases fuel with
      | zero => cases returned
      | succ fuel =>
          obtain rfl : st = st' := Option.some.inj returned
          rfl
  | cons e slots ih =>
      have fresh := (List.nodup_cons.mp linked.nodup).1
      obtain ⟨rfl, rest⟩ := linked
      cases fuel with
      | zero => cases returned
      | succ fuel =>
          have onward : Linked (taskletBody st e).next ((taskletBody st e).next e) slots := by
            rw [next_taskletBody]
            exact rest
          have others : (taskletBody st e).blinks slots = st.blinks slots := by
            refine List.map_congr_left fun i mem => ?_
            rw [blinkArray_taskletBody, Function.update_of_ne (ne_of_mem_of_not_mem mem fresh)]
          rw [ih onward returned, others, video_taskletBody]
          rfl

/-- After `testb $0x1` the sign flag is clear: the `cmovl` of a sync is never made. -/
theorem not_and_one_neg (status : UInt8) : ¬ (status &&& 1).toInt8 < 0 := by
  have bit : (status &&& 1).toNat = status.toNat % 2 := by
    rw [UInt8.toNat_and]
    exact Nat.and_one_is_mod _
  rcases Nat.mod_two_eq_zero_or_one status.toNat with zero | one
  · have cleared : status &&& 1 = 0 := UInt8.toNat_inj.mp (bit.trans zero)
    rw [cleared]
    decide
  · have set : status &&& 1 = 1 := UInt8.toNat_inj.mp (bit.trans one)
    rw [set]
    decide

/-! ### Effects -/

/-- A tasklet that returns has come to the end of the list. -/
theorem linked_of_taskletLoop {p : Option Slot} (returned : taskletLoop fuel p st = some st') :
    ∃ slots, Linked st.next p slots ∧ slots.length < fuel := by
  induction fuel generalizing st p with
  | zero => cases returned
  | succ fuel ih =>
      cases p with
      | none => exact ⟨[], rfl, Nat.succ_pos fuel⟩
      | some e =>
          obtain ⟨slots, linked, length⟩ := ih returned
          rw [next_taskletBody] at linked
          exact ⟨e :: slots, ⟨rfl, linked⟩, Nat.succ_lt_succ length⟩

/-- Why a request changes nothing. -/
def Refuses (fuel : Nat) (st : State) : Request → Prop
  | .add user => places ≤ user.location.toNat ∨ mp1Malloc st = none
  | .remove arg => mp1FindHelper fuel st arg = some none
  | .find _ => True
  | .sync arg => mp1FindHelper fuel st (arg >>> 16) = some none ∨
      mp1FindHelper fuel st (arg &&& 0xFFFF) = some none

/-- What an event can do. -/
inductive Effect (fuel : Nat) (st : State) : Event → State → Prop
  | refused {request : Request} (reason : Refuses fuel st request) :
      Effect fuel st (.ioctl request) st
  | inserted {user : Mp1BlinkStruct UInt32} {i : Slot} (accepted : user.location.toNat < places)
      (free : mp1Malloc st = some i) :
      Effect fuel st (.ioctl (.add user)) (insertFront st i user.toBlink.started)
  | unlinked {arg : UInt32} {i : Slot} {link : Option Slot}
      (found : mp1FindHelper fuel st arg = some (some i))
      (before : Chain.linkTo st.next st.mp1ListHead i fuel none = some link) :
      Effect fuel st (.ioctl (.remove arg)) (mp1Free (st.setLink link (st.next i)) i)
  | synced {arg : UInt32} {source i : Slot}
      (first : mp1FindHelper fuel st (arg >>> 16) = some (some source))
      (second : mp1FindHelper fuel st (arg &&& 0xFFFF) = some (some i)) :
      Effect fuel st (.ioctl (.sync arg))
        (mp1Poke (st.blinkArray i).offChar (st.blinkArray i).offset (st.store i
          { (st.blinkArray i).synced (st.blinkArray source).toBlink with next := st.next i }))
  | turned {slots : List Slot} {st' : State} (linked : Linked st.next st.mp1ListHead slots)
      (head : st'.mp1ListHead = st.mp1ListHead)
      (array : ∀ i, st'.blinkArray i =
        if i ∈ slots then ticked (st.blinkArray i) else st.blinkArray i)
      (video : st'.video = (st.blinks slots).foldl Blink.draw st.video) :
      Effect fuel st .tasklet st'

theorem effect_add (user : Mp1BlinkStruct UInt32) :
    Effect fuel st (.ioctl (.add user)) (mp1IoctlAdd st user).2 := by
  unfold mp1IoctlAdd
  split_ifs with outside
  · exact .refused (.inl outside)
  · cases free : mp1Malloc st with
    | none => exact .refused (.inr free)
    | some e => exact .inserted (Nat.lt_of_not_le outside) free

theorem effect_remove {arg : UInt32} {value : Int}
    (returned : mp1IoctlRemove fuel st arg = some (value, st')) :
    Effect fuel st (.ioctl (.remove arg)) st' := by
  unfold mp1IoctlRemove at returned
  obtain ⟨found, search, returned⟩ := Option.bind_eq_some_iff.mp returned
  cases found with
  | none =>
      cases returned
      exact .refused search
  | some e =>
      obtain ⟨link, before, returned⟩ := Option.bind_eq_some_iff.mp returned
      cases returned
      exact .unlinked search before

theorem effect_sync {arg : UInt32} {value : Int}
    (returned : mp1IoctlSync fuel st arg = some (value, st')) :
    Effect fuel st (.ioctl (.sync arg)) st' := by
  unfold mp1IoctlSync at returned
  obtain ⟨source, first, returned⟩ := Option.bind_eq_some_iff.mp returned
  cases source with
  | none =>
      cases returned
      exact .refused (.inl first)
  | some s =>
      obtain ⟨target, second, returned⟩ := Option.bind_eq_some_iff.mp returned
      cases target with
      | none =>
          cases returned
          exact .refused (.inr second)
      | some e =>
          simp only [not_and_one_neg, if_false] at returned
          cases returned
          exact .synced first second

theorem effect_tasklet (returned : mp1RtcTasklet fuel st = some st') :
    Effect fuel st .tasklet st' := by
  obtain ⟨slots, linked, length⟩ := linked_of_taskletLoop returned
  obtain ⟨st'', returned', head, array⟩ := taskletLoop_eq linked linked.nodup length
  obtain rfl : st' = st'' := Option.some.inj (returned.symm.trans returned')
  exact .turned linked head array (video_taskletLoop linked returned)

theorem step_effect {event : Event} (stepped : step fuel st event = some st') :
    Effect fuel st event st' := by
  match event with
  | .ioctl (.add user) =>
      obtain rfl := Option.some.inj stepped
      exact effect_add user
  | .ioctl (.remove arg) =>
      obtain ⟨⟨value, _⟩, returned, rfl⟩ := Option.map_eq_some_iff.mp stepped
      exact effect_remove returned
  | .ioctl (.find location) =>
      obtain ⟨_, returned, rfl⟩ := Option.map_eq_some_iff.mp stepped
      obtain ⟨_, -, rfl⟩ := Option.map_eq_some_iff.mp returned
      exact .refused trivial
  | .ioctl (.sync arg) =>
      obtain ⟨⟨value, _⟩, returned, rfl⟩ := Option.map_eq_some_iff.mp stepped
      exact effect_sync returned
  | .tasklet => exact effect_tasklet stepped

end

end Linux391.Fish
