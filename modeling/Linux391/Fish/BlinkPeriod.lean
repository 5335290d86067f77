import Linux391.Fish.BlinkEffects
import Linux391.Library.Alternator

/-!
How long a blinking character is on and off.

An element alone is a counter with two phases: `Blink.counter` takes its fields to one, and a turn of
the element to a step of the counter, whatever the fields are. The time of a phase is not always its
length. The tasklet compares what is left as a signed number, so a length above 32768 looks negative
after the first turn and the phase is over at once (`turns`).

The other elements do not matter. Along any run an element that stays gets one turn from each tasklet
and is left alone by every request (`run_element`). It stays if it is neither synced nor removed, as
long as the list is intact (`stays_of_threads`); a list with an element at location 0 can lose
others as well. `blink_period_iff` gathers both.
-/

namespace Linux391.Fish

open Chain (Linked)

/-! ### The phases of one element -/

/-- How many turns a phase takes that starts with this count. -/
def turns (countdown : UInt16) : Nat :=
  if 0 < (countdown - 1).toInt16 then countdown.toNat else 1

/-- The decremented count is positive as a signed number. -/
theorem countdown_pos_iff (countdown : UInt16) :
    0 < (countdown - 1).toInt16 ↔ 2 ≤ countdown.toNat ∧ countdown.toNat ≤ 32768 := by
  have bound := countdown.toNat_lt
  have less : (countdown - 1).toNat = (2 ^ 16 - 1 + countdown.toNat) % 2 ^ 16 :=
    UInt16.toNat_sub countdown 1
  have signed : (countdown - 1).toInt16.toInt =
      if 2 * (countdown - 1).toNat < 2 ^ 16 then ((countdown - 1).toNat : Int)
      else (countdown - 1).toNat - (2 ^ 16 : Nat) := BitVec.toInt_eq_toNat_cond _
  have zero : (0 : Int16).toInt = 0 := rfl
  rw [Int16.lt_iff_toInt_lt, signed, zero, less]
  split_ifs <;> omega

theorem toNat_countdown_sub_one {countdown : UInt16} (pos : 1 ≤ countdown.toNat) :
    (countdown - 1).toNat = countdown.toNat - 1 :=
  UInt16.toNat_sub_of_le countdown 1 (UInt16.le_iff_toNat_le.mpr pos)

theorem turns_pos (countdown : UInt16) : 0 < turns countdown := by
  rw [turns]
  split_ifs with more
  · exact Nat.zero_lt_of_lt ((countdown_pos_iff countdown).mp more).1
  · exact Nat.one_pos

theorem turns_le {countdown : UInt16} (pos : 1 ≤ countdown.toNat) :
    turns countdown ≤ countdown.toNat := by
  rw [turns]
  split_ifs
  · exact Nat.le_refl _
  · exact pos

theorem turns_eq_iff {countdown : UInt16} (pos : 1 ≤ countdown.toNat) :
    turns countdown = countdown.toNat ↔ countdown.toNat ≤ 32768 := by
  rw [turns]
  split_ifs with more
  · exact iff_of_true rfl ((countdown_pos_iff countdown).mp more).2
  · rw [countdown_pos_iff] at more
    omega

/-- The counter an element is. -/
def Blink.counter (blink : Blink) : Alternator where
  onTurns := turns blink.onLength
  offTurns := turns blink.offLength
  on := blink.status &&& 1 = 1
  left := turns blink.countdown

theorem counter_started (blink : Blink) :
    blink.started.counter = .start (turns blink.onLength) (turns blink.offLength) := by
  have on : decide ((1 : UInt16) &&& 1 = 1) = true := by decide
  exact congrArg (Alternator.mk (turns blink.onLength) (turns blink.offLength) · _) on

theorem counter_tick : Function.Semiconj Blink.counter Blink.tick Alternator.step := by
  intro blink
  by_cases time : 0 < (blink.countdown - 1).toInt16
  · have more := (countdown_pos_iff _).mp time
    have left : turns blink.countdown = blink.countdown.toNat := if_pos time
    have next : turns (blink.countdown - 1) = blink.countdown.toNat - 1 := by
      have less := toNat_countdown_sub_one (Nat.le_of_succ_le more.1)
      rw [← less, turns_eq_iff (by omega)]
      omega
    have many : 1 < blink.counter.left := by
      rw [Blink.counter, left]
      exact more.1
    rw [Blink.tick, if_pos time, Alternator.step, if_pos many]
    simp only [Blink.counter, left, next]
  · have left : turns blink.countdown = 1 := if_neg time
    have few : ¬ 1 < blink.counter.left := by
      rw [Blink.counter, left]
      exact Nat.lt_irrefl 1
    rw [Blink.tick, if_neg time, Alternator.step, if_neg few]
    by_cases off : blink.status &&& 1 = 0
    · rw [if_pos off]
      rw [and_one_eq_zero_iff] at off
      simp [Blink.counter, xor_one_and_one_iff, off]
    · rw [if_neg off]
      rw [and_one_eq_zero_iff, not_not] at off
      simp [Blink.counter, xor_one_and_one_iff, off]

/-- The phase of a new element after `k` turns. -/
theorem status_iterate_tick_started (blink : Blink) (k : Nat) :
    (Blink.tick^[k] blink.started).status &&& 1 = 1 ↔
      k % (turns blink.onLength + turns blink.offLength) < turns blink.onLength := by
  have phase := Alternator.on_iterate_start (turns_pos blink.onLength) (turns_pos blink.offLength) k
  rw [← counter_started, ← counter_tick.iterate_right k blink.started] at phase
  exact decide_eq_true_iff.symm.trans phase

theorem location_iterate_tick (blink : Blink) (k : Nat) :
    (Blink.tick^[k] blink).location = blink.location := by
  induction k with
  | zero => rfl
  | succ k ih => rw [Function.iterate_succ_apply', location_tick, ih]

/-- A new element keeps to its lengths exactly if they are not negative as signed numbers after the
first turn. -/
theorem phases_iff {blink : Blink} (on : 1 ≤ blink.onLength.toNat) (off : 1 ≤ blink.offLength.toNat) :
    (∀ k, (Blink.tick^[k] blink.started).status &&& 1 = 1 ↔
      k % (blink.onLength.toNat + blink.offLength.toNat) < blink.onLength.toNat) ↔
      blink.onLength.toNat ≤ 32768 ∧ blink.offLength.toNat ≤ 32768 := by
  simp only [status_iterate_tick_started]
  rw [Alternator.same_phases_iff (turns_pos _) (turns_pos _) (turns_le on) (turns_le off),
    turns_eq_iff on, turns_eq_iff off]

/-! ### One element of many -/

section

variable {st st' : State} {slots slots' : List Slot} {e : Slot} {fuel : Nat}

/-- The event removes the element in `e`, or gives it the phase of another. -/
def Disturbs (fuel : Nat) (st : State) (e : Slot) : Event → Prop
  | .ioctl (.remove arg) => mp1FindHelper fuel st arg = some (some e)
  | .ioctl (.sync arg) => (∃ source, mp1FindHelper fuel st (arg >>> 16) = some (some source)) ∧
      mp1FindHelper fuel st (arg &&& 0xFFFF) = some (some e)
  | _ => False

/-- The slot `e` is given to another element, or the tasklet does not come to it. With an intact list
neither happens to an element that has not been removed. -/
def Loses (st : State) (e : Slot) : Event → Prop
  | .ioctl (.add user) => user.location.toNat < places ∧ mp1Malloc st = some e
  | .ioctl _ => False
  | .tasklet => ∃ slots, Linked st.next st.mp1ListHead slots ∧ e ∉ slots

/-- What an event does to an element it does not disturb. -/
def Event.turn : Event → Blink → Blink
  | .tasklet => Blink.tick
  | .ioctl _ => id

def Event.isTasklet : Event → Bool
  | .tasklet => true
  | .ioctl _ => false

/-- An event gives an element of the list its turn. -/
theorem Effect.element {event : Event} (effect : Effect fuel st event st')
    (spared : ¬ Disturbs fuel st e event) (kept : ¬ Loses st e event) :
    (st'.blinkArray e).toBlink = event.turn (st.blinkArray e).toBlink := by
  cases effect with
  | refused reason => rfl
  | @inserted user i accepted free =>
      have differs : e ≠ i := fun same => kept ⟨accepted, same ▸ free⟩
      rw [blinkArray_insertFront_of_ne differs]
      rfl
  | @unlinked arg i link found before =>
      have differs : e ≠ i := fun same => spared (same ▸ found)
      rw [toBlink_mp1Free_of_ne differs, toBlink_setLink]
      rfl
  | @synced arg source i first second =>
      have differs : e ≠ i := fun same => spared ⟨⟨source, first⟩, same ▸ second⟩
      simp [mp1Poke, State.store, differs, Event.turn]
  | @turned slots _ linked head array video =>
      have inside : e ∈ slots := Classical.byContradiction fun out => kept ⟨slots, linked, out⟩
      rw [array e, if_pos inside]
      rfl

end

/-! ### Runs -/

section

variable {fuel : Nat} {st st' : State} {slots : List Slot} {e : Slot} {front events : List Event}

/-- Every event of a run meets a state with which it has the property. -/
def Along (fuel : Nat) (st : State) (events : List Event) (holds : State → Event → Prop) : Prop :=
  ∀ front event st', front ++ [event] <+: events → run fuel st front = some st' → holds st' event

theorem Along.restrict {holds : State → Event → Prop} (along : Along fuel st events holds)
    (before : front <+: events) : Along fuel st front holds :=
  fun init event st' inside => along init event st' (inside.trans before)

theorem Along.concat {holds : State → Event → Prop} {event : Event}
    (along : Along fuel st front holds)
    (last : ∀ mid, run fuel st front = some mid → holds mid event) :
    Along fuel st (front ++ [event]) holds := by
  intro init event' mid inside returned
  rcases List.prefix_concat_iff.mp inside with whole | before
  · obtain ⟨rfl, same⟩ := List.append_inj' whole rfl
    obtain rfl := List.singleton_inj.mp same
    exact last mid returned
  · exact along init event' mid before returned

/-- The element in `e` is neither removed nor synced, and not lost either. -/
def Stays (fuel : Nat) (st : State) (e : Slot) (events : List Event) : Prop :=
  Along fuel st events fun st event => ¬ Disturbs fuel st e event ∧ ¬ Loses st e event

def ticks (events : List Event) : Nat := events.countP Event.isTasklet

theorem iterate_ticks_concat (front : List Event) (event : Event) (blink : Blink) :
    Blink.tick^[ticks (front ++ [event])] blink = event.turn (Blink.tick^[ticks front] blink) := by
  rw [ticks, List.countP_append]
  cases event with
  | tasklet => exact Function.iterate_succ_apply' Blink.tick _ blink
  | ioctl request => rfl

theorem of_run_concat {event : Event} (returned : run fuel st (front ++ [event]) = some st') :
    ∃ mid, run fuel st front = some mid ∧ step fuel mid event = some st' := by
  have early := returned
  rw [run_append] at early
  obtain ⟨mid, before, -⟩ := Option.bind_eq_some_iff.mp early
  exact ⟨mid, before, run_concat before event ▸ returned⟩

/-- Of a run an element that stays sees the tasklets only. -/
theorem run_element (returned : run fuel st events = some st') (stays : Stays fuel st e events) :
    (st'.blinkArray e).toBlink = Blink.tick^[ticks events] (st.blinkArray e).toBlink := by
  induction events using List.reverseRecOn generalizing st' with
  | nil =>
      obtain rfl := Option.some.inj returned
      rfl
  | append_singleton front event ih =>
      obtain ⟨mid, before, stepped⟩ := of_run_concat returned
      obtain ⟨spared, kept⟩ := stays front event mid List.prefix_rfl before
      rw [(step_effect stepped).element spared kept,
        ih before (stays.restrict (List.prefix_append front [event])), iterate_ticks_concat]

/-- The tasklet by itself, any number of times. -/
theorem run_tasklets (linked : Linked st.next st.mp1ListHead slots) (large : places < fuel)
    (k : Nat) :
    ∃ st', run fuel st (List.replicate k .tasklet) = some st' ∧
      Linked st'.next st'.mp1ListHead slots := by
  induction k with
  | zero => exact ⟨st, rfl, linked⟩
  | succ k ih =>
      obtain ⟨st', returned, linked'⟩ := ih
      have short := Nat.lt_of_le_of_lt (length_le_of_nodup linked'.nodup) large
      obtain ⟨st'', returned', head, array⟩ := taskletLoop_eq linked' linked'.nodup short
      refine ⟨st'', ?_, ?_⟩
      · rw [List.replicate_succ', run_concat returned]
        exact returned'
      · rw [next_of_ticked array, head]
        exact linked'

theorem ticks_replicate (k : Nat) : ticks (List.replicate k .tasklet) = k := by
  rw [ticks, List.countP_replicate]
  rfl

theorem stays_tasklets (linked : Linked st.next st.mp1ListHead slots) (inside : e ∈ slots)
    (large : places < fuel) (k : Nat) : Stays fuel st e (List.replicate k .tasklet) := by
  intro front event mid before returned
  have only : ∀ x ∈ front ++ [event], x = .tasklet := fun x mem =>
    List.eq_of_mem_replicate (before.subset mem)
  obtain rfl : event = .tasklet := only event (by simp)
  have whole : front = List.replicate front.length .tasklet :=
    List.eq_replicate_of_mem fun x mem => only x (List.mem_append_left _ mem)
  obtain ⟨mid', returned', linked'⟩ := run_tasklets linked large front.length
  rw [← whole] at returned'
  obtain rfl : mid = mid' := Option.some.inj (returned.symm.trans returned')
  refine ⟨not_false, ?_⟩
  rintro ⟨slots', other, out⟩
  exact out (other.unique linked' ▸ inside)

theorem Threads.run {mid : State} (threads : Threads st slots) (large : places < fuel)
    (nonzero : ∀ user, .ioctl (.add user) ∈ events → user.location ≠ 0)
    (returned : Fish.run fuel st events = some mid) : ∃ slots', Threads mid slots' := by
  induction events using List.reverseRecOn generalizing mid with
  | nil =>
      obtain rfl := Option.some.inj returned
      exact ⟨slots, threads⟩
  | append_singleton front event ih =>
      obtain ⟨st', before, stepped⟩ := of_run_concat returned
      obtain ⟨slots', threads'⟩ :=
        ih (fun user mem => nonzero user (List.mem_append_left _ mem)) before
      obtain ⟨st'', slots'', stepped', threads'', -⟩ := threads'.step large event fun user add zero =>
        absurd zero (nonzero user (by simp [add]))
      obtain rfl : mid = st'' := Option.some.inj (stepped.symm.trans stepped')
      exact ⟨slots'', threads''⟩

/-- On an intact list, and if nothing is added at location 0, an element is not lost. -/
theorem stays_of_threads (threads : Threads st slots) (inside : e ∈ slots) (large : places < fuel)
    (nonzero : ∀ user, .ioctl (.add user) ∈ events → user.location ≠ 0)
    (spared : Along fuel st events fun st event => ¬ Disturbs fuel st e event) :
    Stays fuel st e events := by
  induction events using List.reverseRecOn with
  | nil => exact fun front event st' inside => absurd (List.prefix_nil.mp inside) (by simp)
  | append_singleton front event ih =>
      have adds : ∀ user, .ioctl (.add user) ∈ front → user.location ≠ 0 := fun user mem =>
        nonzero user (List.mem_append_left _ mem)
      have stays := ih adds (spared.restrict (List.prefix_append front [event]))
      refine Along.concat stays fun mid before => ?_
      refine ⟨spared front event mid List.prefix_rfl before, ?_⟩
      -- the slot of the element keeps its location, so it is taken, and in the list
      obtain ⟨slots', threads'⟩ := threads.run large adds before
      have place : (mid.blinkArray e).location = (st.blinkArray e).location := by
        rw [run_element before stays, location_iterate_tick]
      have inside' : e ∈ slots' := by
        rw [threads'.allocated, place, ← threads.allocated]
        exact inside
      match event with
      | .ioctl (.add user) => exact fun lost => threads'.malloc_fresh lost.2 inside'
      | .tasklet =>
          rintro ⟨slots'', linked, out⟩
          exact out (linked.unique threads'.linked ▸ inside')
      | .ioctl (.remove _) | .ioctl (.find _) | .ioctl (.sync _) => exact not_false

end

/-- **A new element is on after `k` turns exactly if `k` modulo both lengths is below the first**,
provided neither length is above 32768, and not otherwise: with nothing but tasklets after it was
added, and with any other events between them as long as it stays. On an intact list, with nothing
added at location 0, an element stays that is neither synced nor removed. -/
theorem blink_period_iff {st₀ st : State} {user : Mp1BlinkStruct UInt32} {e : Slot}
    {slots : List Slot} {fuel : Nat} (large : places < fuel)
    (added : mp1IoctlAdd st₀ user = (0, st)) (slot : mp1Malloc st₀ = some e)
    (linked : Linked st.next st.mp1ListHead slots)
    (on : 1 ≤ user.onLength.toNat) (off : 1 ≤ user.offLength.toNat) :
    ((∀ k, ∃ st', run fuel st (List.replicate k .tasklet) = some st' ∧
        ((st'.blinkArray e).status &&& 1 = 1 ↔
          k % (user.onLength.toNat + user.offLength.toNat) < user.onLength.toNat)) ↔
      user.onLength.toNat ≤ 32768 ∧ user.offLength.toNat ≤ 32768) ∧
    ((∀ events st', run fuel st events = some st' → Stays fuel st e events →
        ((st'.blinkArray e).status &&& 1 = 1 ↔
          ticks events % (user.onLength.toNat + user.offLength.toNat) < user.onLength.toNat)) ↔
      user.onLength.toNat ≤ 32768 ∧ user.offLength.toNat ≤ 32768) ∧
    (Threads st slots → ∀ events, (∀ other, .ioctl (.add other) ∈ events → other.location ≠ 0) →
      (Along fuel st events fun st event => ¬ Disturbs fuel st e event) →
        Stays fuel st e events) := by
  obtain rfl : insertFront st₀ e user.toBlink.started = st := by
    obtain ⟨i, free, eq⟩ := mp1IoctlAdd_of_success (congrArg Prod.fst added)
    obtain rfl : e = i := Option.some.inj (slot.symm.trans free)
    rw [← eq, added]
  have inside : e ∈ slots := by
    cases slots with
    | nil => exact absurd linked (Option.some_ne_none e)
    | cons i slots => exact Option.some.inj linked.1 ▸ List.mem_cons_self
  have new : ((insertFront st₀ e user.toBlink.started).blinkArray e).toBlink =
      user.toBlink.started := by rw [blinkArray_insertFront_self]
  have phase {events : List Event} {st' : State}
      (returned : run fuel (insertFront st₀ e user.toBlink.started) events = some st')
      (stays : Stays fuel (insertFront st₀ e user.toBlink.started) e events) :
      (st'.blinkArray e).status = (Blink.tick^[ticks events] user.toBlink.started).status := by
    rw [run_element returned stays, new]
  have alone {k : Nat} {st' : State} (returned : run fuel (insertFront st₀ e user.toBlink.started)
      (List.replicate k .tasklet) = some st') :
      (st'.blinkArray e).status = (Blink.tick^[k] user.toBlink.started).status := by
    rw [phase returned (stays_tasklets linked inside large k), ticks_replicate]
  have lengths := phases_iff on off
  refine ⟨?_, ?_, fun threads events => stays_of_threads threads inside large⟩
  · constructor
    · refine fun all => lengths.mp fun k => ?_
      obtain ⟨st', returned, phases⟩ := all k
      rw [← alone returned]
      exact phases
    · intro bounds k
      obtain ⟨st', returned, -⟩ := run_tasklets linked large k
      refine ⟨st', returned, ?_⟩
      rw [alone returned]
      exact lengths.mpr bounds k
  · constructor
    · refine fun all => lengths.mp fun k => ?_
      obtain ⟨st', returned, -⟩ := run_tasklets linked large k
      have phases := all _ st' returned (stays_tasklets linked inside large k)
      rw [alone returned, ticks_replicate] at phases
      exact phases
    · intro bounds events st' returned stays
      rw [phase returned stays]
      exact lengths.mpr bounds (ticks events)

/-- The first element in an empty array is alone in the list. -/
theorem linked_insertFront_zeroed (video : Nat → UInt8) (temp : Blink) :
    Linked (insertFront (.zeroed video) firstSlot temp).next (some firstSlot) [firstSlot] := by
  refine ⟨rfl, ?_⟩
  rw [State.next, blinkArray_insertFront_self]
  rfl

/-- The eye of the fish, on for 7 turns and off for 6. -/
theorem blink_period_main :
    ∃ st, run 2001 (insertFront (.zeroed fun _ => 32) firstSlot (addition 540).started)
        (List.replicate 10 .tasklet) = some st ∧
      ((st.blinkArray firstSlot).status &&& 1 = 1 ↔ 10 % (7 + 6) < 7) := by
  have free := mp1Malloc_zeroed fun _ => 32
  exact (blink_period_iff (by decide) (mp1IoctlAdd_eq (by decide) free) free
    (linked_insertFront_zeroed _ _) (by decide) (by decide)).1.mpr (by decide) 10

/-- A request with a length that is negative as a signed number after the first turn. -/
def longAddition : Mp1BlinkStruct UInt32 := { addition 540 with onLength := 32769 }

/-- With 32769 turns to be on, an element is off after the first. -/
theorem blink_period_cut :
    longAddition.onLength = 32769 ∧ longAddition.offLength = 6 ∧
      ∃ st, run 2001 (.zeroed fun _ => 32) [.ioctl (.add longAddition), .tasklet] = some st ∧
        Linked st.next st.mp1ListHead [firstSlot] ∧ (st.blinkArray firstSlot).location = 540 ∧
        ¬ ((st.blinkArray firstSlot).status &&& 1 = 1 ↔ 1 % (32769 + 6) < 32769) := by
  have large : places < 2001 := by decide
  have linked := linked_insertFront_zeroed (fun _ => 32) longAddition.started
  have added : mp1IoctlAdd (.zeroed fun _ => 32) longAddition = _ :=
    mp1IoctlAdd_eq (by decide) (mp1Malloc_zeroed fun _ => 32)
  obtain ⟨st, returned, linked'⟩ := run_tasklets linked large 1
  have element := run_element returned
    (stays_tasklets linked (List.mem_singleton.mpr rfl) large 1)
  rw [blinkArray_insertFront_self, ticks_replicate, Function.iterate_one] at element
  refine ⟨rfl, rfl, st, ?_, linked', ?_, ?_⟩
  · rw [run, List.foldlM_cons, step, mp1Ioctl, added]
    exact returned
  · exact congrArg Blink.location element
  · rw [element]
    decide

end Linux391.Fish
