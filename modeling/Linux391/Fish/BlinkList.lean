import Linux391.Fish.Blink
import Mathlib.Data.Fintype.Card
import Mathlib.Data.Nat.Bitwise

/-!
The list of blinking characters.

What the list is for is said without slots and pointers: a list of at most 2000 elements, to which a
request adds at the front, from which it takes the first element of a location, and so on
(`Blinks.step`). `Threads st slots` is the invariant of the code: the slots are linked one after the
other, no slot twice, and they are the ones `mp1_malloc` does not give out. As long as it holds every
routine returns, and does to the elements what the plain list does (`Threads.step`).

The invariant is lost by one request only, an addition at location 0 while a slot is free: the slot is
linked and free at once. So the list is intact after every call exactly when all such requests come to
a full array (`blink_list_intact_iff`).
-/

namespace Linux391.Fish

open Chain (Linked)

/-! ### The list the requests are about -/

/-- One turn of an element: count down, and change over when the time is up. -/
def Blink.tick (blink : Blink) : Blink :=
  if 0 < (blink.countdown - 1).toInt16 then { blink with countdown := blink.countdown - 1 }
  else if blink.status &&& 1 = 0 then
    { blink with countdown := blink.onLength, status := blink.status ^^^ 1 }
  else { blink with countdown := blink.offLength, status := blink.status ^^^ 1 }

/-! ### The phase of an element -/

theorem and_one_eq_one_iff (status : UInt16) : status &&& 1 = 1 ↔ status.toNat % 2 = 1 := by
  rw [← UInt16.toNat_inj, UInt16.toNat_and]
  exact iff_of_eq (congrArg (· = 1) (Nat.and_one_is_mod _))

theorem and_one_eq_zero_iff (status : UInt16) : status &&& 1 = 0 ↔ ¬ status &&& 1 = 1 := by
  have bit : status.toNat &&& (1 : UInt16).toNat = status.toNat % 2 := Nat.and_one_is_mod _
  rw [and_one_eq_one_iff, ← UInt16.toNat_inj, UInt16.toNat_and, bit]
  exact Nat.mod_two_not_eq_one.symm

/-- `xorw $0x1` changes the phase. -/
theorem xor_one_and_one_iff (status : UInt16) :
    (status ^^^ 1) &&& 1 = 1 ↔ ¬ status &&& 1 = 1 := by
  have bit : (status.toNat ^^^ (1 : UInt16).toNat) % 2 = (status.toNat + 1) % 2 :=
    Nat.xor_mod_two_eq
  rw [and_one_eq_one_iff, and_one_eq_one_iff, UInt16.toNat_xor]
  omega

/-! ### Requests and turns -/

namespace Blinks

def located (location : UInt16) (blink : Blink) : Bool := blink.location = location

def add (blink : Blink) (blinks : List Blink) : List Blink :=
  if blink.location.toNat < places ∧ blinks.length < places then blink.started :: blinks else blinks

def sync (source location : UInt16) (blinks : List Blink) : List Blink :=
  match blinks.find? (located source) with
  | none => blinks
  | some blink => blinks.modify (blinks.findIdx (located location)) (·.synced blink)

def step (blinks : List Blink) : Event → List Blink
  | .ioctl (.add user) => add user.toBlink blinks
  | .ioctl (.remove arg) => blinks.eraseP (located arg.toUInt16)
  | .ioctl (.find _) => blinks
  | .ioctl (.sync arg) => sync (arg >>> 16).toUInt16 (arg &&& 0xFFFF).toUInt16 blinks
  | .tasklet => blinks.map Blink.tick

/-- The elements after a sequence of events, from the events alone. -/
def after (events : List Event) : List Blink := events.foldl step []

theorem after_concat (front : List Event) (event : Event) :
    after (front ++ [event]) = step (after front) event := by
  rw [after, List.foldl_append]
  rfl

end Blinks

/-! ### The invariant -/

structure Threads (st : State) (slots : List Slot) : Prop where
  linked : Linked st.next st.mp1ListHead slots
  nodup : slots.Nodup
  allocated : ∀ i, i ∈ slots ↔ (st.blinkArray i).location ≠ 0

def State.blinks (st : State) (slots : List Slot) : List Blink :=
  slots.map fun i => (st.blinkArray i).toBlink

theorem threads_zeroed (video : Nat → UInt8) : Threads (.zeroed video) [] where
  linked := rfl
  nodup := List.nodup_nil
  allocated i := by simp [State.zeroed, zeroSlot]

section

variable {st st' : State} {slots : List Slot} {e : Slot} {fuel : Nat}

theorem length_blinks : (st.blinks slots).length = slots.length := by simp [State.blinks]

theorem find?_blinks (hit : Blink → Bool) :
    (st.blinks slots).find? hit =
      (slots.find? fun i => hit (st.blinkArray i).toBlink).map fun i => (st.blinkArray i).toBlink :=
  List.find?_map

theorem next_store (blink : Mp1BlinkStruct (Option Slot)) :
    (st.store e blink).next = Function.update st.next e blink.next := by
  funext i
  by_cases same : i = e
  · subst same
    simp [State.next, State.store]
  · simp [State.next, State.store, same]

theorem toBlink_store (blink : Mp1BlinkStruct (Option Slot)) :
    (fun i => ((st.store e blink).blinkArray i).toBlink) =
      Function.update (fun i => (st.blinkArray i).toBlink) e blink.toBlink := by
  funext i
  by_cases same : i = e
  · subst same
    simp [State.store]
  · simp [State.store, same]

/-- A list of distinct slots cannot be longer than the array, so the fuel suffices. -/
theorem length_le_of_nodup (nodup : slots.Nodup) : slots.length ≤ places := by
  rw [← Fintype.card_fin places]
  exact nodup.length_le_card

theorem Threads.length_le (threads : Threads st slots) : slots.length ≤ places :=
  length_le_of_nodup threads.nodup

theorem Threads.length_lt (threads : Threads st slots) (large : places < fuel) :
    slots.length < fuel :=
  Nat.lt_of_le_of_lt threads.length_le large

/-- Only locations and links matter for the invariant. -/
theorem Threads.congr (threads : Threads st slots) (head : st'.mp1ListHead = st.mp1ListHead)
    (next : st'.next = st.next)
    (location : ∀ i, (st'.blinkArray i).location = (st.blinkArray i).location) :
    Threads st' slots where
  linked := by
    rw [head, next]
    exact threads.linked
  nodup := threads.nodup
  allocated i := by rw [location, threads.allocated]

/-! ### Adding -/

theorem Threads.malloc_fresh (threads : Threads st slots) (free : mp1Malloc st = some e) :
    e ∉ slots := by
  have zero := List.find?_some free
  rw [threads.allocated, not_not]
  exact of_decide_eq_true zero

/-- There is a free slot unless all of them are in the list. -/
theorem Threads.malloc_eq_none_iff (threads : Threads st slots) :
    mp1Malloc st = none ↔ slots.length = places := by
  have full : (∀ i, i ∈ slots) ↔ slots.length = places := by
    constructor
    · intro all
      refine Nat.le_antisymm threads.length_le ?_
      rw [← List.length_finRange (n := places)]
      exact (List.nodup_finRange places).length_le_of_subset fun i _ => all i
    · intro length i
      by_contra missing
      have more := (List.nodup_cons.mpr ⟨missing, threads.nodup⟩).length_le_card
      rw [List.length_cons, length, Fintype.card_fin] at more
      exact absurd more (Nat.not_succ_le_self places)
  rw [← full, mp1Malloc, List.find?_eq_none]
  simp [threads.allocated]

theorem Threads.room (threads : Threads st slots) (free : mp1Malloc st = some e) :
    slots.length < places := by
  refine Nat.lt_of_le_of_ne threads.length_le fun full => ?_
  rw [threads.malloc_eq_none_iff.mpr full] at free
  cases free

/-- The new slot is linked before the others, which stay as they are. -/
theorem linked_insertFront (linked : Linked st.next st.mp1ListHead slots) (fresh : e ∉ slots)
    (temp : Blink) :
    Linked (insertFront st e temp).next (insertFront st e temp).mp1ListHead (e :: slots) := by
  have next : (insertFront st e temp).next = Function.update st.next e st.mp1ListHead :=
    next_store _
  rw [next]
  refine ⟨rfl, ?_⟩
  rw [Function.update_self]
  exact linked.congr fun i mem => Function.update_of_ne (ne_of_mem_of_not_mem mem fresh) _ _

theorem blinkArray_insertFront_of_ne {i : Slot} (differs : i ≠ e) (temp : Blink) :
    (insertFront st e temp).blinkArray i = st.blinkArray i :=
  Function.update_of_ne differs _ _

theorem blinkArray_insertFront_self (temp : Blink) :
    (insertFront st e temp).blinkArray e = { temp with next := st.mp1ListHead } :=
  Function.update_self _ _ _

theorem Threads.insertFront (threads : Threads st slots) (fresh : e ∉ slots) {temp : Blink}
    (nonzero : temp.location ≠ 0) : Threads (insertFront st e temp) (e :: slots) where
  linked := linked_insertFront threads.linked fresh temp
  nodup := List.nodup_cons.mpr ⟨fresh, threads.nodup⟩
  allocated i := by
    by_cases same : i = e
    · subst same
      simp [blinkArray_insertFront_self, nonzero]
    · simp [blinkArray_insertFront_of_ne same, same, threads.allocated]

theorem blinks_insertFront (fresh : e ∉ slots) (temp : Blink) :
    (insertFront st e temp).blinks (e :: slots) = temp :: st.blinks slots := by
  rw [State.blinks, List.map_cons, blinkArray_insertFront_self]
  refine congrArg (temp :: ·) (List.map_congr_left fun i mem => ?_)
  rw [blinkArray_insertFront_of_ne (ne_of_mem_of_not_mem mem fresh)]

theorem mp1IoctlAdd_eq {user : Mp1BlinkStruct UInt32}
    (inside : user.location.toNat < places) (free : mp1Malloc st = some e) :
    mp1IoctlAdd st user = (0, insertFront st e user.toBlink.started) := by
  rw [mp1IoctlAdd, if_neg (Nat.not_le.mpr inside), free]

theorem Threads.add (threads : Threads st slots) (user : Mp1BlinkStruct UInt32)
    (refused : user.location = 0 → slots.length = places) :
    ∃ slots', Threads (mp1IoctlAdd st user).2 slots' ∧
      (mp1IoctlAdd st user).2.blinks slots' = Blinks.add user.toBlink (st.blinks slots) := by
  rw [mp1IoctlAdd, Blinks.add, length_blinks]
  by_cases outside : places ≤ user.location.toNat
  · rw [if_pos outside, if_neg fun inside => Nat.not_lt.mpr outside inside.1]
    exact ⟨slots, threads, rfl⟩
  · rw [if_neg outside]
    cases free : mp1Malloc st with
    | none =>
        have full := threads.malloc_eq_none_iff.mp free
        rw [if_neg fun room => Nat.ne_of_lt room.2 full]
        exact ⟨slots, threads, rfl⟩
    | some e =>
        have room := threads.room free
        have nonzero : user.location ≠ 0 := fun zero => Nat.ne_of_lt room (refused zero)
        have fresh := threads.malloc_fresh free
        rw [if_pos ⟨Nat.lt_of_not_le outside, room⟩]
        exact ⟨e :: slots, threads.insertFront fresh nonzero, blinks_insertFront fresh _⟩

/-! ### Finding and removing -/

theorem Threads.findHelper (threads : Threads st slots) (large : places < fuel) (arg : UInt32) :
    mp1FindHelper fuel st arg =
      some (slots.find? fun i => Blinks.located arg.toUInt16 (st.blinkArray i).toBlink) :=
  Chain.findFrom_eq threads.linked (threads.length_lt large)

theorem next_setLink (link p : Option Slot) :
    (st.setLink link p).next = Chain.setNext link p st.next := by
  cases link with
  | none => rfl
  | some i => exact next_store _

theorem mp1ListHead_setLink (link p : Option Slot) :
    (st.setLink link p).mp1ListHead = Chain.setHead link p st.mp1ListHead := by
  cases link <;> rfl

/-- A store to a link changes nothing else of the slots. -/
theorem toBlink_setLink (link p : Option Slot) (i : Slot) :
    ((st.setLink link p).blinkArray i).toBlink = (st.blinkArray i).toBlink := by
  cases link with
  | none => rfl
  | some j =>
      by_cases same : i = j
      · subst same
        simp [State.setLink, State.store]
      · simp [State.setLink, State.store, same]

theorem toBlink_mp1Free_of_ne {i : Slot} (differs : i ≠ e) :
    ((mp1Free st e).blinkArray i).toBlink = (st.blinkArray i).toBlink := by
  simp [mp1Free, State.store, differs]

section

variable {front back : List Slot}

theorem Threads.apart (threads : Threads st (front ++ e :: back)) :
    e ∉ front ++ back ∧ (front ++ back).Nodup :=
  List.nodup_cons.mp (List.nodup_middle.mp threads.nodup)

/-- The element behind `front` is taken out and its slot is free again. -/
theorem Threads.unlink (threads : Threads st (front ++ e :: back)) :
    Threads (mp1Free (st.setLink front.getLast? (st.next e)) e) (front ++ back) := by
  obtain ⟨fresh, nodup⟩ := threads.apart
  refine ⟨?_, nodup, fun i => ?_⟩
  · have unlinked := threads.linked.unlink threads.nodup
    rw [← next_setLink, ← mp1ListHead_setLink] at unlinked
    refine unlinked.congr fun i mem => ?_
    rw [mp1Free, next_store, Function.update_of_ne (ne_of_mem_of_not_mem mem fresh)]
  · by_cases same : i = e
    · subst same
      simp [fresh, mp1Free, State.store, zeroSlot]
    · rw [toBlink_mp1Free_of_ne same, toBlink_setLink, ← threads.allocated]
      simp [same]

theorem blinks_unlink (threads : Threads st (front ++ e :: back)) :
    (mp1Free (st.setLink front.getLast? (st.next e)) e).blinks (front ++ back) =
      st.blinks (front ++ back) := by
  refine List.map_congr_left fun i mem => ?_
  rw [toBlink_mp1Free_of_ne (ne_of_mem_of_not_mem mem threads.apart.1), toBlink_setLink]

end

theorem Threads.remove (threads : Threads st slots) (large : places < fuel) (arg : UInt32) :
    ∃ value st' slots', mp1IoctlRemove fuel st arg = some (value, st') ∧ Threads st' slots' ∧
      st'.blinks slots' = (st.blinks slots).eraseP (Blinks.located arg.toUInt16) := by
  cases found : slots.find? fun i => Blinks.located arg.toUInt16 (st.blinkArray i).toBlink with
  | none =>
      refine ⟨-1, st, slots, ?_, threads, ?_⟩
      · simp [mp1IoctlRemove, threads.findHelper large, found]
      · rw [List.find?_eq_none] at found
        rw [List.eraseP_of_forall_not]
        simpa [State.blinks] using found
  | some e =>
      obtain ⟨hit, front, back, rfl, misses⟩ := List.find?_eq_some_iff_append.mp found
      have first : e ∉ front := fun mem => threads.apart.1 (List.mem_append_left back mem)
      have path := (Chain.path_through.mp threads.linked).1
      have short : front.length < fuel := by
        have whole := threads.length_lt large
        rw [List.length_append] at whole
        exact Nat.lt_of_le_of_lt (Nat.le_add_right _ _) whole
      have link : Chain.linkTo st.next st.mp1ListHead e fuel none = some front.getLast? := by
        rw [Chain.linkTo_eq path first short, Option.or_none]
      refine ⟨0, _, front ++ back, ?_, threads.unlink, ?_⟩
      · simp [mp1IoctlRemove, threads.findHelper large, found, link]
      · rw [blinks_unlink threads, State.blinks, State.blinks, List.map_append, List.map_append,
          List.map_cons, List.eraseP_append_right, List.eraseP_cons_of_pos hit]
        simpa using misses

/-! ### Synchronising -/

/-- Changing the value at the first hit of a list without repetition. -/
theorem map_update_eq_modify {β : Type} {hit : Slot → Bool} (nodup : slots.Nodup)
    (found : slots.find? hit = some e) (g : Slot → β) (f : β → β) :
    slots.map (Function.update g e (f (g e))) = (slots.map g).modify (slots.findIdx hit) f := by
  induction slots with
  | nil => cases found
  | cons i slots ih =>
      obtain ⟨fresh, nodup⟩ := List.nodup_cons.mp nodup
      rw [List.find?_cons] at found
      cases here : hit i with
      | true =>
          simp only [here, Option.some.injEq] at found
          subst found
          have rest : slots.map (Function.update g i (f (g i))) = slots.map g :=
            List.map_congr_left fun j mem => Function.update_of_ne (ne_of_mem_of_not_mem mem fresh) _ _
          simp [List.findIdx_cons, here, rest]
      | false =>
          simp only [here] at found
          have differs : i ≠ e := fun same => fresh (same ▸ List.mem_of_find?_eq_some found)
          simp [List.findIdx_cons, here, ih nodup found, Function.update_of_ne differs]

/-- The state after a successful `mp1_ioctl_sync`. Only the slot of the second element changes, and
of it neither the location nor the link. -/
theorem mp1IoctlSync_eq {arg : UInt32} {source : Slot}
    (first : mp1FindHelper fuel st (arg >>> 16) = some (some source))
    (second : mp1FindHelper fuel st (arg &&& 0xFFFF) = some (some e)) :
    ∃ c offset, mp1IoctlSync fuel st arg = some (0, mp1Poke c offset (st.store e
      { (st.blinkArray e).synced (st.blinkArray source).toBlink with next := st.next e })) := by
  simp only [mp1IoctlSync, first, second]
  exact ⟨_, _, rfl⟩

theorem Threads.sync (threads : Threads st slots) (large : places < fuel) (arg : UInt32) :
    ∃ value st', mp1IoctlSync fuel st arg = some (value, st') ∧ Threads st' slots ∧
      st'.blinks slots =
        Blinks.sync (arg >>> 16).toUInt16 (arg &&& 0xFFFF).toUInt16 (st.blinks slots) := by
  have index : (st.blinks slots).findIdx (Blinks.located (arg &&& 0xFFFF).toUInt16) =
      slots.findIdx fun i => Blinks.located (arg &&& 0xFFFF).toUInt16 (st.blinkArray i).toBlink :=
    List.findIdx_map _ _ _
  rw [Blinks.sync, find?_blinks, index]
  cases source : slots.find? fun i =>
      Blinks.located (arg >>> 16).toUInt16 (st.blinkArray i).toBlink with
  | none =>
      refine ⟨-1, st, ?_, threads, rfl⟩
      simp [mp1IoctlSync, threads.findHelper large, source]
  | some s =>
      cases found : slots.find? fun i =>
          Blinks.located (arg &&& 0xFFFF).toUInt16 (st.blinkArray i).toBlink with
      | none =>
          refine ⟨-1, st, ?_, threads, ?_⟩
          · simp only [mp1IoctlSync, threads.findHelper large, source, found]
            rfl
          · have beyond : (st.blinks slots).length ≤ slots.findIdx fun i =>
                Blinks.located (arg &&& 0xFFFF).toUInt16 (st.blinkArray i).toBlink := by
              rw [length_blinks, List.findIdx_eq_length.mpr]
              simpa using List.find?_eq_none.mp found
            exact (List.modify_eq_self beyond).symm
      | some e =>
          obtain ⟨c, offset, returned⟩ := mp1IoctlSync_eq
            ((threads.findHelper large _).trans (congrArg some source))
            ((threads.findHelper large _).trans (congrArg some found))
          refine ⟨0, _, returned, threads.congr rfl ?_ fun i => ?_, ?_⟩
          · exact (next_store _).trans (Function.update_eq_self e st.next)
          · by_cases same : i = e
            · subst same
              simp [mp1Poke, State.store, Blink.synced]
            · simp [mp1Poke, State.store, same]
          · have changed := map_update_eq_modify threads.nodup found
              (fun i => (st.blinkArray i).toBlink) (·.synced (st.blinkArray s).toBlink)
            exact (congrArg (slots.map ·) (toBlink_store _)).trans changed

/-! ### The tasklet -/

/-- The slot of an element after its turn. -/
def ticked (slot : Mp1BlinkStruct (Option Slot)) : Mp1BlinkStruct (Option Slot) :=
  { slot with toBlink := slot.toBlink.tick }

theorem blinkArray_taskletBody (st : State) (e : Slot) :
    (taskletBody st e).blinkArray = Function.update st.blinkArray e (ticked (st.blinkArray e)) := by
  by_cases time : 0 < ((st.blinkArray e).countdown - 1).toInt16
  · simp only [taskletBody, ticked, Blink.tick, if_pos time]
    rfl
  · by_cases off : (st.blinkArray e).status &&& 1 = 0
    · simp only [taskletBody, ticked, Blink.tick, if_neg time, if_pos off]
      rfl
    · simp only [taskletBody, ticked, Blink.tick, if_neg time, if_neg off]
      rfl

theorem mp1ListHead_taskletBody (st : State) (e : Slot) :
    (taskletBody st e).mp1ListHead = st.mp1ListHead := by
  unfold taskletBody
  dsimp only
  split_ifs <;> rfl

theorem next_taskletBody (st : State) (e : Slot) : (taskletBody st e).next = st.next := by
  funext i
  rw [State.next, blinkArray_taskletBody]
  by_cases same : i = e
  · subst same
    rw [Function.update_self]
    rfl
  · rw [Function.update_of_ne same]
    rfl

theorem location_tick (blink : Blink) : blink.tick.location = blink.location := by
  unfold Blink.tick
  split_ifs <;> rfl

theorem taskletLoop_eq {p : Option Slot} (linked : Linked st.next p slots) (nodup : slots.Nodup)
    (large : slots.length < fuel) :
    ∃ st', taskletLoop fuel p st = some st' ∧ st'.mp1ListHead = st.mp1ListHead ∧
      ∀ i, st'.blinkArray i = if i ∈ slots then ticked (st.blinkArray i) else st.blinkArray i := by
  induction slots generalizing st p fuel with
  | nil =>
      obtain rfl : p = none := linked
      obtain ⟨fuel, rfl⟩ := Nat.exists_eq_add_one.mpr large
      exact ⟨st, rfl, rfl, fun i => by simp⟩
  | cons e slots ih =>
      obtain ⟨rfl, rest⟩ := linked
      obtain ⟨fresh, nodup⟩ := List.nodup_cons.mp nodup
      rw [List.length_cons] at large
      obtain ⟨fuel, rfl⟩ := Nat.exists_eq_add_one.mpr (Nat.zero_lt_of_lt large)
      have onward : Linked (taskletBody st e).next ((taskletBody st e).next e) slots := by
        rw [next_taskletBody]
        exact rest
      obtain ⟨st', returned, head, array⟩ := ih onward nodup (Nat.lt_of_succ_lt_succ large)
      refine ⟨st', returned, head.trans (mp1ListHead_taskletBody st e), fun i => ?_⟩
      rw [array i, blinkArray_taskletBody]
      by_cases same : i = e
      · subst same
        simp [fresh]
      · simp [same]

theorem next_of_ticked (array : ∀ i, st'.blinkArray i =
    if i ∈ slots then ticked (st.blinkArray i) else st.blinkArray i) : st'.next = st.next := by
  funext i
  rw [State.next, array i]
  split <;> rfl

theorem Threads.tasklet (threads : Threads st slots) (large : places < fuel) :
    ∃ st', mp1RtcTasklet fuel st = some st' ∧ Threads st' slots ∧
      st'.blinks slots = (st.blinks slots).map Blink.tick := by
  obtain ⟨st', returned, head, array⟩ :=
    taskletLoop_eq threads.linked threads.nodup (threads.length_lt large)
  refine ⟨st', returned, threads.congr head (next_of_ticked array) fun i => ?_, ?_⟩
  · rw [array i]
    split
    · exact location_tick _
    · rfl
  · rw [State.blinks, State.blinks, List.map_map]
    refine List.map_congr_left fun i mem => ?_
    rw [array i, if_pos mem]
    rfl

/-! ### Steps and runs -/

/-- An event takes the elements where the plain list goes. -/
theorem Threads.step (threads : Threads st slots) (large : places < fuel) (event : Event)
    (refused : ∀ user, event = .ioctl (.add user) → user.location = 0 → slots.length = places) :
    ∃ st' slots', Fish.step fuel st event = some st' ∧ Threads st' slots' ∧
      st'.blinks slots' = Blinks.step (st.blinks slots) event := by
  match event with
  | .ioctl (.add user) =>
      obtain ⟨slots', threads', blinks⟩ := threads.add user (refused user rfl)
      exact ⟨_, slots', rfl, threads', blinks⟩
  | .ioctl (.remove arg) =>
      obtain ⟨value, st', slots', returned, threads', blinks⟩ := threads.remove large arg
      exact ⟨st', slots', congrArg (Option.map Prod.snd) returned, threads', blinks⟩
  | .ioctl (.find location) =>
      refine ⟨st, slots, ?_, threads, rfl⟩
      simp only [Fish.step, mp1Ioctl, mp1IoctlFind, threads.findHelper large]
      cases slots.find? _ <;> rfl
  | .ioctl (.sync arg) =>
      obtain ⟨value, st', returned, threads', blinks⟩ := threads.sync large arg
      exact ⟨st', slots, congrArg (Option.map Prod.snd) returned, threads', blinks⟩
  | .tasklet =>
      obtain ⟨st', returned, threads', blinks⟩ := threads.tasklet large
      exact ⟨st', slots, returned, threads', blinks⟩

end

/-- Every request for location 0 comes when the list has an element for each slot. -/
def ZeroRefused (events : List Event) : Prop :=
  ∀ front user, front ++ [.ioctl (.add user)] <+: events → user.location = 0 →
    (Blinks.after front).length = places

theorem ZeroRefused.restrict {front events : List Event} (refused : ZeroRefused events)
    (before : front <+: events) : ZeroRefused front :=
  fun init user inside => refused init user (inside.trans before)

theorem run_append (fuel : Nat) (st : State) (front back : List Event) :
    run fuel st (front ++ back) = (run fuel st front).bind fun st' => run fuel st' back :=
  List.foldlM_append

theorem run_concat {fuel : Nat} {st st' : State} {front : List Event}
    (returned : run fuel st front = some st') (event : Event) :
    run fuel st (front ++ [event]) = step fuel st' event := by
  rw [run_append, returned, Option.bind_some, run, List.foldlM_cons]
  exact bind_pure _

/-- Where location 0 is refused throughout, a run from the empty list returns and the list holds the
elements of the plain one. -/
theorem run_threads (video : Nat → UInt8) {fuel : Nat} (large : places < fuel) (events : List Event)
    (refused : ZeroRefused events) :
    ∃ st slots, run fuel (.zeroed video) events = some st ∧ Threads st slots ∧
      st.blinks slots = Blinks.after events := by
  induction events using List.reverseRecOn with
  | nil => exact ⟨_, [], rfl, threads_zeroed video, rfl⟩
  | append_singleton front event ih =>
      obtain ⟨st, slots, returned, threads, blinks⟩ :=
        ih (refused.restrict (List.prefix_append front [event]))
      have last : ∀ user, event = .ioctl (.add user) → user.location = 0 →
          slots.length = places := by
        rintro user rfl zero
        rw [← length_blinks, blinks]
        exact refused front user List.prefix_rfl zero
      obtain ⟨st', slots', stepped, threads', blinks'⟩ := threads.step large event last
      refine ⟨st', slots', (run_concat returned event).trans stepped, threads', ?_⟩
      rw [blinks', blinks, Blinks.after_concat]

/-! ### Integrity -/

/-- `st'` has one element more than `st`, the one asked for, in a slot that was not in the list. -/
def AddsOne (user : Mp1BlinkStruct UInt32) (st st' : State) : Prop :=
  ∀ slots, Threads st slots → ∃ e, e ∉ slots ∧ Linked st'.next st'.mp1ListHead (e :: slots) ∧
    (st'.blinkArray e).toBlink = user.toBlink.started ∧ ∀ i ≠ e, st'.blinkArray i = st.blinkArray i

/-- The list is intact: it ends, meets no slot twice and meets the allocated ones; what is added next
is one element; and the routines that walk it return. -/
structure Integrity (fuel : Nat) (st : State) : Prop where
  threads : ∃ slots, Threads st slots
  adds : ∀ user, (mp1IoctlAdd st user).1 = 0 → AddsOne user st (mp1IoctlAdd st user).2
  finds : ∀ arg, (mp1FindHelper fuel st arg).isSome
  removes : ∀ arg, (mp1IoctlRemove fuel st arg).isSome
  ticks : (mp1RtcTasklet fuel st).isSome

theorem mp1IoctlAdd_of_success {st : State} {user : Mp1BlinkStruct UInt32}
    (success : (mp1IoctlAdd st user).1 = 0) :
    ∃ e, mp1Malloc st = some e ∧
      (mp1IoctlAdd st user).2 = insertFront st e user.toBlink.started := by
  unfold mp1IoctlAdd at success ⊢
  by_cases outside : places ≤ user.location.toNat
  · rw [if_pos outside] at success
    cases success
  · rw [if_neg outside] at success ⊢
    cases free : mp1Malloc st with
    | none =>
        rw [free] at success
        cases success
    | some e => exact ⟨e, rfl, rfl⟩

theorem Threads.integrity {st : State} {slots : List Slot} {fuel : Nat} (threads : Threads st slots)
    (large : places < fuel) : Integrity fuel st where
  threads := ⟨slots, threads⟩
  adds user success slots' threads' := by
    obtain ⟨e, free, result⟩ := mp1IoctlAdd_of_success success
    have fresh := threads'.malloc_fresh free
    rw [result]
    refine ⟨e, fresh, linked_insertFront threads'.linked fresh _, ?_, fun i differs => ?_⟩
    · rw [blinkArray_insertFront_self]
    · exact blinkArray_insertFront_of_ne differs _
  finds arg := by
    rw [threads.findHelper large]
    rfl
  removes arg := by
    obtain ⟨value, st', slots', returned, -⟩ := threads.remove large arg
    rw [returned]
    rfl
  ticks := by
    obtain ⟨st', returned, -⟩ := threads.tasklet large
    rw [returned]
    rfl

/-- After an addition at location 0 the first slot of the list is free. -/
theorem not_threads_insertFront_zero {st : State} {e : Slot} {temp : Blink} {slots : List Slot}
    (zero : temp.location = 0) : ¬ Threads (insertFront st e temp) slots := by
  intro threads
  cases slots with
  | nil => exact Option.some_ne_none e threads.linked
  | cons i slots =>
      obtain rfl := Option.some.inj threads.linked.1
      have nonzero := (threads.allocated e).mp List.mem_cons_self
      rw [blinkArray_insertFront_self] at nonzero
      exact nonzero zero

/-- So such a request keeps the invariant only if it is refused. -/
theorem Threads.full_of_add_zero {st : State} {slots slots' : List Slot}
    {user : Mp1BlinkStruct UInt32} (threads : Threads st slots) (zero : user.location = 0)
    (kept : Threads (mp1IoctlAdd st user).2 slots') : slots.length = places := by
  rw [← threads.malloc_eq_none_iff]
  cases free : mp1Malloc st with
  | none => rfl
  | some e =>
      have inside : user.location.toNat < places := by
        rw [zero]
        decide
      rw [mp1IoctlAdd_eq inside free] at kept
      exact absurd kept (not_threads_insertFront_zero zero)

/-- **The list is intact after every call** exactly for the sequences in which every request for
location 0 finds the array full. -/
theorem blink_list_intact_iff (video : Nat → UInt8) (events : List Event) (fuel : Nat)
    (large : places < fuel) :
    (∀ front, front <+: events →
      ∃ st, run fuel (.zeroed video) front = some st ∧ Integrity fuel st) ↔ ZeroRefused events := by
  constructor
  · intro intact
    -- one prefix after the other: the invariant holds before each request for location 0
    have upTo : ∀ front, front <+: events → ZeroRefused front := by
      intro front before
      induction front using List.reverseRecOn with
      | nil =>
          intro init user inside
          simp at inside
      | append_singleton front event ih =>
          have refused := ih ((List.prefix_append front [event]).trans before)
          intro init user inside zero
          rcases List.prefix_concat_iff.mp inside with whole | earlier
          · obtain ⟨rfl, rfl⟩ : init = front ∧ Event.ioctl (.add user) = event := by
              simpa using List.append_inj' whole rfl
            obtain ⟨st, slots, returned, threads, blinks⟩ := run_threads video large init refused
            obtain ⟨st', returned', integrity⟩ := intact _ before
            obtain ⟨slots', threads'⟩ := integrity.threads
            rw [run_concat returned] at returned'
            obtain rfl : (mp1IoctlAdd st user).2 = st' := Option.some.inj returned'
            rw [← blinks, length_blinks]
            exact threads.full_of_add_zero zero threads'
          · exact refused init user earlier zero
    exact upTo events List.prefix_rfl
  · intro refused front before
    obtain ⟨st, slots, returned, threads, -⟩ :=
      run_threads video large front (refused.restrict before)
    exact ⟨st, returned, threads.integrity large⟩

/-- The request `main` makes, for any location. -/
def addition (location : UInt16) : Mp1BlinkStruct UInt32 where
  location := location
  onChar := 73
  offChar := 77
  onLength := 7
  offLength := 6
  countdown := 0
  status := 0
  next := 0

theorem zeroRefused_of_nonzero {events : List Event}
    (nonzero : ∀ user, .ioctl (.add user) ∈ events → user.location ≠ 0) : ZeroRefused events :=
  fun _ user inside zero => absurd zero (nonzero user (inside.subset (by simp)))

theorem blink_list_intact_main :
    ∃ st, run 2001 (.zeroed fun _ => 32) [.ioctl (.add (addition 540)), .tasklet,
      .ioctl (.remove 540)] = some st ∧ Integrity 2001 st := by
  refine (blink_list_intact_iff (fun _ => 32) _ 2001 (by decide)).mpr
    (zeroRefused_of_nonzero fun user mem => ?_) _ List.prefix_rfl
  obtain rfl : user = addition 540 := by simpa using mem
  decide

theorem places_pos : 0 < places := by decide

/-- The slot `mp1_malloc` looks at first. -/
def firstSlot : Slot := ⟨0, places_pos⟩

theorem mp1Malloc_zeroed (video : Nat → UInt8) : mp1Malloc (.zeroed video) = some firstSlot := by
  have blank : mp1Malloc (.zeroed video) = mp1Malloc (.zeroed fun _ => 32) := rfl
  rw [blank]
  decide +kernel

/-- An addition at location 0 and another one close the list to a loop, and the next search for a
third location does not end. -/
theorem blink_list_loops :
    ∃ st, run 2001 (.zeroed fun _ => 32) [.ioctl (.add (addition 0)), .ioctl (.add (addition 5))] =
        some st ∧
      (∀ slots, ¬ Linked st.next st.mp1ListHead slots) ∧
        ∀ fuel, mp1FindHelper fuel st 7 = none := by
  -- both requests get the same slot
  have one := mp1Malloc_zeroed fun _ => 32
  have two : mp1Malloc (insertFront (.zeroed fun _ => 32) firstSlot (addition 0).started) =
      some firstSlot := by decide +kernel
  have loop : (insertFront (insertFront (.zeroed fun _ => 32) firstSlot (addition 0).started)
      firstSlot (addition 5).started).next firstSlot = some firstSlot := by
    rw [State.next, blinkArray_insertFront_self]
    rfl
  refine ⟨_, ?_, fun slots => Chain.not_linked_of_loop loop,
    Chain.findFrom_loop loop (by decide +kernel)⟩
  calc run 2001 (.zeroed fun _ => 32) [.ioctl (.add (addition 0)), .ioctl (.add (addition 5))]
      = some (mp1IoctlAdd (mp1IoctlAdd (.zeroed fun _ => 32) (addition 0)).2 (addition 5)).2 := rfl
    _ = _ := by rw [mp1IoctlAdd_eq (by decide) one, mp1IoctlAdd_eq (by decide) two]

end Linux391.Fish
