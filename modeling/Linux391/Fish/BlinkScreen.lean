import Linux391.Fish.BlinkEffects

/-!
What the blinking characters show.

The screen is added to the plain list of elements: `Display.step` says which bytes an event puts
there, and `run_display` that the code puts the same ones. An element shows what it should
(`Blink.shown`) when it is added and whenever it changes over. `mp1_ioctl_sync` is the exception: the
conditional move behind its `testb` is never made, so it always shows the off character, also for
an element it has just put in the on phase. `blink_display_iff` gives the runs in which this is
not seen.
-/

namespace Linux391.Fish

/-! ### The screen the requests are about -/

/-- The character that goes with the phase of an element. -/
def Blink.shown (blink : Blink) : UInt8 :=
  if blink.status &&& 1 = 1 then blink.onChar else blink.offChar

/-- The elements and the screen. -/
structure Display where
  blinks : List Blink
  video : Nat → UInt8

namespace Display

/-- What an event puts on the screen. -/
def screen (d : Display) : Event → Nat → UInt8
  | .ioctl (.add user) =>
      if user.location.toNat < places ∧ d.blinks.length < places then
        Function.update d.video user.offset user.onChar
      else d.video
  | .ioctl (.remove _) => d.video
  | .ioctl (.find _) => d.video
  | .ioctl (.sync arg) =>
      match d.blinks.find? (Blinks.located (arg >>> 16).toUInt16),
        d.blinks.find? (Blinks.located (arg &&& 0xFFFF).toUInt16) with
      | some _, some blink => Function.update d.video blink.offset blink.offChar
      | _, _ => d.video
  | .tasklet => d.blinks.foldl Blink.draw d.video

def step (d : Display) (event : Event) : Display := ⟨Blinks.step d.blinks event, d.screen event⟩

theorem blinks_step (d : Display) (event : Event) :
    (d.step event).blinks = Blinks.step d.blinks event := rfl

theorem video_step (d : Display) (event : Event) : (d.step event).video = d.screen event := rfl

def after (video : Nat → UInt8) (events : List Event) : Display := events.foldl step ⟨[], video⟩

/-- Every element shows the character of its phase. -/
def Shown (d : Display) : Prop := ∀ blink ∈ d.blinks, d.video blink.offset = blink.shown

theorem screen_sync_missing {d : Display} {arg : UInt32}
    (missing : d.blinks.find? (Blinks.located (arg >>> 16).toUInt16) = none ∨
      d.blinks.find? (Blinks.located (arg &&& 0xFFFF).toUInt16) = none) :
    d.screen (.ioctl (.sync arg)) = d.video := by
  rw [screen]
  rcases missing with none | none
  · rw [none]
  · rw [none]
    cases d.blinks.find? (Blinks.located (arg >>> 16).toUInt16) <;> rfl

theorem screen_sync_found {d : Display} {arg : UInt32} {source blink : Blink}
    (first : d.blinks.find? (Blinks.located (arg >>> 16).toUInt16) = some source)
    (second : d.blinks.find? (Blinks.located (arg &&& 0xFFFF).toUInt16) = some blink) :
    d.screen (.ioctl (.sync arg)) = Function.update d.video blink.offset blink.offChar := by
  rw [screen, first, second]

end Display

/-! ### The code puts the same characters there -/

section

variable {st st' : State} {slots : List Slot} {e : Slot} {fuel : Nat}

def State.display (st : State) (slots : List Slot) : Display := ⟨st.blinks slots, st.video⟩

/-- What the code finds is what the plain list finds. -/
theorem Threads.find (threads : Threads st slots) (large : places < fuel) {arg : UInt32}
    {found : Option Slot} (search : mp1FindHelper fuel st arg = some found) :
    (st.blinks slots).find? (Blinks.located arg.toUInt16) =
      found.map fun i => (st.blinkArray i).toBlink := by
  rw [threads.findHelper large] at search
  rw [find?_blinks, Option.some.inj search]

theorem Threads.screen_refused (threads : Threads st slots) (large : places < fuel)
    {request : Request} (reason : Refuses fuel st request) :
    (st.display slots).screen (.ioctl request) = st.video := by
  match request with
  | .add user =>
      refine if_neg fun ⟨inside, room⟩ => ?_
      rcases reason with outside | none
      · exact Nat.not_lt.mpr outside inside
      · rw [State.display, length_blinks, threads.malloc_eq_none_iff.mp none] at room
        exact Nat.lt_irrefl places room
  | .remove _ | .find _ => rfl
  | .sync arg =>
      exact Display.screen_sync_missing (reason.imp (threads.find large) (threads.find large))

/-- One event, on an intact list. -/
theorem Threads.video (threads : Threads st slots) (large : places < fuel) {event : Event}
    (stepped : Fish.step fuel st event = some st') :
    st'.video = (st.display slots).screen event := by
  cases step_effect stepped with
  | refused reason => exact (threads.screen_refused large reason).symm
  | @inserted user i accepted free =>
      have room : (st.display slots).blinks.length < places := by
        rw [State.display, length_blinks]
        exact threads.room free
      exact (if_pos ⟨accepted, room⟩).symm
  | @unlinked arg i link found before => exact video_setLink link (st.next i)
  | synced first second =>
      exact (Display.screen_sync_found (d := st.display slots) (threads.find large first)
        (threads.find large second)).symm
  | turned linked head array video =>
      rw [video, linked.unique threads.linked]
      rfl

end

/-! ### The elements and their locations -/

namespace Blinks

/-- The locations asked for in a sequence of events. -/
def added (events : List Event) : List UInt16 :=
  events.filterMap fun
    | .ioctl (.add user) => some user.location
    | _ => none

/-- The list around the first element found. -/
theorem modify_of_find? {hit : Blink → Bool} {blinks : List Blink} {blink : Blink}
    (found : blinks.find? hit = some blink) :
    ∃ front back, blinks = front ++ blink :: back ∧
      ∀ f, blinks.modify (blinks.findIdx hit) f = front ++ f blink :: back := by
  induction blinks with
  | nil => cases found
  | cons b blinks ih =>
      rw [List.find?_cons] at found
      cases here : hit b with
      | true =>
          simp only [here, Option.some.injEq] at found
          subst found
          exact ⟨[], blinks, rfl, fun f => by simp [List.findIdx_cons, here]⟩
      | false =>
          simp only [here] at found
          obtain ⟨front, back, rfl, changed⟩ := ih found
          exact ⟨b :: front, back, rfl, fun f => by simp [List.findIdx_cons, here, changed]⟩

/-- A sync changes nothing, or the times and the phase of one element. -/
theorem sync_cases (source location : UInt16) (blinks : List Blink) :
    ((blinks.find? (located source) = none ∨ blinks.find? (located location) = none) ∧
        sync source location blinks = blinks) ∨
      ∃ s blink front back, blinks.find? (located source) = some s ∧
        blinks.find? (located location) = some blink ∧ blinks = front ++ blink :: back ∧
        sync source location blinks = front ++ blink.synced s :: back := by
  rw [sync]
  cases first : blinks.find? (located source) with
  | none => exact .inl ⟨.inl rfl, rfl⟩
  | some s =>
      cases second : blinks.find? (located location) with
      | none =>
          refine .inl ⟨.inr rfl, List.modify_eq_self ?_⟩
          rw [List.findIdx_eq_length.mpr]
          simpa using List.find?_eq_none.mp second
      | some blink =>
          obtain ⟨front, back, whole, changed⟩ := modify_of_find? second
          exact .inr ⟨s, blink, front, back, rfl, rfl, whole, changed _⟩

theorem map_location_sync (source location : UInt16) (blinks : List Blink) :
    (sync source location blinks).map Blink.location = blinks.map Blink.location := by
  rcases sync_cases source location blinks with ⟨-, same⟩ | ⟨s, blink, front, back, -, -, whole, eq⟩
  · rw [same]
  · rw [eq, whole, List.map_append, List.map_append]
    rfl

/-- An event adds the location asked for, or none. -/
theorem locations_step (blinks : List Blink) (event : Event) :
    ((step blinks event).map Blink.location).Sublist
      (added [event] ++ blinks.map Blink.location) := by
  match event with
  | .ioctl (.add user) =>
      rw [step, add]
      split_ifs
      · exact List.Sublist.refl _
      · exact List.sublist_cons_self _ _
  | .ioctl (.remove arg) => exact List.eraseP_sublist.map Blink.location
  | .ioctl (.find location) => exact List.Sublist.refl _
  | .ioctl (.sync arg) =>
      rw [step, map_location_sync]
      exact List.Sublist.refl _
  | .tasklet =>
      have same : (blinks.map Blink.tick).map Blink.location = blinks.map Blink.location := by
        rw [List.map_map]
        exact List.map_congr_left fun blink _ => location_tick blink
      rw [step, same]
      exact List.Sublist.refl _

/-- The elements stand in the order of their requests, the last one first. -/
theorem locations_after (events : List Event) :
    ((after events).map Blink.location).Sublist (added events).reverse := by
  induction events using List.reverseRecOn with
  | nil => exact List.Sublist.refl _
  | append_singleton front event ih =>
      have single : (added [event]).reverse = added [event] := by
        match event with
        | .ioctl (.add user) | .ioctl (.remove arg) | .ioctl (.find location)
        | .ioctl (.sync arg) | .tasklet => rfl
      have joined : (added (front ++ [event])).reverse =
          added [event] ++ (added front).reverse := by
        rw [added, List.filterMap_append, List.reverse_append]
        exact congrArg (· ++ _) single
      rw [after_concat, joined]
      exact (locations_step _ event).trans ((List.Sublist.refl _).append ih)

end Blinks

/-! ### What is shown -/

theorem Blink.offset_inj {one other : Blink} :
    one.offset = other.offset ↔ one.location = other.location := by
  rw [Blink.offset, Blink.offset, ← UInt16.toNat_inj]
  omega

/-- The elements are at different places. -/
def Display.Apart (d : Display) : Prop := (d.blinks.map Blink.location).Nodup

theorem Blink.draw_at (video : Nat → UInt8) (blink : Blink) :
    Blink.draw video blink blink.offset = blink.due.getD (video blink.offset) := by
  rw [Blink.draw]
  cases blink.due with
  | none => rfl
  | some c => exact Function.update_self _ _ _

/-- A turn leaves the character of the new phase. -/
theorem Blink.due_getD_shown (blink : Blink) : blink.due.getD blink.shown = blink.tick.shown := by
  by_cases time : 0 < (blink.countdown - 1).toInt16
  · rw [Blink.due, if_pos time, Blink.tick, if_pos time]
    rfl
  · rw [Blink.due, if_neg time, Blink.tick, if_neg time, Option.getD_some]
    by_cases on : blink.status &&& 1 = 1
    · have off : ¬ blink.status &&& 1 = 0 := fun off => (and_one_eq_zero_iff _).mp off on
      have changed : ¬ (blink.status ^^^ 1) &&& 1 = 1 := fun still =>
        (xor_one_and_one_iff _).mp still on
      rw [if_neg off, if_neg off]
      exact (if_neg changed).symm
    · have off : blink.status &&& 1 = 0 := (and_one_eq_zero_iff _).mpr on
      rw [if_pos off, if_pos off]
      exact (if_pos ((xor_one_and_one_iff _).mpr on)).symm

theorem Blink.draw_of_ne {video : Nat → UInt8} {blink : Blink} {offset : Nat}
    (differs : offset ≠ blink.offset) : Blink.draw video blink offset = video offset := by
  rw [Blink.draw]
  cases blink.due with
  | none => rfl
  | some c => exact Function.update_of_ne differs _ _

theorem foldl_draw_of_ne {offset : Nat} {blinks : List Blink} (video : Nat → UInt8)
    (differs : ∀ blink ∈ blinks, offset ≠ blink.offset) :
    blinks.foldl Blink.draw video offset = video offset := by
  induction blinks generalizing video with
  | nil => rfl
  | cons blink blinks ih =>
      rw [List.foldl_cons, ih _ fun b mem => differs b (List.mem_cons_of_mem blink mem),
        Blink.draw_of_ne (differs blink List.mem_cons_self)]

/-- The turns of all elements: each finds at its place what was there before. -/
theorem foldl_draw {blinks : List Blink} {blink : Blink} (video : Nat → UInt8)
    (apart : (blinks.map Blink.location).Nodup) (mem : blink ∈ blinks) :
    blinks.foldl Blink.draw video blink.offset = Blink.draw video blink blink.offset := by
  induction blinks generalizing video with
  | nil => cases mem
  | cons first blinks ih =>
      obtain ⟨fresh, apart⟩ := List.nodup_cons.mp apart
      have others : ∀ b ∈ blinks, first.offset ≠ b.offset := fun b mem same =>
        fresh (Blink.offset_inj.mp same ▸ List.mem_map_of_mem mem)
      rw [List.foldl_cons]
      rcases List.mem_cons.mp mem with rfl | mem
      · exact foldl_draw_of_ne _ others
      · rw [ih _ apart mem, Blink.draw_at, Blink.draw_at, Blink.draw_of_ne (others blink mem).symm]

namespace Display

/-- The sync of an event, if it is one, does not put an element with two characters into the on
phase. -/
def SyncHarmless (d : Display) (event : Event) : Prop :=
  ∀ arg source blink, event = .ioctl (.sync arg) →
    d.blinks.find? (Blinks.located (arg >>> 16).toUInt16) = some source →
    d.blinks.find? (Blinks.located (arg &&& 0xFFFF).toUInt16) = some blink →
    source.status &&& 1 = 1 → blink.onChar = blink.offChar

theorem Shown.add {d : Display} (shown : d.Shown) {user : Mp1BlinkStruct UInt32}
    (fresh : user.location ∉ d.blinks.map Blink.location) :
    (d.step (.ioctl (.add user))).Shown := by
  intro blink mem
  rw [video_step, screen]
  rw [blinks_step, Blinks.step, Blinks.add] at mem
  split_ifs at mem ⊢ with accepted
  · rcases List.mem_cons.mp mem with rfl | mem
    · have place : user.toBlink.started.offset = user.offset := rfl
      have on : user.toBlink.started.shown = user.onChar :=
        if_pos (by decide : (1 : UInt16) &&& 1 = 1)
      rw [place, on, Function.update_self]
    · have differs : blink.offset ≠ user.offset := fun same =>
        fresh (Blink.offset_inj.mp same ▸ List.mem_map_of_mem mem)
      exact (Function.update_of_ne differs _ _).trans (shown blink mem)
  · exact shown blink mem

/-- What a sync shows of an element is the character of its phase only if it is in the off phase or
has one character. -/
theorem shown_synced_iff (blink source : Blink) :
    blink.offChar = (blink.synced source).shown ↔
      (source.status &&& 1 = 1 → blink.onChar = blink.offChar) := by
  by_cases on : source.status &&& 1 = 1
  · have shown : (blink.synced source).shown = blink.onChar := if_pos on
    rw [shown]
    exact ⟨fun same _ => same.symm, fun same => (same on).symm⟩
  · have shown : (blink.synced source).shown = blink.offChar := if_neg on
    rw [shown]
    exact iff_of_true rfl fun still => absurd still on

theorem Shown.sync {d : Display} (shown : d.Shown) (apart : d.Apart) {arg : UInt32}
    (harmless : d.SyncHarmless (.ioctl (.sync arg))) : (d.step (.ioctl (.sync arg))).Shown := by
  intro blink mem
  rw [blinks_step, Blinks.step] at mem
  rw [video_step]
  rcases Blinks.sync_cases (arg >>> 16).toUInt16 (arg &&& 0xFFFF).toUInt16 d.blinks with
    ⟨missing, same⟩ | ⟨source, old, front, back, first, second, whole, eq⟩
  · rw [same] at mem
    rw [screen_sync_missing missing]
    exact shown blink mem
  · rw [eq] at mem
    rw [screen_sync_found first second]
    rw [Apart, whole, List.map_append, List.map_cons, List.nodup_middle, List.nodup_cons,
      ← List.map_append] at apart
    rcases List.mem_cons.mp (List.perm_middle.mem_iff.mp mem) with rfl | mem
    · have place : (old.synced source).offset = old.offset := rfl
      rw [place, Function.update_self]
      exact (shown_synced_iff old source).mpr (harmless arg source old rfl first second)
    · have differs : blink.offset ≠ old.offset := fun same =>
        apart.1 (Blink.offset_inj.mp same ▸ List.mem_map_of_mem mem)
      have inside : blink ∈ d.blinks := by
        rw [whole]
        exact List.perm_middle.mem_iff.mpr (List.mem_cons_of_mem old mem)
      exact (Function.update_of_ne differs _ _).trans (shown blink inside)

theorem Shown.tasklet {d : Display} (shown : d.Shown) (apart : d.Apart) :
    (d.step .tasklet).Shown := by
  intro blink mem
  obtain ⟨old, inside, rfl⟩ := List.mem_map.mp mem
  have place : old.tick.offset = old.offset := Blink.offset_inj.mpr (location_tick old)
  rw [place, ← Blink.due_getD_shown, ← shown old inside, ← Blink.draw_at]
  exact foldl_draw d.video apart inside

theorem Shown.step {d : Display} (shown : d.Shown) (apart : d.Apart) {event : Event}
    (fresh : ∀ user, event = .ioctl (.add user) → user.location ∉ d.blinks.map Blink.location)
    (harmless : d.SyncHarmless event) : (d.step event).Shown := by
  match event with
  | .ioctl (.add user) => exact shown.add (fresh user rfl)
  | .ioctl (.remove arg) => exact fun blink mem => shown blink (List.mem_of_mem_eraseP mem)
  | .ioctl (.find location) => exact shown
  | .ioctl (.sync arg) => exact shown.sync apart harmless
  | .tasklet => exact shown.tasklet apart

theorem after_concat (video : Nat → UInt8) (front : List Event) (event : Event) :
    after video (front ++ [event]) = (after video front).step event := by
  rw [after, List.foldl_append]
  rfl

theorem blinks_after (video : Nat → UInt8) (events : List Event) :
    (after video events).blinks = Blinks.after events := by
  induction events using List.reverseRecOn with
  | nil => rfl
  | append_singleton front event ih => rw [after_concat, Blinks.after_concat, blinks_step, ih]

end Display

/-! ### Runs -/

/-- The syncs of a sequence of events put no element with two different characters into the on
phase. The elements are those that the events before have left. -/
def SyncsHarmless (events : List Event) : Prop :=
  ∀ (front : List Event) (arg : UInt32) source blink, front ++ [.ioctl (.sync arg)] <+: events →
    (Blinks.after front).find? (Blinks.located (arg >>> 16).toUInt16) = some source →
    (Blinks.after front).find? (Blinks.located (arg &&& 0xFFFF).toUInt16) = some blink →
    source.status &&& 1 = 1 → blink.onChar = blink.offChar

/-- The requests are for different places. -/
theorem apart_after {events : List Event} (distinct : (Blinks.added events).Nodup) :
    ((Blinks.after events).map Blink.location).Nodup :=
  (Blinks.locations_after events).nodup (List.nodup_reverse.mpr distinct)

theorem added_concat (front : List Event) (user : Mp1BlinkStruct UInt32) :
    Blinks.added (front ++ [.ioctl (.add user)]) = Blinks.added front ++ [user.location] :=
  List.filterMap_append

/-- Where nothing is asked for twice and the syncs are harmless, every element shows its phase. -/
theorem shown_after (video : Nat → UInt8) {events : List Event}
    (distinct : (Blinks.added events).Nodup) (harmless : SyncsHarmless events) :
    (Display.after video events).Shown := by
  induction events using List.reverseRecOn with
  | nil => exact fun blink mem => absurd mem List.not_mem_nil
  | append_singleton front event ih =>
      have before : (Blinks.added front).Nodup :=
        List.Nodup.sublist ((List.sublist_append_left front [event]).filterMap _) distinct
      have shown := ih before fun init arg source blink inside =>
        harmless init arg source blink (inside.trans (List.prefix_append front [event]))
      rw [Display.after_concat]
      refine shown.step ?_ ?_ ?_
      · rw [Display.Apart, Display.blinks_after]
        exact apart_after before
      · rintro user rfl
        rw [Display.blinks_after]
        intro mem
        rw [added_concat] at distinct
        have earlier := List.mem_reverse.mp ((Blinks.locations_after front).subset mem)
        exact absurd earlier (List.disjoint_of_nodup_append distinct · (List.mem_singleton.mpr rfl))
      · rintro arg source blink rfl
        rw [Display.blinks_after]
        exact harmless front arg source blink List.prefix_rfl

/-- The code and the plain list with its screen, side by side. -/
theorem run_display (video : Nat → UInt8) {fuel : Nat} (large : places < fuel)
    {events : List Event} (refused : ZeroRefused events) :
    ∃ st slots, run fuel (.zeroed video) events = some st ∧ Threads st slots ∧
      st.display slots = Display.after video events := by
  induction events using List.reverseRecOn with
  | nil => exact ⟨_, [], rfl, threads_zeroed video, rfl⟩
  | append_singleton front event ih =>
      obtain ⟨st, slots, returned, threads, display⟩ :=
        ih (refused.restrict (List.prefix_append front [event]))
      obtain ⟨st', slots', returned', threads', blinks⟩ := run_threads video large _ refused
      rw [run_concat returned] at returned'
      have shown := threads.video large returned'
      refine ⟨st', slots', ?_, threads', ?_⟩
      · rw [run_concat returned, returned']
      · rw [Display.after_concat, ← display, Display.step, ← shown]
        rw [Blinks.after_concat, ← Display.blinks_after video, ← display] at blinks
        exact congrArg (Display.mk · st'.video) blinks

/-- A display with a sync as its last event shows the phases only if the sync was harmless. -/
theorem Display.harmless_of_shown {d : Display} {arg : UInt32} {source blink : Blink}
    (shown : (d.step (.ioctl (.sync arg))).Shown)
    (first : d.blinks.find? (Blinks.located (arg >>> 16).toUInt16) = some source)
    (second : d.blinks.find? (Blinks.located (arg &&& 0xFFFF).toUInt16) = some blink) :
    source.status &&& 1 = 1 → blink.onChar = blink.offChar := by
  rcases Blinks.sync_cases (arg >>> 16).toUInt16 (arg &&& 0xFFFF).toUInt16 d.blinks with
    ⟨missing, -⟩ | ⟨source', blink', front, back, first', second', -, eq⟩
  · rw [first, second] at missing
    exact absurd missing (by simp)
  · obtain rfl : source = source' := Option.some.inj (first.symm.trans first')
    obtain rfl : blink = blink' := Option.some.inj (second.symm.trans second')
    have inside : blink.synced source ∈ (d.step (.ioctl (.sync arg))).blinks := by
      rw [blinks_step, Blinks.step, eq]
      exact List.mem_append_right front List.mem_cons_self
    have there := shown _ inside
    rw [video_step, screen_sync_found first second] at there
    have place : (blink.synced source).offset = blink.offset := rfl
    rw [place, Function.update_self] at there
    exact (shown_synced_iff blink source).mp there

theorem shown_display_iff {st : State} {slots : List Slot} :
    (st.display slots).Shown ↔ ∀ i ∈ slots, st.video (2 * (st.blinkArray i).location.toNat) =
      if (st.blinkArray i).status &&& 1 = 1 then (st.blinkArray i).onChar
      else (st.blinkArray i).offChar := by
  have place (i : Slot) :
      (st.blinkArray i).toBlink.offset = 2 * (st.blinkArray i).location.toNat := Nat.mul_comm _ _
  simp only [Display.Shown, State.display, State.blinks, List.forall_mem_map, place]
  rfl

/-- **Every element in the list shows its phase after every call** exactly if no sync puts an
element with two different characters into the on phase. -/
theorem blink_display_iff (video : Nat → UInt8) (events : List Event)
    (distinct : (Blinks.added events).Nodup) (nonzero : 0 ∉ Blinks.added events) (fuel : Nat)
    (large : places < fuel) :
    (∀ front, front <+: events → ∃ st slots, run fuel (.zeroed video) front = some st ∧
      Chain.Linked st.next st.mp1ListHead slots ∧
      ∀ i ∈ slots, st.video (2 * (st.blinkArray i).location.toNat) =
        if (st.blinkArray i).status &&& 1 = 1 then (st.blinkArray i).onChar
        else (st.blinkArray i).offChar) ↔ SyncsHarmless events := by
  have refused : ZeroRefused events := zeroRefused_of_nonzero fun user mem zero =>
    nonzero (zero ▸ List.mem_filterMap.mpr ⟨_, mem, rfl⟩)
  constructor
  · intro intact front arg source blink inside first second
    obtain ⟨st, slots, returned, linked, phases⟩ := intact _ inside
    obtain ⟨st', slots', returned', threads, display⟩ :=
      run_display video large (refused.restrict inside)
    obtain rfl : st = st' := Option.some.inj (returned.symm.trans returned')
    obtain rfl : slots = slots' := linked.unique threads.linked
    have shown := shown_display_iff.mpr phases
    rw [display, Display.after_concat] at shown
    rw [← Display.blinks_after video] at first second
    exact Display.harmless_of_shown shown first second
  · intro harmless front before
    obtain ⟨st, slots, returned, threads, display⟩ :=
      run_display video large (refused.restrict before)
    refine ⟨st, slots, returned, threads.linked, shown_display_iff.mp ?_⟩
    rw [display]
    exact shown_after video (distinct.sublist (before.sublist.filterMap _))
      fun init arg source blink inside => harmless init arg source blink (inside.trans before)

/-- The condition one event at a time. -/
theorem SyncsHarmless.concat {front : List Event} (harmless : SyncsHarmless front) {event : Event}
    (last : ∀ arg source blink, event = .ioctl (.sync arg) →
      (Blinks.after front).find? (Blinks.located (arg >>> 16).toUInt16) = some source →
      (Blinks.after front).find? (Blinks.located (arg &&& 0xFFFF).toUInt16) = some blink →
      source.status &&& 1 = 1 → blink.onChar = blink.offChar) :
    SyncsHarmless (front ++ [event]) := by
  intro init arg source blink inside
  rcases List.prefix_concat_iff.mp inside with whole | before
  · obtain ⟨rfl, same⟩ := List.append_inj' whole rfl
    exact last arg source blink (List.singleton_inj.mp same).symm
  · exact harmless init arg source blink before

theorem SyncsHarmless.append {front : List Event} (harmless : SyncsHarmless front)
    {rest : List Event} (quiet : ∀ arg, .ioctl (.sync arg) ∉ rest) :
    SyncsHarmless (front ++ rest) := by
  induction rest using List.reverseRecOn with
  | nil => rwa [List.append_nil]
  | append_singleton rest event ih =>
      rw [← List.append_assoc]
      refine (ih fun arg mem => quiet arg (List.mem_append_left _ mem)).concat ?_
      rintro arg source blink rfl
      exact absurd (List.mem_append_right rest List.mem_cons_self) (quiet arg)

/-- The eye of `main` until it is off, and a second one. -/
def sampleEyes : List Event :=
  .ioctl (.add (addition 540)) :: List.replicate 7 .tasklet ++ [.ioctl (.add (addition 541))]

/-- The second eye is synced with the first while that is off, and both blink on. -/
theorem blink_display_eyes :
    let events := sampleEyes ++ [.ioctl (.sync 0x21C021D)] ++ [.tasklet, .tasklet]
    (Blinks.added events).Nodup ∧
      ∃ st slots, run 2001 (.zeroed fun _ => 32) events = some st ∧
        Chain.Linked st.next st.mp1ListHead slots ∧
        ∀ i ∈ slots, st.video (2 * (st.blinkArray i).location.toNat) =
          if (st.blinkArray i).status &&& 1 = 1 then (st.blinkArray i).onChar
          else (st.blinkArray i).offChar := by
  intro events
  have start : SyncsHarmless [] := fun front arg _ _ inside => by simp at inside
  have quiet : ∀ arg, Event.ioctl (.sync arg) ∉ sampleEyes := fun arg => by simp [sampleEyes]
  have eyes : SyncsHarmless sampleEyes := start.append quiet
  have off : ((Blinks.after sampleEyes).find? (Blinks.located 540)).map (·.status &&& 1) =
      some 0 := by decide +kernel
  have harmless : SyncsHarmless (sampleEyes ++ [.ioctl (.sync 0x21C021D)]) := by
    refine eyes.concat ?_
    rintro arg source blink ⟨⟩ first _ on
    have place : ((0x21C021D : UInt32) >>> 16).toUInt16 = 540 := by decide
    rw [place] at first
    rw [first, Option.map_some, on] at off
    cases off
  exact ⟨by decide, (blink_display_iff (fun _ => 32) events (by decide) (by decide) 2001
    (by decide)).mpr (harmless.append fun arg => by simp) _ List.prefix_rfl⟩

/-- An element synced with itself while it is on stays on, and its place on the screen goes to the
off character. -/
theorem blink_display_wrong :
    ∃ st slots, run 2001 (.zeroed fun _ => 32)
        [.ioctl (.add (addition 5)), .ioctl (.sync 0x50005)] = some st ∧
      Chain.Linked st.next st.mp1ListHead slots ∧
      ∃ i ∈ slots, (st.blinkArray i).location = 5 ∧ (st.blinkArray i).status &&& 1 = 1 ∧
        (st.blinkArray i).onChar = 73 ∧ st.video (2 * 5) = 77 := by
  have refused : ZeroRefused [.ioctl (.add (addition 5)), .ioctl (.sync 0x50005)] := by
    refine zeroRefused_of_nonzero fun user mem => ?_
    obtain rfl : user = addition 5 := by simpa using mem
    decide
  obtain ⟨st, slots, returned, threads, display⟩ :=
    @run_display (fun _ => 32) 2001 (by decide) _ refused
  have blinks : slots.map (fun i => (st.blinkArray i).toBlink) =
      [(addition 5).toBlink.started] := congrArg Display.blinks display
  have video := congrArg (Display.video · (2 * 5)) display
  obtain ⟨i, rfl, element⟩ := List.map_eq_singleton_iff.mp blinks
  refine ⟨st, [i], returned, threads.linked, i, List.mem_singleton.mpr rfl, ?_, ?_, ?_, video⟩
  · exact congrArg Blink.location element
  · exact congrArg (Blink.status · &&& 1) element
  · exact congrArg Blink.onChar element

end Linux391.Fish
