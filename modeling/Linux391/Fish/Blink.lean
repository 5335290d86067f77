import Linux391.Library.Chain
import Mathlib.Data.List.FinRange

/-!
The blinking characters of the `fish` program (`fish/blink.S`, `fish/fish.c`).

The characters to blink are kept in a list that is threaded through the slots of `blink_array`. A
slot is free, for `mp1_malloc`, when its location is 0; `mp1_ioctl` adds, removes, finds and
synchronises elements, and `mp1_rtc_tasklet` walks the list once per interrupt.

A pointer into the array is its slot, `none` is `NULL`. The structure the caller passes holds an
arbitrary word where the pointer is. The loops take fuel, and `none` is the answer of a routine that
does not return: its loop goes on, or it has left the array through a null pointer.
-/

namespace Linux391.Fish

/-- `80*25`: the places on the screen, and the slots of `blink_array`. -/
def places : Nat := 80 * 25

abbrev Slot := Fin places

/-- The fields of `struct mp1_blink_struct` before `next`. -/
@[ext]
structure Blink where
  location : UInt16
  onChar : UInt8
  offChar : UInt8
  onLength : UInt16
  offLength : UInt16
  countdown : UInt16
  status : UInt16
  deriving DecidableEq

/-- `struct mp1_blink_struct`. -/
@[ext]
structure Mp1BlinkStruct (Pointer : Type) extends Blink where
  next : Pointer

/-- A slot of zeros. -/
def zeroSlot : Mp1BlinkStruct (Option Slot) where
  location := 0
  onChar := 0
  offChar := 0
  onLength := 0
  offLength := 0
  countdown := 0
  status := 0
  next := none

structure State where
  blinkArray : Slot → Mp1BlinkStruct (Option Slot)
  mp1ListHead : Option Slot
  /-- The bytes behind `vmem_base_addr`. -/
  video : Nat → UInt8

namespace State

/-- The state `main` starts with, whatever is on the screen. -/
def zeroed (video : Nat → UInt8) : State := ⟨fun _ => zeroSlot, none, video⟩

def next (st : State) (e : Slot) : Option Slot := (st.blinkArray e).next

def store (st : State) (e : Slot) (blink : Mp1BlinkStruct (Option Slot)) : State :=
  { st with blinkArray := Function.update st.blinkArray e blink }

/-- `movl p, (%edx)` for the address of the head or of the link in a slot. -/
def setLink (st : State) (link p : Option Slot) : State :=
  match link with
  | none => { st with mp1ListHead := p }
  | some i => st.store i { st.blinkArray i with next := p }

end State

/-! ### Slots and the screen -/

def mp1Poke (c : UInt8) (offset : Nat) (st : State) : State :=
  { st with video := Function.update st.video offset c }

/-- The first slot with location 0. -/
def mp1Malloc (st : State) : Option Slot :=
  (List.finRange places).find? fun i => (st.blinkArray i).location = 0

def mp1Free (st : State) (e : Slot) : State := st.store e zeroSlot

/-! ### The tasklet -/

/-- The body of `tasklet_loop` for the element `e`. -/
def taskletBody (st : State) (e : Slot) : State :=
  let blink := st.blinkArray e
  -- `decw`
  let countdown := blink.countdown - 1
  -- `jg` compares signed
  if 0 < countdown.toInt16 then
    st.store e { blink with countdown }
  else
    let offset := blink.location.toNat * 2
    let status := blink.status ^^^ 1
    if blink.status &&& 1 = 0 then
      (mp1Poke blink.onChar offset st).store e { blink with countdown := blink.onLength, status }
    else
      (mp1Poke blink.offChar offset st).store e { blink with countdown := blink.offLength, status }

def taskletLoop : Nat → Option Slot → State → Option State
  | 0, _, _ => none
  | _ + 1, none, st => some st
  | fuel + 1, some e, st =>
      let st := taskletBody st e
      taskletLoop fuel (st.next e) st

def mp1RtcTasklet (fuel : Nat) (st : State) : Option State := taskletLoop fuel st.mp1ListHead st

/-! ### The four requests -/

/-- The first element with the location in the low half of `arg`, or `NULL`. -/
def mp1FindHelper (fuel : Nat) (st : State) (arg : UInt32) : Option (Option Slot) :=
  Chain.findFrom st.next (fun e => (st.blinkArray e).location = arg.toUInt16) fuel st.mp1ListHead

/-- A new element: on, with its full time to go. -/
def Blink.started (blink : Blink) : Blink := { blink with status := 1, countdown := blink.onLength }

/-- The slot `e` becomes the first element, and is shown. The `next` that was copied with the rest is
overwritten before it is read. -/
def insertFront (st : State) (e : Slot) (temp : Blink) : State :=
  mp1Poke temp.onChar (temp.location.toNat * 2)
    { st.store e { temp with next := st.mp1ListHead } with mp1ListHead := some e }

def mp1IoctlAdd (st : State) (user : Mp1BlinkStruct UInt32) : Int × State :=
  -- `cmpw $80*25` and `jae`: unsigned
  if places ≤ user.location.toNat then (-1, st)
  else match mp1Malloc st with
    | none => (-1, st)
    | some e => (0, insertFront st e user.toBlink.started)

def mp1IoctlRemove (fuel : Nat) (st : State) (arg : UInt32) : Option (Int × State) := do
  match ← mp1FindHelper fuel st arg with
  | none => return (-1, st)
  | some e =>
      let link ← Chain.linkTo st.next st.mp1ListHead e fuel none
      return (0, mp1Free (st.setLink link (st.next e)) e)

/-- The value returned, and the element that is copied to the caller. -/
def mp1IoctlFind (fuel : Nat) (st : State) (location : UInt16) :
    Option (Int × Option (Mp1BlinkStruct (Option Slot))) := do
  match ← mp1FindHelper fuel st location.toUInt32 with
  | none => return (-1, none)
  | some e => return (0, some (st.blinkArray e))

/-- The times and the phase of `source`, on the element `blink`. -/
def Blink.synced (blink source : Blink) : Blink :=
  { blink with
    onLength := source.onLength
    offLength := source.offLength
    countdown := source.countdown
    status := source.status }

def mp1IoctlSync (fuel : Nat) (st : State) (arg : UInt32) : Option (Int × State) := do
  match ← mp1FindHelper fuel st (arg >>> 16) with
  | none => return (-1, st)
  | some source =>
      match ← mp1FindHelper fuel st (arg &&& 0xFFFF) with
      | none => return (-1, st)
      | some e =>
          let blink := (st.blinkArray e).synced (st.blinkArray source).toBlink
          -- `cmovl` after `testb $0x1`: the overflow flag is clear, so it asks for the sign of the and
          let c := if (blink.status.toUInt8 &&& 1).toInt8 < 0 then blink.onChar else blink.offChar
          return (0, mp1Poke c (blink.location.toNat * 2)
            (st.store e { blink with next := st.next e }))

/-- The requests, with what the caller passes. -/
inductive Request
  | add (user : Mp1BlinkStruct UInt32)
  | remove (arg : UInt32)
  | find (location : UInt16)
  | sync (arg : UInt32)

/-- `mp1_ioctl`, the jump through `call_table`. -/
def mp1Ioctl (fuel : Nat) (st : State) : Request → Option (Int × State)
  | .add user => some (mp1IoctlAdd st user)
  | .remove arg => mp1IoctlRemove fuel st arg
  | .find location => (mp1IoctlFind fuel st location).map fun reply => (reply.1, st)
  | .sync arg => mp1IoctlSync fuel st arg

/-- What the program does with the list: a request or a run of the tasklet. -/
inductive Event
  | ioctl (request : Request)
  | tasklet

def step (fuel : Nat) (st : State) : Event → Option State
  | .ioctl request => (mp1Ioctl fuel st request).map Prod.snd
  | .tasklet => mp1RtcTasklet fuel st

def run (fuel : Nat) (st : State) (events : List Event) : Option State :=
  events.foldlM (step fuel) st

end Linux391.Fish
