import Linux391.Drivers.Echo

/-!
The keyboard interrupt (`drivers/keyboard.c`).

The handler counts the make and break codes of the modifiers and turns every other code
into the calls it makes: the switch of Alt with F1 to F4, and `input_process_key` with the
character looked up in `font_data`.

A keyboard sends the make code of a key again while the key is held, and each of these is
counted as one more key pressed. `net` of a key is what its codes add up to: 1 while it is
held and 1 for every repeat there ever was. `modifiers_tracked_iff` gives the streams after
which the counters still tell which modifiers are held.
-/

namespace Linux391

/-! ### The handler -/

def keyCapsLock : UInt8 := 0x3A
def keyLshiftD : UInt8 := 0x2A
def keyRshiftD : UInt8 := 0x36
def keyLshiftU : UInt8 := 0xAA
def keyRshiftU : UInt8 := 0xB6
def keyCtrlD : UInt8 := 0x1D
def keyCtrlU : UInt8 := 0x9D
def keyAltD : UInt8 := 0x38
def keyAltU : UInt8 := 0xB8
def keyF1 : UInt8 := 0x3B
def keyF2 : UInt8 := 0x3C
def keyF3 : UInt8 := 0x3D
def keyF4 : UInt8 := 0x3E
def keyMultiByte : UInt8 := 0xE0

/-- `font_data`, without the zeros that fill up each row to 128 characters: plain, with
shift, with caps lock, with both. -/
def fontData : List (List UInt8) :=
  [
    [0, 27, 49, 50, 51, 52, 53, 54, 55, 56, 57, 48, 45, 61, 8, 9, 113, 119, 101, 114, 116, 121,
     117, 105, 111, 112, 91, 93, 10, 0, 97, 115, 100, 102, 103, 104, 106, 107, 108, 59, 39, 96,
     0, 92, 122, 120, 99, 118, 98, 110, 109, 44, 46, 47, 0, 42, 0, 32, 0, 0, 0, 0, 0, 0, 0, 0, 0,
     0, 0, 0, 0, 0, 0, 0, 45, 0, 0, 0, 43, 10, 0, 0, 0, 127, 0, 0, 0, 0, 0, 0],
    [0, 27, 33, 64, 35, 36, 37, 94, 38, 42, 40, 41, 95, 43, 8, 9, 81, 87, 69, 82, 84, 89, 85, 73,
     79, 80, 123, 125, 10, 0, 65, 83, 68, 70, 71, 72, 74, 75, 76, 58, 34, 126, 0, 124, 90, 88,
     67, 86, 66, 78, 77, 60, 62, 63, 0, 42, 0, 32, 0, 0, 0, 0, 0, 0, 0, 0, 0, 0, 0, 0, 0, 0, 0,
     0, 45, 0, 0, 0, 43, 0, 0, 0, 0, 127, 0, 0, 0, 0, 0, 0],
    [0, 27, 49, 50, 51, 52, 53, 54, 55, 56, 57, 48, 45, 61, 8, 9, 81, 87, 69, 82, 84, 89, 85, 73,
     79, 80, 91, 93, 10, 0, 65, 83, 68, 70, 71, 72, 74, 75, 76, 59, 39, 96, 0, 92, 90, 88, 67,
     86, 66, 78, 77, 44, 46, 47, 0, 42, 0, 32, 0, 0, 0, 0, 0, 0, 0, 0, 0, 0, 0, 0, 0, 0, 0, 0,
     45, 0, 0, 0, 43, 0, 0, 0, 0, 127, 0, 0, 0, 0, 0, 0],
    [0, 27, 33, 64, 35, 36, 37, 94, 38, 42, 40, 41, 95, 43, 8, 9, 113, 119, 101, 114, 116, 121,
     117, 105, 111, 112, 123, 125, 10, 0, 97, 115, 100, 102, 103, 104, 106, 107, 108, 58, 39,
     126, 0, 92, 122, 120, 99, 118, 98, 110, 109, 60, 62, 63, 0, 42, 0, 32, 0, 0, 0, 0, 0, 0, 0,
     0, 0, 0, 0, 0, 0, 0, 0, 0, 45, 0, 0, 0, 43, 0, 0, 0, 0, 127, 0, 0, 0, 0, 0, 0]
  ]

/-- The static variables of the handler. `caps_lock` is 0 or 1 throughout. -/
structure Keyboard where
  capsLock : Bool
  shift : BitVec 32
  control : UInt8
  alt : UInt8
  deriving DecidableEq, Repr

/-- What the handler calls. With F2 to F4 the switch is followed by the start of a shell if
the terminal has none. -/
inductive KeyAction where
  | altFn (t : Fin 4)
  | inputProcessKey (key scancode control alt : UInt8)
  deriving DecidableEq, Repr

namespace Keyboard

def init : Keyboard := ⟨false, 0, 0, 0⟩

/-- The row of `font_data`. -/
def fontRow (kb : Keyboard) : Nat :=
  (if kb.capsLock then 2 else 0) + if 0 < kb.shift.toInt then 1 else 0

/-- The character of a code. Code 0x80 passes the test too and reads the first character of
the next row; `beyond` is what follows the last one. -/
def font (kb : Keyboard) (beyond keyPressed : UInt8) : UInt8 :=
  if keyPressed < 0x81 then
    let i := 128 * kb.fontRow + keyPressed.toNat
    if i < 512 then (fontData.getD (i / 128) []).getD (i % 128) 0 else beyond
  else 0

/-- The case of a function key, by the number of its terminal: nothing without alt. -/
def altFn (kb : Keyboard) (n : Nat) : List KeyAction :=
  if kb.alt ≠ 0 then [.altFn ⟨n % 4, Nat.mod_lt n (by decide)⟩] else []

/-- The `switch` of the handler. -/
def handleSwitch (kb : Keyboard) (keyPressed : UInt8) : Keyboard × List KeyAction :=
  if keyPressed = keyCtrlD then ({ kb with control := kb.control + 1 }, [])
  else if keyPressed = keyCtrlU then ({ kb with control := kb.control - 1 }, [])
  else if keyPressed = keyAltD then ({ kb with alt := kb.alt + 1 }, [])
  else if keyPressed = keyAltU then ({ kb with alt := kb.alt - 1 }, [])
  else if keyPressed = keyF1 then (kb, kb.altFn 0)
  else if keyPressed = keyF2 then (kb, kb.altFn 1)
  else if keyPressed = keyF3 then (kb, kb.altFn 2)
  else if keyPressed = keyF4 then (kb, kb.altFn 3)
  else (kb, [])

/-- `keyboard_handler` on the code it reads from the port. -/
def handler (kb : Keyboard) (beyond keyPressed : UInt8) : Keyboard × List KeyAction :=
  if keyPressed = keyCapsLock then ({ kb with capsLock := !kb.capsLock }, [])
  else if keyPressed = keyLshiftD ∨ keyPressed = keyRshiftD then
    ({ kb with shift := kb.shift + 1 }, [])
  else if keyPressed = keyLshiftU ∨ keyPressed = keyRshiftU then
    ({ kb with shift := kb.shift - 1 }, [])
  else
    let font := kb.font beyond keyPressed
    let (kb, actions) := kb.handleSwitch keyPressed
    (kb, actions ++ [.inputProcessKey font keyPressed kb.control kb.alt])

/-- The variables after a stream of codes. -/
def handleAll (beyond : UInt8) (kb : Keyboard) (codes : List UInt8) : Keyboard :=
  codes.foldl (fun kb code => (kb.handler beyond code).1) kb

/-- The `switch` calls nothing, or what a function key calls. -/
theorem actions_handleSwitch (kb : Keyboard) (code : UInt8) :
    (kb.handleSwitch code).2 = [] ∨ ∃ t, (kb.handleSwitch code).2 = kb.altFn t := by
  unfold handleSwitch
  repeat' refine iteInduction (motive := fun r : Keyboard × List KeyAction =>
    r.2 = [] ∨ ∃ t, r.2 = kb.altFn t) (fun _ => ?_) fun _ => ?_
  -- the modifiers, the function keys, any other code
  iterate 4 exact .inl rfl
  iterate 4 exact .inr ⟨_, rfl⟩
  exact .inl rfl

theorem inputProcessKey_notMem_handleSwitch (kb : Keyboard)
    (code key scancode control alt : UInt8) :
    KeyAction.inputProcessKey key scancode control alt ∉ (kb.handleSwitch code).2 := by
  rcases actions_handleSwitch kb code with none | ⟨t, fn⟩
  · rw [none]
    exact List.not_mem_nil
  · rw [fn, altFn]
    split_ifs <;> simp

/-- A character is handed on only with the code it was looked up for, which is not the 0xFF
that marks output. -/
theorem typesChar_of_handler {kb : Keyboard} {beyond code key scancode control alt : UInt8}
    (calls : KeyAction.inputProcessKey key scancode control alt ∈ (kb.handler beyond code).2)
    (typed : key = keyBackspaceCode ∨ 32 ≤ key ∧ key ≤ 126) :
    Terms.TypesChar (key, scancode) := by
  refine ⟨typed, ?_⟩
  have found : key = kb.font beyond code ∧ scancode = code := by
    unfold handler at calls
    split_ifs at calls
    · cases calls
    · cases calls
    · cases calls
    · rcases List.mem_append.mp calls with switch | last
      · exact absurd switch (inputProcessKey_notMem_handleSwitch kb _ _ _ _ _)
      · cases List.mem_singleton.mp last
        exact ⟨rfl, rfl⟩
  obtain ⟨rfl, rfl⟩ := found
  rintro rfl
  have none : kb.font beyond 0xFF = 0 := if_neg (by decide)
  rw [none] at typed
  exact absurd typed (by decide)

/-! ### What each code does to the counters -/

/-- The codes that count. -/
def IsModifierCode (code : UInt8) : Prop :=
  code = keyLshiftD ∨ code = keyRshiftD ∨ code = keyLshiftU ∨ code = keyRshiftU ∨
    code = keyCtrlD ∨ code = keyCtrlU ∨ code = keyAltD ∨ code = keyAltU

instance (code : UInt8) : Decidable (IsModifierCode code) := by
  unfold IsModifierCode
  infer_instance

theorem handler_other (kb : Keyboard) (beyond : UInt8) {code : UInt8}
    (other : ¬ IsModifierCode code) :
    (kb.handler beyond code).1.shift = kb.shift ∧
      (kb.handler beyond code).1.control = kb.control ∧
      (kb.handler beyond code).1.alt = kb.alt := by
  simp only [IsModifierCode, not_or] at other
  obtain ⟨h1, h2, h3, h4, h5, h6, h7, h8⟩ := other
  unfold handler handleSwitch
  simp only [h1, h2, h3, h4, h5, h6, h7, h8, if_false, or_self]
  split_ifs <;> exact ⟨rfl, rfl, rfl⟩

end Keyboard

/-! ### Keys and what they send -/

/-- The make codes of keys that are no modifiers. -/
def IsOrdinaryCode (code : UInt8) : Prop := code < 0x80 ∧ ¬ Keyboard.IsModifierCode code

/-- A key that is no modifier: its make code, and whether its codes follow 0xE0. -/
structure OrdinaryKey where
  extended : Bool
  code : UInt8
  isOrdinary : IsOrdinaryCode code
  deriving DecidableEq

inductive Key where
  | lshift
  | rshift
  | control
  | alt
  | ordinary (o : OrdinaryKey)
  deriving DecidableEq

/-- A key goes down, or repeats while it is down, or goes up. -/
inductive Stroke where
  | make (k : Key)
  | release (k : Key)

namespace Key

def make : Key → UInt8
  | lshift => keyLshiftD
  | rshift => keyRshiftD
  | control => keyCtrlD
  | alt => keyAltD
  | ordinary o => o.code

/-- The break code is the make code with its top bit set. -/
def release (k : Key) : UInt8 := k.make ||| 0x80

/-- The codes of a key that come before each of its own. -/
def lead : Key → List UInt8
  | ordinary ⟨true, _, _⟩ => [keyMultiByte]
  | _ => []

/-- No code of an ordinary key counts as a modifier's. -/
theorem release_other (o : OrdinaryKey) : ¬ Keyboard.IsModifierCode (ordinary o).release := by
  have table : ∀ n < 128, ¬ Keyboard.IsModifierCode (UInt8.ofNat n) →
      ¬ Keyboard.IsModifierCode (UInt8.ofNat n ||| 0x80) := by
    decide +kernel
  have row := table o.code.toNat o.isOrdinary.1
  rw [UInt8.ofNat_toNat] at row
  exact row o.isOrdinary.2

end Key

namespace Stroke

def codes : Stroke → List UInt8
  | make k => k.lead ++ [k.make]
  | release k => k.lead ++ [k.release]

/-- The code of a stroke itself. -/
def code : Stroke → UInt8
  | make k => k.make
  | release k => k.release

/-- What a stroke adds to the count of a key. -/
def delta (k : Key) : Stroke → Int
  | make k' => if k' = k then 1 else 0
  | release k' => if k' = k then -1 else 0

/-- Make codes less break codes of a key. -/
def net (k : Key) (strokes : List Stroke) : Int := (strokes.map (delta k)).sum

end Stroke

namespace Keyboard

/-- The counters read `n`, each modulo its width. -/
structure Reads (kb : Keyboard) (n : Key → Int) : Prop where
  shift : kb.shift = BitVec.ofInt 32 (n .lshift + n .rshift)
  control : kb.control = UInt8.ofInt (n .control)
  alt : kb.alt = UInt8.ofInt (n .alt)

variable {kb : Keyboard} {n : Key → Int} {beyond : UInt8}

theorem Reads.other (reads : kb.Reads n) {code : UInt8} (other : ¬ IsModifierCode code) :
    (kb.handler beyond code).1.Reads n := by
  obtain ⟨shift, control, alt⟩ := kb.handler_other beyond other
  exact ⟨shift.trans reads.shift, control.trans reads.control, alt.trans reads.alt⟩

theorem Reads.lead (reads : kb.Reads n) (k : Key) : (handleAll beyond kb k.lead).Reads n := by
  unfold Key.lead
  split
  · exact reads.other (by decide)
  · exact reads

@[simp] theorem ofInt_zero_byte : UInt8.ofInt 0 = 0 := rfl

/-- On the code of a stroke the handler counts what the stroke adds. -/
theorem handler_stroke (kb : Keyboard) (beyond : UInt8) (s : Stroke) :
    (kb.handler beyond s.code).1.shift =
        kb.shift + BitVec.ofInt 32 (s.delta .lshift + s.delta .rshift) ∧
      (kb.handler beyond s.code).1.control = kb.control + UInt8.ofInt (s.delta .control) ∧
      (kb.handler beyond s.code).1.alt = kb.alt + UInt8.ofInt (s.delta .alt) := by
  have releases : Key.lshift.release = keyLshiftU ∧ Key.rshift.release = keyRshiftU ∧
      Key.control.release = keyCtrlU ∧ Key.alt.release = keyAltU := by decide
  rcases s with (_ | _ | _ | _ | o) | (_ | _ | _ | _ | o)
  case make.ordinary =>
    simpa [Stroke.code, Key.make, Stroke.delta] using kb.handler_other beyond o.isOrdinary.2
  case release.ordinary =>
    simpa [Stroke.code, Stroke.delta] using kb.handler_other beyond (Key.release_other o)
  -- the modifiers, down and up
  all_goals simp [handler, handleSwitch, Stroke.code, Key.make, releases, Stroke.delta, keyLshiftD,
    keyRshiftD, keyLshiftU, keyRshiftU, keyCtrlD, keyCtrlU, keyAltD, keyAltU, keyCapsLock,
    BitVec.sub_eq_add_neg, UInt8.sub_eq_add_neg]

theorem Reads.code (reads : kb.Reads n) (s : Stroke) :
    (kb.handler beyond s.code).1.Reads fun k => n k + s.delta k := by
  obtain ⟨shift, control, alt⟩ := kb.handler_stroke beyond s
  constructor
  · rw [shift, reads.shift, ← BitVec.ofInt_add]
    congr 1
    omega
  · rw [control, reads.control, ← UInt8.ofInt_add]
  · rw [alt, reads.alt, ← UInt8.ofInt_add]

/-- A whole stroke counts for its key. -/
theorem Reads.stroke (reads : kb.Reads n) (beyond : UInt8) (s : Stroke) :
    (handleAll beyond kb s.codes).Reads fun k => n k + s.delta k := by
  cases s with
  | make k =>
      simp only [Stroke.codes, handleAll, List.foldl_append, List.foldl_cons, List.foldl_nil]
      exact (reads.lead k).code (.make k)
  | release k =>
      simp only [Stroke.codes, handleAll, List.foldl_append, List.foldl_cons, List.foldl_nil]
      exact (reads.lead k).code (.release k)

/-- After any stream of strokes each counter has added up its own codes. -/
theorem Reads.strokes (reads : kb.Reads n) (beyond : UInt8) (strokes : List Stroke) :
    (handleAll beyond kb (strokes.flatMap Stroke.codes)).Reads
      fun k => n k + Stroke.net k strokes := by
  induction strokes generalizing kb n with
  | nil => simpa [handleAll, Stroke.net] using reads
  | cons s rest ih =>
      have step := ih (reads.stroke beyond s)
      simp only [List.flatMap_cons, handleAll, List.foldl_append, Stroke.net, List.map_cons,
        List.sum_cons, ← Int.add_assoc] at step ⊢
      exact step

/-- Nothing is counted before the first stroke. -/
theorem reads_init : init.Reads fun _ => 0 := ⟨rfl, rfl, rfl⟩

end Keyboard

/-! ### Keys held -/

/-- The keys that are down, and how often each has repeated. -/
structure Held where
  down : Key → Bool
  repeats : Key → Nat

namespace Held

def none : Held := ⟨fun _ => false, fun _ => 0⟩

def stroke (h : Held) : Stroke → Held
  | .make k =>
      if h.down k then { h with repeats := Function.update h.repeats k (h.repeats k + 1) }
      else { h with down := Function.update h.down k true }
  | .release k => { h with down := Function.update h.down k false }

/-- The state of the keys after a stream. -/
def after (h : Held) (strokes : List Stroke) : Held := strokes.foldl stroke h

/-- The streams that a keyboard can send: only a key that is down goes up. -/
def CanSend (h : Held) : List Stroke → Prop
  | [] => True
  | .make k :: rest => CanSend (h.stroke (.make k)) rest
  | .release k :: rest => h.down k = true ∧ CanSend (h.stroke (.release k)) rest

/-- 1 for a key that is down, and 1 for each of its repeats. -/
def count (h : Held) (k : Key) : Int := (if h.down k then 1 else 0) + h.repeats k

theorem count_make (h : Held) (k k' : Key) :
    (h.stroke (.make k)).count k' = h.count k' + (Stroke.make k).delta k' := by
  simp only [stroke, Stroke.delta]
  by_cases same : k = k'
  · subst same
    cases down : h.down k with
    | false => simp [count, down, Int.add_comm]
    | true => simp [count, down, Int.add_assoc]
  · cases down : h.down k <;> simp [count, same, Function.update_of_ne (Ne.symm same)]

theorem count_release {h : Held} {k : Key} (down : h.down k = true) (k' : Key) :
    (h.stroke (.release k)).count k' = h.count k' + (Stroke.release k).delta k' := by
  simp only [stroke, Stroke.delta]
  by_cases same : k = k'
  · subst same
    simp only [count, down, Function.update_self, if_true]
    simp
  · simp [count, same, Function.update_of_ne (Ne.symm same)]

/-- Make codes less break codes of a key count it once while it is down, and once for each
repeat. -/
theorem count_after {h : Held} {strokes : List Stroke} (sent : h.CanSend strokes) (k : Key) :
    (h.after strokes).count k = h.count k + Stroke.net k strokes := by
  induction strokes generalizing h with
  | nil => simp [after, Stroke.net]
  | cons s rest ih =>
      have unfold_net : Stroke.net k (s :: rest) = s.delta k + Stroke.net k rest := by
        simp [Stroke.net]
      rw [unfold_net, ← Int.add_assoc]
      cases s with
      | make k' =>
          rw [← count_make]
          exact ih sent
      | release k' =>
          rw [← count_release sent.1]
          exact ih sent.2

/-- The repeats of a key leave its 8-bit counter as it should be. -/
def ByteHarmless (h : Held) (k : Key) : Prop :=
  if h.down k then (h.repeats k + 1) % 256 ≠ 0 else h.repeats k % 256 = 0

/-- The repeats of both shift keys leave their common counter positive while one of them is
down, and otherwise not. -/
def ShiftHarmless (h : Held) : Prop :=
  let shifts := (h.count .lshift + h.count .rshift) % 2 ^ 32
  if h.down .lshift ∨ h.down .rshift then 0 < shifts ∧ shifts < 2 ^ 31
  else shifts = 0 ∨ 2 ^ 31 ≤ shifts

end Held

/-- What the handler's variables are meant to tell. -/
structure Keyboard.Tracks (kb : Keyboard) (h : Held) : Prop where
  shift : 0 < kb.shift.toInt ↔ h.down .lshift ∨ h.down .rshift
  control : kb.control ≠ 0 ↔ h.down .control
  alt : kb.alt ≠ 0 ↔ h.down .alt

theorem Held.byteHarmless_iff (h : Held) (k : Key) :
    (UInt8.ofInt (h.count k) ≠ 0 ↔ h.down k = true) ↔ h.ByteHarmless k := by
  have zero : ∀ m : Nat, UInt8.ofInt (m : Int) = 0 ↔ m % 256 = 0 := by
    intro m
    rw [UInt8.ofInt, ← UInt8.toNat_inj, UInt8.toNat_ofNat']
    simp only [UInt8.toNat_zero]
    omega
  unfold ByteHarmless count
  cases h.down k with
  | false => simpa using zero (h.repeats k)
  | true =>
      have last := zero (h.repeats k + 1)
      rw [Int.natCast_add, Int.add_comm] at last
      simpa using not_congr last

theorem Held.shiftHarmless_iff (h : Held) :
    (0 < (BitVec.ofInt 32 (h.count .lshift + h.count .rshift)).toInt ↔
      h.down .lshift ∨ h.down .rshift) ↔ h.ShiftHarmless := by
  have positive : ∀ m : Int, 0 < (BitVec.ofInt 32 m).toInt ↔
      0 < m % 2 ^ 32 ∧ m % 2 ^ 32 < 2 ^ 31 := by
    intro m
    rw [BitVec.toInt_ofInt, Int.bmod_def]
    split_ifs <;> omega
  rw [positive]
  simp only [ShiftHarmless]
  have low : 0 ≤ (h.count .lshift + h.count .rshift) % 2 ^ 32 := Int.emod_nonneg _ (by decide)
  generalize (h.count .lshift + h.count .rshift) % 2 ^ 32 = shifts at *
  split_ifs with down
  · simp [down]
  · simp [down]
    omega

/-- Every stream a keyboard can send, with any repeats, and whatever lies behind the table:
after it the handler's counters tell which modifiers are held exactly if the repeats are
harmless. -/
theorem modifiers_tracked_iff (beyond : UInt8) (strokes : List Stroke)
    (sent : Held.none.CanSend strokes) :
    (Keyboard.handleAll beyond .init (strokes.flatMap Stroke.codes)).Tracks
        (Held.none.after strokes) ↔
      (Held.none.after strokes).ShiftHarmless ∧ (Held.none.after strokes).ByteHarmless .control ∧
        (Held.none.after strokes).ByteHarmless .alt := by
  have reads := Keyboard.reads_init.strokes beyond strokes
  have counts : ∀ k, (0 : Int) + Stroke.net k strokes = (Held.none.after strokes).count k := by
    intro k
    rw [Held.count_after sent]
    rfl
  simp only [counts] at reads
  rw [← Held.shiftHarmless_iff, ← Held.byteHarmless_iff, ← Held.byteHarmless_iff, ← reads.shift,
    ← reads.control, ← reads.alt]
  exact ⟨fun ⟨shift, control, alt⟩ => ⟨shift, control, alt⟩,
    fun ⟨shift, control, alt⟩ => ⟨shift, control, alt⟩⟩

/-- Shift and the A key go down and up, control goes down and stays. -/
def Stroke.sampleTyping : List Stroke :=
  let a : Key := .ordinary ⟨false, 0x1E, by decide, by decide⟩
  [.make .lshift, .make a, .release a, .release .lshift, .make .control]

theorem modifiers_tracked_typing :
    Held.none.CanSend Stroke.sampleTyping ∧
      (Keyboard.handleAll 0 .init (Stroke.sampleTyping.flatMap Stroke.codes)).Tracks
        (Held.none.after Stroke.sampleTyping) := by
  have sent : Held.none.CanSend Stroke.sampleTyping := ⟨by decide, by decide, trivial⟩
  refine ⟨sent, (modifiers_tracked_iff 0 _ sent).mpr ⟨?_, ?_, ?_⟩⟩
  · unfold Held.ShiftHarmless
    decide
  · unfold Held.ByteHarmless
    decide
  · unfold Held.ByteHarmless
    decide

/-- Control repeats once before it goes up. It counts as held from then on. -/
theorem control_stuck_after_repeat :
    Held.none.CanSend [.make .control, .make .control, .release .control] ∧
      (Held.none.after [.make .control, .make .control, .release .control]).down .control = false ∧
      (Keyboard.handleAll 0 .init
        ([.make .control, .make .control, .release .control].flatMap Stroke.codes)).control = 1 :=
  ⟨⟨by decide, trivial⟩, by decide, by decide⟩

end Linux391
