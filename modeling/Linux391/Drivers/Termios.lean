import Linux391.Library.Loop
import Linux391.Lib.Strings

/-!
The four virtual terminals of `drivers/termios.c`.

The active terminal is drawn in video memory, the other three in their back
buffers. `screen_buffers` is one contiguous array in the source and one function
here, so a cell index outside the 80 by 25 grid hits a neighbouring terminal's
buffer as it does there. Two ghost flags record what the C code does not check:
`offGrid` is set once a cell index has left 0..1999, and `offBuf` once an input
buffer index has left 0..127.
-/

namespace Linux391

open Loop

/-- `term_data_t`; `screen_buf` of terminal `t` is row `t` of `screen_buffers`
ever since `terminal_init`. -/
structure TermData where
  curX : Int
  curY : Int
  inBuf : Int → UInt8
  inDatIndex : Int
  inDatEnd : Int
  inDatNrRet : Int
  isActive : UInt8
  usrCount : UInt8

structure Terms where
  term : Fin 4 → TermData
  activeTerm : Fin 4
  /-- The cells from `VIDEO_MEM` on. -/
  videoMem : Int → UInt16
  /-- `screen_buffers`, row after row. -/
  screenBuffers : Int → UInt16
  /-- The VGA cursor position last programmed. -/
  cursor : Nat
  offGrid : Bool
  offBuf : Bool

/-- `ATTRIB<<8 | the_char`, stored in 16 bits; the `char` is sign-extended first. -/
def cellOf (theChar : UInt8) : UInt16 := UInt16.ofNat (0x700 ||| uint32 (schar theChar))

/-- The keys with a case of their own. -/
def keyBackspaceCode : UInt8 := 8
def keyTabCode : UInt8 := 9
def keyEnterCode : UInt8 := 10
def keyDeleteCode : UInt8 := 127

namespace Terms

def modify (s : Terms) (t : Fin 4) (f : TermData → TermData) : Terms :=
  { s with term := Function.update s.term t (f (s.term t)) }

/-- The cell at an index of the screen of `t`: video memory if `t` is the active
terminal, its back buffer otherwise. -/
def cell (s : Terms) (t : Fin 4) (index : Int) : UInt16 :=
  if t = s.activeTerm then s.videoMem index else s.screenBuffers (2000 * t.val + index)

/-- A byte stored at an offset into video memory: characters lie at even offsets and
attributes at odd ones. -/
def storeVideo (s : Terms) (offset : Nat) (b : UInt8) : Terms :=
  let i : Int := (offset / 2 : Nat)
  let old := s.videoMem i
  let new : UInt16 := if offset % 2 = 0 then UInt16.ofNat (old.toNat / 256 * 256 + b.toNat)
    else UInt16.ofNat (b.toNat * 256 + old.toNat % 256)
  { s with videoMem := Function.update s.videoMem i new }

/-- Record an access to the cell in column `x` of row `y`. -/
def touch (s : Terms) (x y : Int) : Terms :=
  { s with offGrid := s.offGrid || !decide (0 ≤ y * 80 + x ∧ y * 80 + x < 2000) }

/-- Record an access to an input buffer. -/
def touchBuf (s : Terms) (i : Int) : Terms :=
  { s with offBuf := s.offBuf || !decide (0 ≤ i ∧ i < 128) }

def terminalPutc (s : Terms) (t : Fin 4) (theChar : UInt8) (x y : Int) : Terms :=
  let s := s.touch x y
  if t = s.activeTerm then
    { s with videoMem := Function.update s.videoMem (y * 80 + x) (cellOf theChar) }
  else
    { s with screenBuffers :=
        Function.update s.screenBuffers (2000 * t.val + (y * 80 + x)) (cellOf theChar) }

def terminalGetc (s : Terms) (t : Fin 4) (x y : Int) : UInt8 := (s.cell t (y * 80 + x)).toUInt8

/-- `terminal_putc(t, terminal_getc(t, fromX, fromY), x, y)`. -/
def copyCell (s : Terms) (t : Fin 4) (fromX fromY x y : Int) : Terms :=
  (s.touch fromX fromY).terminalPutc t (s.terminalGetc t fromX fromY) x y

/-- `terminal_refresh` with `terminal_set_cursor`. -/
def terminalRefresh (s : Terms) (t : Fin 4) : Terms :=
  if t = s.activeTerm then
    { s with cursor := (((s.term t).curY * 80 + (s.term t).curX) % 65536).toNat }
  else s

def terminalScrollUp (s : Terms) (t : Fin 4) : Terms :=
  let s := forRange 0 24 (fun y s => forRange 0 80 (fun x s => s.copyCell t x (y + 1) x y) s) s
  let s := forRange 0 80 (fun x s => s.terminalPutc t 32 x 24) s
  s.modify t fun d => { d with curY := d.curY - 1 }

/-- `in_buf[i] = c`. -/
def bufPut (s : Terms) (t : Fin 4) (i : Int) (c : UInt8) : Terms :=
  (s.touchBuf i).modify t fun d => { d with inBuf := Function.update d.inBuf i c }

/-- `dst->in_buf[i] = src->in_buf[j]`. -/
def bufCopy (s : Terms) (dst : Fin 4) (i : Int) (src : Fin 4) (j : Int) : Terms :=
  (s.touchBuf j).bufPut dst i ((s.term src).inBuf j)

/-- Zero the input buffer and its counts. -/
def flushInput (s : Terms) (t : Fin 4) : Terms :=
  let s := forRange 0 128 (fun i s => s.bufPut t i 0) s
  s.modify t fun d => { d with inDatIndex := 0, inDatEnd := 0, inDatNrRet := 0 }

def terminalClear (s : Terms) (t : Fin 4) : Terms :=
  let s := forRange 0 2000 (fun i s => s.terminalPutc t 32 (i % 80) (i / 80)) s
  let s := s.flushInput t
  let s := s.modify t fun d => { d with curX := 0, curY := 0 }
  s.terminalRefresh t

/-! ### Echo and output -/

/-- Scroll if the cursor is on the bottom line, then go to the start of the next
line: the sequence that enter, tab and wrapping share. -/
def nextLine (s : Terms) (t : Fin 4) : Terms :=
  let s := if (s.term t).curY = 24 then s.terminalScrollUp t else s
  s.modify t fun d => { d with curY := d.curY + 1, curX := 0 }

/-- Put a character at the cursor and move on, as both printing branches of
`terminal_handle_key` do. -/
def printAtCursor (s : Terms) (t : Fin 4) (c : UInt8) : Terms :=
  let s := s.terminalPutc t c (s.term t).curX (s.term t).curY
  if (s.term t).curX = 79 then s.nextLine t
  else s.modify t fun d => { d with curX := d.curX + 1 }

def handleBackspace (s : Terms) (t : Fin 4) : Terms :=
  if (s.term t).curX = 0 ∧ (s.term t).curY ≠ 0 then
    let s := s.modify t fun d => { d with curY := d.curY - 1, curX := 79 }
    s.terminalPutc t 32 (s.term t).curX (s.term t).curY
  else
    let s := s.modify t fun d => { d with curX := d.curX - 1 }
    let x := (s.term t).curX
    let y := (s.term t).curY
    let s := forRange x 79 (fun i s => s.copyCell t (i + 1) y i y) s
    -- the loop variable ends at the larger of its start and its bound
    s.terminalPutc t 32 (max x 79) y

/-- The delete case; its loop bound is `TERM_HEIGHT-1` in the source. -/
def handleDelete (s : Terms) (t : Fin 4) : Terms :=
  let x := (s.term t).curX
  let y := (s.term t).curY
  let s := forRange x 24 (fun i s => s.copyCell t (i + 1) y i y) s
  s.terminalPutc t 32 (max x 24 + 1) y

/-- The tab case; C division rounds towards zero. -/
def handleTab (s : Terms) (t : Fin 4) : Terms :=
  let s := s.modify t fun d => { d with curX := (d.curX.tdiv 8 + 1) * 8 }
  if 79 ≤ (s.term t).curX then s.nextLine t else s

def handleDefault (s : Terms) (t : Fin 4) (key scancode control alt : UInt8) : Terms :=
  if control ≠ 0 then
    if key = 108 then s.terminalClear t else s
  else if alt ≠ 0 then s
  else if key ≠ 0 then s.printAtCursor t key
  else if scancode = 0xFF then s.printAtCursor t 32
  else s

/-- `terminal_handle_key`, which always returns 0. -/
def terminalHandleKey (s : Terms) (t : Fin 4) (key scancode control alt : UInt8) : Terms :=
  let s :=
    if key = keyBackspaceCode then s.handleBackspace t
    else if key = keyDeleteCode then s.handleDelete t
    else if key = keyEnterCode then s.nextLine t
    else if key = keyTabCode then s.handleTab t
    else s.handleDefault t key scancode control alt
  s.terminalRefresh t

/-- `terminal_write` by a process attached to `t`; it returns the length. -/
def terminalWrite (s : Terms) (t : Fin 4) (buf : List UInt8) : Terms :=
  buf.foldl (fun s c => s.terminalHandleKey t c 0xFF 0 0) s

/-! ### Input -/

/-- `is_modified` after the switch of `input_process_key`: set in the branches
that change the buffer. -/
def isModified (s : Terms) (t : Fin 4) (key : UInt8) : Bool :=
  if key = keyBackspaceCode then decide ((s.term t).inDatIndex ≠ 0)
  else if key = keyDeleteCode then decide ((s.term t).inDatIndex < (s.term t).inDatEnd)
  else decide (key ≠ 0 ∧ (s.term t).inDatEnd < 128)

/-- Backspace in the buffer: step back and shift the rest of the line left. -/
def eraseInput (s : Terms) (t : Fin 4) : Terms :=
  let s := s.modify t fun d => { d with inDatIndex := d.inDatIndex - 1 }
  let s := forRange (s.term t).inDatIndex ((s.term t).inDatEnd - 1)
    (fun i s => s.bufCopy t i t (i + 1)) s
  s.modify t fun d => { d with inDatEnd := d.inDatEnd - 1 }

/-- Delete in the buffer; the shift starts one place before the index. -/
def deleteInput (s : Terms) (t : Fin 4) : Terms :=
  let s := forRange ((s.term t).inDatIndex - 1) (s.term t).inDatEnd
    (fun i s => s.bufCopy t i t (i + 1)) s
  s.modify t fun d => { d with inDatEnd := d.inDatEnd - 1 }

/-- Any other key: make room at the index and store it there. -/
def insertInput (s : Terms) (t : Fin 4) (key : UInt8) : Terms :=
  let s := s.modify t fun d =>
    { d with inDatEnd := d.inDatEnd + 1, inDatIndex := d.inDatIndex + 1 }
  let s := forRange (s.term t).inDatIndex (s.term t).inDatEnd
    (fun i s => s.bufCopy t i t (i - 1)) s
  let s := s.bufPut t ((s.term t).inDatIndex - 1) key
  if key = keyEnterCode then s.modify t fun d => { d with inDatNrRet := d.inDatNrRet + 1 } else s

/-- The switch of `input_process_key` on one terminal. -/
def editInput (s : Terms) (t : Fin 4) (key : UInt8) : Terms :=
  if key = keyBackspaceCode then
    if (s.term t).inDatIndex = 0 then s else s.eraseInput t
  else if key = keyDeleteCode then
    if (s.term t).inDatIndex < (s.term t).inDatEnd then s.deleteInput t else s
  else if key ≠ 0 ∧ (s.term t).inDatEnd < 128 then s.insertInput t key
  else s

/-- One accepted key on terminal `t`: edit its buffer, then echo the key, or
key 0 when the buffer was not modified. -/
def acceptKey (s : Terms) (t : Fin 4) (key scancode control alt : UInt8) : Terms :=
  (s.editInput t key).terminalHandleKey t (if s.isModified t key then key else 0)
    scancode control alt

/-- `input_process_key`, which always returns 0. -/
def inputProcessKey (s : Terms) (key scancode control alt : UInt8) : Terms :=
  if (s.term s.activeTerm).isActive = 0 then s
  else s.acceptKey s.activeTerm key scancode control alt

/-- The copying loop of `terminal_read` with at most `n` characters to copy from
index `i`: the characters, and `cr_read`. -/
def readLine (inBuf : Int → UInt8) : Nat → Int → List UInt8 × Nat
  | 0, _ => ([], 0)
  | n + 1, i =>
      if inBuf i = 10 then ([inBuf i], 1)
      else
        let rest := readLine inBuf n (i + 1)
        (inBuf i :: rest.1, rest.2)

/-- `terminal_read` by a process attached to `t`: the characters delivered, whose
number it returns, and the new state. `none` is the wait for a newline. The
remainder is moved into the buffer of `active_term`, as in the source. -/
def terminalRead (s : Terms) (t : Fin 4) (len : Int) : Option (List UInt8 × Terms) :=
  if (s.term t).inDatNrRet = 0 then none
  else
    let context := s.term t
    let line := readLine context.inBuf (min context.inDatEnd len).toNat 0
    let i : Int := line.1.length
    let s := { s with offBuf := s.offBuf || decide (128 < line.1.length) }
    let s := forRange 0 (context.inDatEnd - i) (fun j s => s.bufCopy s.activeTerm j t (i + j)) s
    some (line.1, s.modify t fun d =>
      { d with inDatEnd := max 0 (context.inDatEnd - i), inDatIndex := d.inDatIndex - i,
               inDatNrRet := d.inDatNrRet - line.2 })

/-! ### Opening and switching -/

def terminalOpen (s : Terms) (t : Fin 4) : Terms :=
  if (s.term t).usrCount ≠ 0 then s
  else
    let s := s.terminalClear t
    let s := s.flushInput t
    s.modify t fun d => { d with isActive := 1 }

def terminalSwitch (s : Terms) (termNum : Fin 4) : Terms :=
  if termNum = s.activeTerm then s
  else
    let old := s.activeTerm
    let saved : Int → UInt16 := fun k =>
      if 2000 * old.val ≤ k ∧ k < 2000 * old.val + 2000 then s.videoMem (k - 2000 * old.val)
      else s.screenBuffers k
    let shown : Int → UInt16 := fun k =>
      if 0 ≤ k ∧ k < 2000 then saved (2000 * termNum.val + k) else s.videoMem k
    let s := { s with screenBuffers := saved, videoMem := shown }
    let s := s.modify old fun d => { d with isActive := 0 }
    let s := s.modify termNum fun d => { d with isActive := 1 }
    let s := { s with activeTerm := termNum }
    s.terminalRefresh termNum

/-- `terminal_init`: every `term_data_t` zeroed, the first terminal active. -/
def terminalInit (s : Terms) : Terms :=
  { s with
    term := fun _ => ⟨0, 0, fun _ => 0, 0, 0, 0, 0, 0⟩
    activeTerm := 0 }

/-- The terminals after `terminal_init` and the `terminal_open` of the boot sequence. -/
def booted (s : Terms) : Terms := s.terminalInit.terminalOpen 0

/-- Four blank terminals, as before `terminal_init`. -/
def blank : Terms where
  term _ := ⟨0, 0, fun _ => 0, 0, 0, 0, 0, 0⟩
  activeTerm := 0
  videoMem _ := 0
  screenBuffers _ := 0
  cursor := 0
  offGrid := false
  offBuf := false

end Terms

end Linux391
