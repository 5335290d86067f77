import Linux391.Drivers.FsRead
import Linux391.Kernel.Descriptors

/-!
Sequential reads deliver the file.

After `file_open` of a regular file, the reads made through its descriptor return
the file's bytes in order, however they are chunked and whatever is read through
the other descriptors in between. The invariant (`Reading`) is that `file_position`
counts the bytes delivered so far, and these are a prefix of the file.
-/

namespace Linux391

open Memory

/-- A call of `file_read` or `dir_read` by a process. -/
inductive ReadCall where
  | file (fd : Fin 8) (bufNull : Bool) (bytes : Nat)
  | dir (fd : Fin 8)

namespace ReadCall

def fd : ReadCall → Fin 8
  | .file fd _ _ => fd
  | .dir fd => fd

/-- How many bytes a call asks for through descriptor `own`. -/
def asked (own : Fin 8) : ReadCall → Nat
  | .file fd _ bytes => if fd = own then bytes else 0
  | .dir _ => 0

end ReadCall

namespace Platform

variable (P : Platform)

def readCall (k : Kernel) : ReadCall → Io
  | .file fd bufNull bytes => P.fileRead k fd bufNull bytes
  | .dir fd => P.dirRead k fd

/-- A sequence of calls: the final state, and the bytes returned through descriptor
`own`, which are the first `value` bytes of its buffers. -/
def readCalls (own : Fin 8) (k : Kernel) (calls : List ReadCall) : Kernel × List UInt8 :=
  calls.foldl (fun r c =>
    let io := P.readCall r.1 c
    (io.kernel, if c.fd = own then r.2 ++ io.stored.take io.value.toNat else r.2)) (k, [])

variable {P}

/-- The running process is `p`, and its descriptor `fd` is in the middle of reading
the file of `inode`, with `count` bytes delivered. -/
structure Reading (p : Nat) (fd : Fin 8) (inode count : Nat) (k : Kernel) : Prop where
  here : k.curr = getPcb p
  isOpen : k.field (.flags fd) ≠ 0
  inode_eq : k.field (.inodePtr fd) = inode
  position_eq : k.field (.filePosition fd) = count

/-- Moving another descriptor's position does not disturb the reader. -/
theorem Reading.setPosition {p : Nat} {fd fd' : Fin 8} {inode count v : Nat} {k : Kernel}
    (h : Reading p fd inode count k) (lt : p < 16) (ne : fd' ≠ fd) :
    Reading p fd inode count (k.setField (.filePosition fd') v) where
  here := h.here
  isOpen := by
    rw [Kernel.field_setField h.here lt, if_neg (by simp)]
    exact h.isOpen
  inode_eq := by
    rw [Kernel.field_setField h.here lt, if_neg (by simp)]
    exact h.inode_eq
  position_eq := by
    rw [Kernel.field_setField h.here lt, if_neg (by simpa using ne)]
    exact h.position_eq

/-- A call through another descriptor. -/
theorem Reading.other {p : Nat} {fd : Fin 8} {inode count : Nat} {k : Kernel}
    (h : Reading p fd inode count k) (lt : p < 16) {c : ReadCall} (ne : c.fd ≠ fd) :
    Reading p fd inode count (P.readCall k c).kernel := by
  cases c with
  | file fd' bufNull bytes =>
      simp only [readCall, fileRead]
      split
      · exact h
      · exact h.setPosition lt ne
  | dir fd' =>
      simp only [readCall, dirRead]
      split
      · exact h
      · exact h.setPosition lt ne

/-- A call through the reader's own descriptor delivers the next bytes. -/
theorem Reading.own {p : Nat} {fd : Fin 8} {inode count : Nat} {k : Kernel}
    (h : Reading p fd inode count k) (lt : p < 16) (fits : P.fs.Fits)
    (file : P.fs.RegularFile inode) (inside : count ≤ P.fs.fileLength inode) (bytes : Nat) :
    let io := P.fileRead k fd false bytes
    let n := min bytes (P.fs.fileLength inode - count)
    io.value = n ∧ io.stored.take n = P.fs.fileBytes inode count n ∧
      Reading p fd inode (count + n) io.kernel := by
  intro io n
  obtain ⟨value, stored⟩ := Fs.readData_spec fits file count bytes inside
  have eq : io = ⟨(P.fs.readData inode count false bytes).value,
      (P.fs.readData inode count false bytes).stored,
      k.setField (.filePosition fd)
        (uint32 (count + (P.fs.readData inode count false bytes).value))⟩ := by
    simp only [io, fileRead, if_neg h.isOpen, h.inode_eq, h.position_eq]
  have short := file.length_le
  have position : uint32 ((count : Int) + n) = count + n := by
    unfold uint32
    omega
  rw [eq]
  refine ⟨value, stored, ⟨h.here, ?_, ?_, ?_⟩⟩
  · rw [Kernel.field_setField h.here lt, if_neg (by simp)]
    exact h.isOpen
  · rw [Kernel.field_setField h.here lt, if_neg (by simp)]
    exact h.inode_eq
  · rw [Kernel.field_setField h.here lt, if_pos rfl, value, position]
    exact Nat.mod_eq_of_lt (show count + n < 2 ^ 32 by omega)

theorem readCalls_append (own : Fin 8) (k : Kernel) (calls : List ReadCall) (c : ReadCall) :
    P.readCalls own k (calls ++ [c]) =
      let r := P.readCalls own k calls
      let io := P.readCall r.1 c
      (io.kernel, if c.fd = own then r.2 ++ io.stored.take io.value.toNat else r.2) := by
  simp [readCalls, List.foldl_append]

/-- Calls that use the descriptor read the file with it. -/
def ReadsOwn (own : Fin 8) (c : ReadCall) : Prop :=
  c.fd = own → ∃ bytes, 0 < bytes ∧ c = .file own false bytes

/-- The bytes delivered by any sequence of calls are a prefix of the file, and the
position is their number. -/
theorem Reading.calls {p : Nat} {fd : Fin 8} {inode : Nat} {k : Kernel}
    (start : Reading p fd inode 0 k) (lt : p < 16) (fits : P.fs.Fits)
    (file : P.fs.RegularFile inode) (calls : List ReadCall)
    (own : ∀ c ∈ calls, ReadsOwn fd c) :
    let count := min (calls.map (ReadCall.asked fd)).sum (P.fs.fileLength inode)
    Reading p fd inode count (P.readCalls fd k calls).1 ∧
      (P.readCalls fd k calls).2 = P.fs.fileBytes inode 0 count := by
  induction calls using List.reverseRecOn with
  | nil => exact ⟨by simpa [readCalls] using start, by simp [readCalls, Fs.fileBytes]⟩
  | append_singleton calls c ih =>
      obtain ⟨reading, delivered⟩ := ih fun c' mem => own c' (by simp [mem])
      rw [readCalls_append]
      by_cases mine : c.fd = fd
      · obtain ⟨bytes, _, rfl⟩ := own c (by simp) mine
        obtain ⟨value, stored, next⟩ :=
          reading.own lt fits file (Nat.min_le_right _ _) bytes
        have more : min ((calls ++ [ReadCall.file fd false bytes]).map (ReadCall.asked fd)).sum
            (P.fs.fileLength inode) =
            min (calls.map (ReadCall.asked fd)).sum (P.fs.fileLength inode) +
              min bytes (P.fs.fileLength inode -
                min (calls.map (ReadCall.asked fd)).sum (P.fs.fileLength inode)) := by
          simp [ReadCall.asked]
          omega
        rw [more]
        refine ⟨next, ?_⟩
        simp only [readCall, ReadCall.fd, if_true, value, Int.toNat_natCast, stored, delivered]
        rw [Fs.fileBytes_append, Nat.zero_add]
      · have none : ReadCall.asked fd c = 0 := by
          cases c with
          | file fd' bufNull bytes => exact if_neg mine
          | dir fd' => rfl
        simp only [List.map_append, List.map_cons, List.map_nil, List.sum_append, List.sum_cons,
          List.sum_nil, none, Nat.add_zero, if_neg mine]
        exact ⟨reading.other lt mine, delivered⟩

end Platform

end Linux391
