import Bws.Lib.Rewind

/-!
# Data streams

`CDataStream` is a buffer with a read position.  It stands for a queue of bytes that may be rewound
(`CDataStream.toQueue`): what lies behind the position is the queue.  Each of its operations does to
that queue what it should, the special cases at the front included (`CDataStream.step_eq`), and so
does every run of them (`CDataStream.run_eq`).

There are two exceptions.  A stream that is put into another by `<<` goes in whole, with what has
been read of it.  And the position is an `unsigned int`, so that it starts again at zero in a
buffer of more than four gigabytes, or when more is read than that.
-/

namespace Bws

open Rewind

/-! ## The stream -/

def badbit : ℕ := 1
def failbit : ℕ := 4

/-- How a call ends, and the stream that it leaves. -/
inductive StreamResult (σ : Type) where
  | returned (pch : List UInt8) (s : σ)
  -- an exception, or the answer `false`
  | failed (s : σ)
  deriving DecidableEq

/-- `CDataStream` -/
@[ext] structure CDataStream where
  vch : List UInt8
  nReadPos : ℕ
  state : ℕ
  exceptmask : ℕ
  nReadPos_le : nReadPos ≤ vch.length
  deriving DecidableEq

namespace CDataStream

/-- `CDataStream::Init` -/
def init (vchIn : List UInt8) : CDataStream where
  vch := vchIn
  nReadPos := 0
  state := 0
  exceptmask := badbit ||| failbit
  nReadPos_le := Nat.zero_le _

variable (s b : CDataStream)

/-- What is between `begin()` and `end()`. -/
def str : List UInt8 := s.vch.drop s.nReadPos

def size : ℕ := s.vch.length - s.nReadPos

def clear : CDataStream := { s with vch := [], nReadPos := 0, nReadPos_le := le_rfl }

/-! ### The buffer

Positions are counted from `begin()`; one that is not in the stream is no iterator of it. -/

/-- `vch.insert` -/
def vchInsert (pos : ℕ) (m : List UInt8) : CDataStream where
  vch := s.vch.take (s.nReadPos + pos) ++ m ++ s.vch.drop (s.nReadPos + pos)
  nReadPos := s.nReadPos
  state := s.state
  exceptmask := s.exceptmask
  nReadPos_le := by
    have := s.nReadPos_le
    simp only [List.length_append, List.length_take, List.length_drop]
    omega

/-- `vch.erase` -/
def vchErase (first last : ℕ) : CDataStream where
  vch := s.vch.take (s.nReadPos + first) ++ s.vch.drop (s.nReadPos + last)
  nReadPos := s.nReadPos
  state := s.state
  exceptmask := s.exceptmask
  nReadPos_le := by
    have := s.nReadPos_le
    simp only [List.length_append, List.length_take, List.length_drop]
    omega

def resize (n : ℕ) (c : UInt8) : CDataStream where
  vch := s.vch.take (n + s.nReadPos) ++ List.replicate (n + s.nReadPos - s.vch.length) c
  nReadPos := s.nReadPos
  state := s.state
  exceptmask := s.exceptmask
  nReadPos_le := by
    have := s.nReadPos_le
    simp only [List.length_append, List.length_take, List.length_replicate]
    omega

/-- `write`: the bytes are inserted at the end. -/
def write (pch : List UInt8) : CDataStream where
  vch := s.vch ++ pch
  nReadPos := s.nReadPos
  state := s.state
  exceptmask := s.exceptmask
  nReadPos_le := s.nReadPos_le.trans (by simp only [List.length_append]; omega)

/-- `operator+=` -/
def append : CDataStream := s.write b.str

/-- `Serialize` of a stream, into the stream `s`. -/
def serialize : CDataStream := if b.vch ≠ [] then s.write b.vch else s

/-- The overload of `insert` for one character. -/
def insertChar (pos : ℕ) (x : UInt8) : Option CDataStream :=
  if pos ≤ s.size then some (s.vchInsert pos [x]) else none

/-- The overload of `insert` for a character many times. -/
def insertFill (pos n : ℕ) (x : UInt8) : Option CDataStream :=
  if pos ≤ s.size then some (s.vchInsert pos (List.replicate n x)) else none

/-- The overloads of `insert` for a range. -/
def insertRange (pos : ℕ) (m : List UInt8) : Option CDataStream :=
  if pos ≤ s.size then
    if pos = 0 ∧ m.length % 2 ^ 32 ≤ s.nReadPos then
      -- special case for inserting at the front when there's room
      let next := s.nReadPos - m.length % 2 ^ 32
      if h : next + m.length ≤ s.vch.length then
        some { s with
          vch := s.vch.take next ++ m ++ s.vch.drop (next + m.length)
          nReadPos := next
          nReadPos_le := by
            simp only [List.length_append, List.length_take, List.length_drop]
            omega }
      else none
    else some (s.vchInsert pos m)
  else none

/-- `erase` of one character -/
def erase (pos : ℕ) : Option CDataStream :=
  if pos < s.size then
    if pos = 0 then
      -- special case for erasing from the front
      let next := (s.nReadPos + 1) % 2 ^ 32
      if h : s.vch.length ≤ next then some s.clear
      else some { s with nReadPos := next, nReadPos_le := (not_le.1 h).le }
    else some (s.vchErase pos (pos + 1))
  else none

/-- `erase` of a range -/
def eraseRange (first last : ℕ) : Option CDataStream :=
  if h : first ≤ last ∧ last ≤ s.size then
    if first = 0 then
      -- special case for erasing from the front
      if last = s.size then some s.clear
      else some { s with
        nReadPos := (s.nReadPos + last) % 2 ^ 32
        nReadPos_le := by
          have hle := s.nReadPos_le
          have hmod := Nat.mod_le (s.nReadPos + last) (2 ^ 32)
          have hlast : last ≤ s.vch.length - s.nReadPos := h.2
          omega }
    else some (s.vchErase first last)
  else none

/-- `Compact` -/
def compact : CDataStream where
  vch := s.vch.drop s.nReadPos
  nReadPos := 0
  state := s.state
  exceptmask := s.exceptmask
  nReadPos_le := Nat.zero_le _

/-- `Rewind` -/
def rewind (n : ℕ) : StreamResult CDataStream :=
  -- rewind if the buffer hasn't been compacted yet
  if s.nReadPos < n then .failed s
  else .returned [] { s with
    nReadPos := s.nReadPos - n
    nReadPos_le := (Nat.sub_le ..).trans s.nReadPos_le }

/-! ### Reading -/

/-- `setstate`, and whether it throws. -/
def setstate (bits : ℕ) : CDataStream × Bool :=
  let s := { s with state := s.state ||| bits }
  (s, s.state &&& s.exceptmask ≠ 0)

/-- `memcpy` from the buffer; there must be as many bytes. -/
def memcpy (nSize : ℕ) : Option (List UInt8) :=
  if s.nReadPos + nSize ≤ s.vch.length then some (s.str.take nSize) else none

/-- `read` -/
def read (nSize : ℕ) : Option (StreamResult CDataStream) :=
  let nReadPosNext := (s.nReadPos + nSize) % 2 ^ 32
  if h : s.vch.length ≤ nReadPosNext then
    if s.vch.length < nReadPosNext then
      let r := s.setstate failbit
      if r.2 then some (.failed r.1)
      -- what is missing is filled with zeros
      else some (.returned (s.str ++ List.replicate (nSize - s.size) 0) r.1.clear)
    else (s.memcpy nSize).map fun pch ↦ .returned pch s.clear
  else (s.memcpy nSize).map fun pch ↦
    .returned pch { s with nReadPos := nReadPosNext, nReadPos_le := (not_le.1 h).le }

/-- `ignore` -/
def ignore (nSize : ℤ) : Option (StreamResult CDataStream) :=
  if 0 ≤ nSize then
    let nReadPosNext := (s.nReadPos + nSize.toNat) % 2 ^ 32
    if h : s.vch.length ≤ nReadPosNext then
      let r := s.setstate failbit
      if s.vch.length < nReadPosNext ∧ r.2 then some (.failed r.1)
      else some (.returned [] (if s.vch.length < nReadPosNext then r.1 else s).clear)
    else some (.returned []
      { s with nReadPos := nReadPosNext, nReadPos_le := (not_le.1 h).le })
  -- the assertion fails
  else none

end CDataStream

/-! ## What is called -/

/-- What `Unserialize` of an object does to a stream: it reads, and what it reads next may depend on
what it has read; or it gives up with an exception. -/
inductive Unserialize where
  | done
  | throw
  | read (nSize : ℕ) (k : List UInt8 → Unserialize)

/-- The outcome of a call after another. -/
def StreamResult.after {σ : Type} (pch : List UInt8) : StreamResult σ → StreamResult σ
  | .returned pch' s => .returned (pch ++ pch') s
  | .failed s => .failed s

def StreamResult.map {σ τ : Type} (f : σ → τ) : StreamResult σ → StreamResult τ
  | .returned pch s => .returned pch (f s)
  | .failed s => .failed (f s)

/-- `operator>>`, with what `read` does. -/
def Unserialize.run {σ : Type} (read : σ → ℕ → Option (StreamResult σ)) :
    Unserialize → σ → Option (StreamResult σ)
  | .done, s => some (.returned [] s)
  | .throw, s => some (.failed s)
  | .read nSize k, s =>
    match read s nSize with
    | some (.returned pch s') => ((k pch).run read s').map (.after pch)
    | r => r

/-- A call on a stream. -/
inductive StreamOp where
  | write (pch : List UInt8)
  -- `<<` writes an object piece by piece
  | serialize (obj : List (List UInt8))
  | read (nSize : ℕ)
  | unserialize (obj : Unserialize)
  | ignore (nSize : ℤ)
  | insertChar (pos : ℕ) (x : UInt8)
  | insertFill (pos n : ℕ) (x : UInt8)
  | insertRange (pos : ℕ) (m : List UInt8)
  | erase (pos : ℕ)
  | eraseRange (first last : ℕ)
  | resize (n : ℕ) (c : UInt8)
  | rewind (n : ℕ)
  | compact
  | clear
  -- `+=`
  | append (b : CDataStream)
  -- `<<` of a stream
  | put (b : CDataStream)

/-- What the call does; nothing is said where memory outside the buffer is touched, or the position
is none of the stream. -/
def CDataStream.step (s : CDataStream) : StreamOp → Option (StreamResult CDataStream)
  | .write pch => some (.returned [] (s.write pch))
  | .serialize obj => some (.returned [] (obj.foldl CDataStream.write s))
  | .read nSize => s.read nSize
  | .unserialize obj => obj.run CDataStream.read s
  | .ignore nSize => s.ignore nSize
  | .insertChar pos x => (s.insertChar pos x).map (.returned [])
  | .insertFill pos n x => (s.insertFill pos n x).map (.returned [])
  | .insertRange pos m => (s.insertRange pos m).map (.returned [])
  | .erase pos => (s.erase pos).map (.returned [])
  | .eraseRange first last => (s.eraseRange first last).map (.returned [])
  | .resize n c => some (.returned [] (s.resize n c))
  | .rewind n => some (s.rewind n)
  | .compact => some (.returned [] s.compact)
  | .clear => some (.returned [] s.clear)
  | .append b => some (.returned [] (s.append b))
  | .put b => some (.returned [] (s.serialize b))

/-! ## What should be done -/

abbrev ByteQueue := Queue UInt8

/-- The first bytes are taken, or none. -/
def takeBytes (q : ByteQueue) (nSize : ℕ) : Option (StreamResult ByteQueue) :=
  match q.take? nSize with
  | some (pch, q') => some (.returned pch q')
  | none => some (.failed q)

/-- What the call should do to the queue. -/
def queueStep (q : ByteQueue) : StreamOp → Option (StreamResult ByteQueue)
  | .write pch => some (.returned [] (q.push pch))
  | .serialize obj => some (.returned [] (q.push obj.flatten))
  | .read nSize => takeBytes q nSize
  | .unserialize obj => obj.run takeBytes q
  | .ignore nSize =>
    if 0 ≤ nSize then
      match q.take? nSize.toNat with
      | some (_, q') => some (.returned [] q')
      | none => some (.failed q)
    else none
  | .insertChar pos x =>
    if pos ≤ q.queue.length then some (.returned [] (q.insert pos [x])) else none
  | .insertFill pos n x =>
    if pos ≤ q.queue.length then some (.returned [] (q.insert pos (List.replicate n x))) else none
  | .insertRange pos m =>
    if pos ≤ q.queue.length then
      some (.returned [] (if pos = 0 then q.unget m else q.insert pos m))
    else none
  | .erase pos =>
    if pos < q.queue.length then some (.returned [] (q.erase pos (pos + 1))) else none
  | .eraseRange first last =>
    if first ≤ last ∧ last ≤ q.queue.length then some (.returned [] (q.erase first last)) else none
  | .resize n c => some (.returned [] (q.resize n c))
  | .rewind n =>
    match q.rewind? n with
    | some q' => some (.returned [] q')
    | none => some (.failed q)
  | .compact => some (.returned [] q.forget)
  | .clear => some (.returned [] ⟨[], []⟩)
  | .append b => some (.returned [] (q.push b.str))
  | .put b => some (.returned [] (q.push b.str))

/-- The calls one after another, with what each of them gave: the bytes that were read, or nothing
for a call that has failed. -/
def runCalls {σ : Type} (step : σ → StreamOp → Option (StreamResult σ)) :
    σ → List StreamOp → Option (List (Option (List UInt8)) × σ)
  | s, [] => some ([], s)
  | s, op :: ops =>
    match step s op with
    | none => none
    | some (.returned pch s') => (runCalls step s' ops).map fun r ↦ (some pch :: r.1, r.2)
    | some (.failed s') => (runCalls step s' ops).map fun r ↦ (none :: r.1, r.2)

/-! ## When the position does not start again at zero -/

/-- The end of what is read is where the position goes; or both are behind the end of the buffer. -/
def CDataStream.ReadFits (s : CDataStream) (nSize : ℕ) : Prop :=
  s.nReadPos + nSize < 2 ^ 32 ∨ s.vch.length < (s.nReadPos + nSize) % 2 ^ 32

def Unserialize.Fits : Unserialize → CDataStream → Prop
  | .read nSize k, s => s.ReadFits nSize ∧
      ∀ pch s', s.read nSize = some (.returned pch s') → (k pch).Fits s'
  | _, _ => True

/-- The call does not move the position past `2 ^ 32`, and puts no stream that was read from. -/
def StreamOp.Fits (s : CDataStream) : StreamOp → Prop
  | .read nSize => s.ReadFits nSize
  | .unserialize obj => obj.Fits s
  | .ignore nSize => s.ReadFits nSize.toNat
  | .insertRange pos m => pos = 0 → m.length < 2 ^ 32 ∨ s.nReadPos < m.length % 2 ^ 32
  | .erase pos => pos = 0 → s.nReadPos + 1 < 2 ^ 32
  | .eraseRange first last => first = 0 → last < s.size → s.nReadPos + last < 2 ^ 32
  | .put b => b.nReadPos = 0
  | _ => True

/-- Every step of the run does. -/
def RunFits : CDataStream → List StreamOp → Prop
  | _, [] => True
  | s, op :: ops => op.Fits s ∧
      ∀ o, s.step op = some o → RunFits (match o with | .returned _ s' => s' | .failed s' => s') ops

/-! ## The queue of a stream -/

namespace CDataStream

/-- The queue that a stream stands for. -/
def toQueue (s : CDataStream) : ByteQueue := .ofBuffer s.vch s.nReadPos

/-- A read that fails throws. -/
def Throws (s : CDataStream) : Prop := s.exceptmask = badbit ||| failbit

variable {s b : CDataStream}

theorem length_queue (s : CDataStream) : s.toQueue.queue.length = s.size :=
  Queue.length_queue_ofBuffer

theorem toQueue_clear (s : CDataStream) : s.clear.toQueue = ⟨[], []⟩ := rfl

theorem toQueue_write (s : CDataStream) (pch : List UInt8) :
    (s.write pch).toQueue = s.toQueue.push pch := Queue.ofBuffer_append s.nReadPos_le pch

theorem toQueue_foldl_write (s : CDataStream) (obj : List (List UInt8)) :
    (obj.foldl write s).toQueue = s.toQueue.push obj.flatten := by
  induction obj generalizing s with
  | nil => exact (Queue.push_nil _).symm
  | cons pch obj ih =>
    rw [List.foldl_cons, ih, toQueue_write, Queue.push_push, List.flatten_cons]

theorem toQueue_vchInsert (s : CDataStream) (pos : ℕ) (m : List UInt8) :
    (s.vchInsert pos m).toQueue = s.toQueue.insert pos m :=
  Queue.ofBuffer_insert s.nReadPos_le pos m

theorem toQueue_vchErase (s : CDataStream) {first : ℕ} (h : first ≠ 0) (last : ℕ) :
    (s.vchErase first last).toQueue = s.toQueue.erase first last :=
  Queue.ofBuffer_erase s.nReadPos_le h last

theorem toQueue_resize (s : CDataStream) (n : ℕ) (c : UInt8) :
    (s.resize n c).toQueue = s.toQueue.resize n c := Queue.ofBuffer_resize s.nReadPos_le n c

theorem toQueue_compact (s : CDataStream) : s.compact.toQueue = s.toQueue.forget := rfl

theorem throws_foldl_write (hs : s.Throws) (obj : List (List UInt8)) :
    (obj.foldl write s).Throws := by
  induction obj generalizing s with
  | nil => exact hs
  | cons pch obj ih => exact ih (s := s.write pch) hs

/-- A failed read throws before anything is changed. -/
theorem setstate_failbit (hs : s.Throws) : (s.setstate failbit).2 = true := by
  have hbit : ((s.state ||| failbit) &&& s.exceptmask).testBit 2 = true := by
    rw [hs, Nat.testBit_and, Nat.testBit_or, show failbit.testBit 2 = true by decide,
      Bool.or_true]
    decide
  refine decide_eq_true fun h ↦ ?_
  change (s.state ||| failbit) &&& s.exceptmask = 0 at h
  rw [h, Nat.zero_testBit] at hbit
  cases hbit

/-- What a call on the stream gives is what the queue should give. -/
inductive Simulates :
    Option (StreamResult CDataStream) → Option (StreamResult ByteQueue) → Prop where
  | undefined : Simulates none none
  | returned (pch : List UInt8) {s : CDataStream} (hs : s.Throws) {q : ByteQueue}
      (hq : s.toQueue = q) : Simulates (some (.returned pch s)) (some (.returned pch q))
  | failed {s : CDataStream} (hs : s.Throws) {q : ByteQueue} (hq : s.toQueue = q) :
      Simulates (some (.failed s)) (some (.failed q))

/-! ### Reading -/

theorem ReadFits.of_le {nSize : ℕ} (h : s.ReadFits nSize)
    (hle : s.nReadPos + nSize ≤ s.vch.length) :
    (s.nReadPos + nSize) % 2 ^ 32 = s.nReadPos + nSize := by
  refine Nat.mod_eq_of_lt (h.resolve_right fun h ↦ ?_)
  have := Nat.mod_le (s.nReadPos + nSize) (2 ^ 32)
  omega

theorem ReadFits.of_lt {nSize : ℕ} (h : s.ReadFits nSize)
    (hlt : s.vch.length < s.nReadPos + nSize) :
    s.vch.length < (s.nReadPos + nSize) % 2 ^ 32 := by
  rcases h with h | h
  · rwa [Nat.mod_eq_of_lt h]
  · exact h

theorem simulates_read (hs : s.Throws) {nSize : ℕ} (hfits : s.ReadFits nSize) :
    Simulates (s.read nSize) (takeBytes s.toQueue nSize) := by
  rcases le_or_gt (s.nReadPos + nSize) s.vch.length with hle | hlt
  · rw [takeBytes, toQueue, Queue.take?_ofBuffer hle, read]
    simp only [hfits.of_le hle, memcpy, if_pos hle, Option.map_some]
    by_cases hend : s.vch.length ≤ s.nReadPos + nSize
    · rw [dif_pos hend, if_neg (by omega), Queue.consume_ofBuffer_eq (by omega)]
      refine .returned _ ?_ rfl
      exact hs
    · rw [dif_neg hend, Queue.consume_ofBuffer (by omega)]
      refine .returned _ ?_ rfl
      exact hs
  · have hnext := hfits.of_lt hlt
    rw [takeBytes, toQueue, Queue.take?_ofBuffer_of_lt hlt s.nReadPos_le, read]
    simp only [dif_pos hnext.le, if_pos hnext, setstate_failbit hs, if_true]
    refine .failed ?_ rfl
    exact hs

theorem simulates_ignore (hs : s.Throws) {nSize : ℤ} (hfits : s.ReadFits nSize.toNat) :
    Simulates (s.ignore nSize) (queueStep s.toQueue (.ignore nSize)) := by
  rw [ignore, queueStep]
  by_cases hneg : 0 ≤ nSize
  swap
  · rw [if_neg hneg, if_neg hneg]
    exact .undefined
  rw [if_pos hneg, if_pos hneg]
  rcases le_or_gt (s.nReadPos + nSize.toNat) s.vch.length with hle | hlt
  · rw [toQueue, Queue.take?_ofBuffer hle]
    simp only [hfits.of_le hle]
    by_cases hend : s.vch.length ≤ s.nReadPos + nSize.toNat
    · rw [dif_pos hend, if_neg (by omega), if_neg (by omega),
        Queue.consume_ofBuffer_eq (by omega)]
      refine .returned _ ?_ rfl
      exact hs
    · rw [dif_neg hend, Queue.consume_ofBuffer (by omega)]
      refine .returned _ ?_ rfl
      exact hs
  · have hnext := hfits.of_lt hlt
    rw [toQueue, Queue.take?_ofBuffer_of_lt hlt s.nReadPos_le]
    simp only [dif_pos hnext.le]
    rw [if_pos ⟨hnext, setstate_failbit hs⟩]
    refine .failed ?_ rfl
    exact hs

theorem Simulates.after {r : Option (StreamResult CDataStream)}
    {r' : Option (StreamResult ByteQueue)} (h : Simulates r r') (pch : List UInt8) :
    Simulates (r.map (.after pch)) (r'.map (.after pch)) := by
  rcases h with - | ⟨pch', hs, hq⟩ | ⟨hs, hq⟩
  · exact .undefined
  · exact .returned _ hs hq
  · exact .failed hs hq

/-- Reading an object is reading from the queue. -/
theorem simulates_unserialize (obj : Unserialize) (hs : s.Throws) (hfits : obj.Fits s) :
    Simulates (obj.run read s) (obj.run takeBytes s.toQueue) := by
  induction obj generalizing s with
  | done => exact .returned _ hs rfl
  | throw => exact .failed hs rfl
  | read nSize k ih =>
    obtain ⟨hread, hnext⟩ := hfits
    have hsim := simulates_read hs hread
    rw [Unserialize.run, Unserialize.run]
    generalize hr : s.read nSize = r at hsim hnext
    generalize takeBytes s.toQueue nSize = r' at hsim
    rcases hsim with - | ⟨pch, hs', rfl⟩ | ⟨hs', hq⟩
    · exact .undefined
    · exact (ih pch hs' (hnext pch _ rfl)).after pch
    · exact .failed hs' hq

/-! ### Inserting and removing -/

theorem simulates_insertRange (hs : s.Throws) (pos : ℕ) (m : List UInt8)
    (hfits : pos = 0 → m.length < 2 ^ 32 ∨ s.nReadPos < m.length % 2 ^ 32) :
    Simulates ((s.insertRange pos m).map (.returned []))
      (queueStep s.toQueue (.insertRange pos m)) := by
  rw [insertRange, queueStep, length_queue]
  by_cases hpos : pos ≤ s.size
  swap
  · rw [if_neg hpos, if_neg hpos]
    exact .undefined
  rw [if_pos hpos, if_pos hpos]
  have hle := s.nReadPos_le
  by_cases hfront : pos = 0 ∧ m.length % 2 ^ 32 ≤ s.nReadPos
  · have hmod : m.length % 2 ^ 32 = m.length :=
      Nat.mod_eq_of_lt ((hfits hfront.1).resolve_right (not_lt.2 hfront.2))
    have hroom : s.nReadPos - m.length + m.length = s.nReadPos :=
      Nat.sub_add_cancel (hmod ▸ hfront.2)
    rw [if_pos hfront, if_pos hfront.1]
    simp only [hmod, hroom, dif_pos hle, Option.map_some]
    refine .returned _ ?_ (Queue.ofBuffer_unget hle (hmod ▸ hfront.2))
    exact hs
  · rw [if_neg hfront]
    refine .returned _ (s := s.vchInsert pos m) hs ?_
    rw [toQueue_vchInsert]
    split
    · rename_i h
      have hlt : s.nReadPos < m.length := by
        have := Nat.mod_le m.length (2 ^ 32)
        have : ¬ m.length % 2 ^ 32 ≤ s.nReadPos := fun hm ↦ hfront ⟨h, hm⟩
        omega
      rw [h, ← toQueue_vchInsert]
      exact Queue.ofBuffer_unget_of_lt hle hlt
    · rfl

theorem simulates_erase (hs : s.Throws) (pos : ℕ) (hfits : pos = 0 → s.nReadPos + 1 < 2 ^ 32) :
    Simulates ((s.erase pos).map (.returned [])) (queueStep s.toQueue (.erase pos)) := by
  rw [erase, queueStep, length_queue]
  by_cases hpos : pos < s.size
  swap
  · rw [if_neg hpos, if_neg hpos]
    exact .undefined
  rw [if_pos hpos, if_pos hpos]
  have hsize : pos < s.vch.length - s.nReadPos := hpos
  by_cases hfront : pos = 0
  · have hmod : (s.nReadPos + 1) % 2 ^ 32 = s.nReadPos + 1 := Nat.mod_eq_of_lt (hfits hfront)
    rw [if_pos hfront, Queue.erase, if_pos hfront, hfront]
    simp only [hmod]
    by_cases hend : s.vch.length ≤ s.nReadPos + 1
    · rw [dif_pos hend]
      refine .returned _ (s := s.clear) hs ?_
      exact (Queue.consume_ofBuffer_eq (by omega)).symm
    · have hlt : s.nReadPos + 1 < s.vch.length := not_le.1 hend
      rw [dif_neg hend]
      refine .returned _ ?_ (Queue.consume_ofBuffer hlt).symm
      exact hs
  · rw [if_neg hfront]
    refine .returned _ ?_ (toQueue_vchErase s hfront (pos + 1))
    exact hs

theorem simulates_eraseRange (hs : s.Throws) (first last : ℕ)
    (hfits : first = 0 → last < s.size → s.nReadPos + last < 2 ^ 32) :
    Simulates ((s.eraseRange first last).map (.returned []))
      (queueStep s.toQueue (.eraseRange first last)) := by
  rw [eraseRange, queueStep, length_queue]
  by_cases hrange : first ≤ last ∧ last ≤ s.size
  swap
  · rw [dif_neg hrange, if_neg hrange]
    exact .undefined
  rw [dif_pos hrange, if_pos hrange]
  have hle := s.nReadPos_le
  have hsize : s.size = s.vch.length - s.nReadPos := rfl
  by_cases hfront : first = 0
  · rw [if_pos hfront, Queue.erase, if_pos hfront]
    by_cases hend : last = s.size
    · rw [if_pos hend]
      refine .returned _ (s := s.clear) hs ?_
      exact (Queue.consume_ofBuffer_eq (by omega)).symm
    · have hmod : (s.nReadPos + last) % 2 ^ 32 = s.nReadPos + last :=
        Nat.mod_eq_of_lt (hfits hfront (by omega))
      have hlt : s.nReadPos + last < s.vch.length := by omega
      rw [if_neg hend]
      simp only [hmod]
      refine .returned _ ?_ (Queue.consume_ofBuffer hlt).symm
      exact hs
  · rw [if_neg hfront]
    refine .returned _ ?_ (toQueue_vchErase s hfront last)
    exact hs

theorem simulates_rewind (hs : s.Throws) (n : ℕ) :
    Simulates (some (s.rewind n)) (queueStep s.toQueue (.rewind n)) := by
  rw [rewind, queueStep]
  split
  · rename_i h
    rw [toQueue, Queue.rewind?_ofBuffer_of_lt s.nReadPos_le h]
    exact .failed hs rfl
  · rename_i h
    rw [toQueue, Queue.rewind?_ofBuffer s.nReadPos_le (not_lt.1 h)]
    refine .returned _ ?_ rfl
    exact hs

/-! ## Every call, and every run -/

theorem serialize_eq_append (hb : b.nReadPos = 0) : s.serialize b = s.append b := by
  have hstr : b.str = b.vch := by rw [str, hb, List.drop_zero]
  rw [serialize, append, hstr]
  split
  · rfl
  · rename_i h
    rw [not_not.1 h]
    ext1
    · exact (List.append_nil _).symm
    all_goals rfl

/-- **A call does to the stream what it should do to the queue.** -/
theorem simulates_step (hs : s.Throws) {op : StreamOp} (hfits : op.Fits s) :
    Simulates (s.step op) (queueStep s.toQueue op) := by
  cases op with
  | write pch => exact .returned _ (s := s.write pch) hs (toQueue_write s pch)
  | serialize obj => exact .returned _ (throws_foldl_write hs obj) (toQueue_foldl_write s obj)
  | read nSize => exact simulates_read hs hfits
  | unserialize obj => exact simulates_unserialize obj hs hfits
  | ignore nSize => exact simulates_ignore hs hfits
  | insertChar pos x =>
    rw [step, insertChar, queueStep, length_queue]
    split
    · exact .returned _ (s := s.vchInsert pos [x]) hs (toQueue_vchInsert s pos [x])
    · exact .undefined
  | insertFill pos n x =>
    rw [step, insertFill, queueStep, length_queue]
    split
    · exact .returned _ (s := s.vchInsert pos _) hs (toQueue_vchInsert s pos _)
    · exact .undefined
  | insertRange pos m => exact simulates_insertRange hs pos m hfits
  | erase pos => exact simulates_erase hs pos hfits
  | eraseRange first last => exact simulates_eraseRange hs first last hfits
  | resize n c => exact .returned _ (s := s.resize n c) hs (toQueue_resize s n c)
  | rewind n => exact simulates_rewind hs n
  | compact => exact .returned _ (s := s.compact) hs (toQueue_compact s)
  | clear => exact .returned _ (s := s.clear) hs (toQueue_clear s)
  | append b => exact .returned _ (s := s.append b) hs (toQueue_write s b.str)
  | put b =>
    rw [step, serialize_eq_append hfits]
    exact .returned _ (s := s.append b) hs (toQueue_write s b.str)

/-- **A run does to the stream what it should do to the queue.** -/
theorem run_eq (hs : s.Throws) {ops : List StreamOp} (hfits : RunFits s ops) :
    (runCalls step s ops).map (fun r ↦ (r.1, r.2.toQueue)) = runCalls queueStep s.toQueue ops := by
  induction ops generalizing s with
  | nil => rfl
  | cons op ops ih =>
    obtain ⟨hop, hnext⟩ := hfits
    have hsim := simulates_step hs hop
    rw [runCalls, runCalls]
    generalize hr : s.step op = r at hsim hnext
    generalize queueStep s.toQueue op = r' at hsim
    rcases hsim with - | ⟨pch, hs', rfl⟩ | ⟨hs', rfl⟩
    · rfl
    · have hrest := ih hs' (hnext _ rfl)
      dsimp only
      rw [← hrest, Option.map_map, Option.map_map]
      rfl
    · have hrest := ih hs' (hnext _ rfl)
      dsimp only
      rw [← hrest, Option.map_map, Option.map_map]
      rfl

/-- `<<` of a stream is `+=` of it exactly where nothing has been read from it. -/
theorem serialize_eq_append_iff (s b : CDataStream) :
    (s.serialize b).str = (s.append b).str ↔ b.nReadPos = 0 := by
  refine ⟨fun h ↦ ?_, fun hb ↦ by rw [serialize_eq_append hb]⟩
  have hle := s.nReadPos_le
  have hb := b.nReadPos_le
  have hlen := congrArg List.length h
  rw [serialize] at hlen
  split at hlen
  · simp only [str, append, write, List.length_drop, List.length_append] at hlen
    omega
  · rename_i hnil
    rw [not_not.1 hnil, List.length_nil] at hb
    omega

end CDataStream

/-! ## In and out -/

/-- What a call writes at the end. -/
def StreamOp.written : StreamOp → List UInt8
  | .write pch => pch
  | .serialize obj => obj.flatten
  | .append b => b.str
  | .put b => b.str
  | _ => []

/-- The call writes at the end or reads at the front, and nothing else. -/
def StreamOp.InOut : StreamOp → Prop
  | .write _ | .serialize _ | .append _ | .put _ | .read _ | .compact => True
  | _ => False

/-- **First in, first out.**  What was read, and then what is left, is what there was and then what
was written. -/
theorem queue_inOut {q q' : ByteQueue} {ops : List StreamOp} {outs : List (Option (List UInt8))}
    (hops : ∀ op ∈ ops, op.InOut) (h : runCalls queueStep q ops = some (outs, q')) :
    outs.reduceOption.flatten ++ q'.queue = q.queue ++ ops.flatMap StreamOp.written := by
  induction ops generalizing q outs with
  | nil =>
    cases h
    exact (List.append_nil _).symm
  | cons op ops ih =>
    obtain ⟨hop, hrest⟩ := List.forall_mem_cons.1 hops
    rw [runCalls] at h
    have hpush : ∀ m, queueStep q op = some (.returned [] (q.push m)) → op.written = m →
        outs.reduceOption.flatten ++ q'.queue =
          q.queue ++ (op :: ops).flatMap StreamOp.written := by
      intro m hm hw
      rw [hm] at h
      obtain ⟨r, hr, hpair⟩ := Option.map_eq_some_iff.1 h
      obtain ⟨rfl, rfl⟩ := Prod.mk.inj hpair
      rw [List.reduceOption_cons_of_some, List.flatten_cons, List.nil_append, ih hrest hr,
        List.flatMap_cons, hw, ← List.append_assoc]
      rfl
    cases op with
    | write pch => exact hpush _ rfl rfl
    | serialize obj => exact hpush _ rfl rfl
    | append b => exact hpush _ rfl rfl
    | put b => exact hpush _ rfl rfl
    | compact =>
      obtain ⟨r, hr, hpair⟩ := Option.map_eq_some_iff.1 h
      obtain ⟨rfl, rfl⟩ := Prod.mk.inj hpair
      rw [List.reduceOption_cons_of_some, List.flatten_cons, List.nil_append, ih hrest hr]
      rfl
    | read nSize =>
      rw [queueStep, takeBytes, Queue.take?] at h
      by_cases hn : nSize ≤ q.queue.length
      · rw [if_pos hn] at h
        obtain ⟨r, hr, hpair⟩ := Option.map_eq_some_iff.1 h
        obtain ⟨rfl, rfl⟩ := Prod.mk.inj hpair
        rw [List.reduceOption_cons_of_some, List.flatten_cons, List.append_assoc, ih hrest hr,
          Queue.queue_consume, ← List.append_assoc, List.take_append_drop]
        rfl
      · rw [if_neg hn] at h
        obtain ⟨r, hr, hpair⟩ := Option.map_eq_some_iff.1 h
        obtain ⟨rfl, rfl⟩ := Prod.mk.inj hpair
        rw [List.reduceOption_cons_of_none, ih hrest hr]
        rfl
    | _ => exact hop.elim

namespace CDataStream

variable {s s' : CDataStream}

/-- A read that fails leaves the queue as it was. -/
theorem toQueue_of_read_failed {n : ℕ} (h : s.read n = some (.failed s')) :
    s'.toQueue = s.toQueue := by
  rw [read] at h
  dsimp only at h
  split at h
  · split at h
    · split at h
      · cases h
        rfl
      · cases h
    · obtain ⟨pch, -, hpch⟩ := Option.map_eq_some_iff.1 h
      cases hpch
  · obtain ⟨pch, -, hpch⟩ := Option.map_eq_some_iff.1 h
    cases hpch

theorem toQueue_of_ignore_failed {n : ℤ} (h : s.ignore n = some (.failed s')) :
    s'.toQueue = s.toQueue := by
  rw [ignore] at h
  dsimp only at h
  split at h
  · split at h
    · split at h
      · cases h
        rfl
      · cases h
    · cases h
  · cases h

/-- **A stream is the queue of what was written and not yet read.**  Every run of calls from a new
stream does to it what it should do to the queue, where no step moves the position past `2 ^ 32` and
no stream that was read from is put; so what was read comes in the order in which it was written.  A
read that fails leaves the queue as it was.  To put a stream is to append it exactly where nothing
has been read from it. -/
theorem stream_refines_queue (vchIn : List UInt8) (ops : List StreamOp) (s s' b : CDataStream)
    (n : ℤ) :
    (RunFits (init vchIn) ops →
      (runCalls step (init vchIn) ops).map (fun r ↦ (r.1, r.2.toQueue)) =
        runCalls queueStep ⟨[], vchIn⟩ ops ∧
      ((∀ op ∈ ops, op.InOut) → ∀ outs t, runCalls step (init vchIn) ops = some (outs, t) →
        outs.reduceOption.flatten ++ t.str = vchIn ++ ops.flatMap StreamOp.written)) ∧
    (s.read n.toNat = some (.failed s') ∨ s.ignore n = some (.failed s') → s'.str = s.str) ∧
    ((s.serialize b).str = (s.append b).str ↔ b.nReadPos = 0) := by
  refine ⟨fun hfits ↦ ?_, fun h ↦ ?_, serialize_eq_append_iff s b⟩
  · have hrun := run_eq (s := init vchIn) rfl hfits
    refine ⟨hrun, fun hops outs t ht ↦ ?_⟩
    rw [ht] at hrun
    exact queue_inOut hops hrun.symm
  · have hq : s'.toQueue = s.toQueue := h.elim toQueue_of_read_failed toQueue_of_ignore_failed
    exact congrArg Queue.queue hq

/-- Of two bytes one is read and a stream is put; then three bytes are too many. -/
theorem stream_refines_queue_sample :
    (runCalls step (init [1, 2]) [.read 1, .put (init [3]), .read 3]).map
      (fun r ↦ (r.1, r.2.toQueue)) = some ([some [1], some [], none], ⟨[1], [2, 3]⟩) := by
  have hfits : RunFits (init [1, 2]) [.read 1, .put (init [3]), .read 3] := by
    refine ⟨.inl (by decide), fun o ho ↦ ?_⟩
    rw [show (init [1, 2]).step (.read 1) = some _ from rfl] at ho
    obtain rfl := Option.some.inj ho
    refine ⟨rfl, fun o ho ↦ ?_⟩
    obtain rfl := Option.some.inj ho
    exact ⟨.inl (by decide), fun _ _ ↦ trivial⟩
  exact ((stream_refines_queue [1, 2] _ (init []) (init []) (init []) 0).1 hfits).1

/-- Of two bytes one has been read, and the stream is put whole. -/
theorem not_serialize_eq_append : ¬ ∀ s b : CDataStream, (s.serialize b).str = (s.append b).str :=
  fun h ↦ absurd (h (init []) { init [1, 2] with nReadPos := 1, nReadPos_le := by decide })
    (by decide)

end CDataStream

end Bws
