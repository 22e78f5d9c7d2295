import Mathlib

/-!
# A queue that may be rewound

What is taken from the front of such a queue is held for a while, and can be given back.  When the
queue is drained, and when it is told to, it forgets what it holds.  A buffer with a read position
is such a queue (`Queue.ofBuffer`): held is what lies before the position.
-/

universe u

namespace Rewind

/-- What was taken and is still held, and what is in the queue. -/
@[ext] structure Queue (α : Type u) where
  held : List α
  queue : List α

namespace Queue

variable {α : Type u}

def push (q : Queue α) (m : List α) : Queue α := ⟨q.held, q.queue ++ m⟩

/-- `n` elements leave the front. -/
def consume (q : Queue α) (n : ℕ) : Queue α :=
  if n = q.queue.length then ⟨[], []⟩ else ⟨q.held ++ q.queue.take n, q.queue.drop n⟩

/-- `n` elements are taken from the front, if there are as many. -/
def take? (q : Queue α) (n : ℕ) : Option (List α × Queue α) :=
  if n ≤ q.queue.length then some (q.queue.take n, q.consume n) else none

/-- The last `n` elements that are held are given back. -/
def rewind? (q : Queue α) (n : ℕ) : Option (Queue α) :=
  if n ≤ q.held.length then
    some ⟨q.held.take (q.held.length - n), q.held.drop (q.held.length - n) ++ q.queue⟩
  else none

def forget (q : Queue α) : Queue α := ⟨[], q.queue⟩

def insert (q : Queue α) (pos : ℕ) (m : List α) : Queue α :=
  ⟨q.held, q.queue.take pos ++ m ++ q.queue.drop pos⟩

/-- Elements are put in front; they take the room of what is held where it is enough. -/
def unget (q : Queue α) (m : List α) : Queue α :=
  ⟨if m.length ≤ q.held.length then q.held.take (q.held.length - m.length) else q.held,
    m ++ q.queue⟩

/-- The elements from `first` up to `last` are removed. -/
def erase (q : Queue α) (first last : ℕ) : Queue α :=
  if first = 0 then q.consume last
  else ⟨q.held, q.queue.take first ++ q.queue.drop last⟩

def resize (q : Queue α) (n : ℕ) (c : α) : Queue α :=
  ⟨q.held, q.queue.take n ++ List.replicate (n - q.queue.length) c⟩

theorem queue_consume (q : Queue α) (n : ℕ) : (q.consume n).queue = q.queue.drop n := by
  rw [consume]
  split
  · rename_i h
    rw [h, List.drop_length]
  · rfl

theorem push_nil (q : Queue α) : q.push [] = q := by rw [push, List.append_nil]

theorem push_push (q : Queue α) (m n : List α) : (q.push m).push n = q.push (m ++ n) := by
  rw [push, push, push, List.append_assoc]

/-! ## Buffers -/

/-- A buffer with a read position. -/
def ofBuffer (l : List α) (p : ℕ) : Queue α := ⟨l.take p, l.drop p⟩

section

variable {l m : List α} {p n : ℕ}

theorem length_held_ofBuffer (h : p ≤ l.length) : (ofBuffer l p).held.length = p :=
  List.length_take_of_le h

theorem length_queue_ofBuffer : (ofBuffer l p).queue.length = l.length - p := List.length_drop

theorem ofBuffer_append (h : p ≤ l.length) (m : List α) :
    ofBuffer (l ++ m) p = (ofBuffer l p).push m := by
  rw [ofBuffer, List.take_append_of_le_length h, List.drop_append_of_le_length h]
  rfl

theorem consume_ofBuffer (h : p + n < l.length) :
    (ofBuffer l p).consume n = ofBuffer l (p + n) := by
  rw [consume, if_neg (by rw [length_queue_ofBuffer]; omega)]
  ext1
  · exact (List.take_add ..).symm
  · exact List.drop_drop ..

theorem consume_ofBuffer_eq (h : p + n = l.length) :
    (ofBuffer l p).consume n = ofBuffer [] 0 := by
  rw [consume, if_pos (by rw [length_queue_ofBuffer]; omega)]
  rfl

theorem take?_ofBuffer (h : p + n ≤ l.length) :
    (ofBuffer l p).take? n = some ((l.drop p).take n, (ofBuffer l p).consume n) :=
  if_pos (by rw [length_queue_ofBuffer]; omega)

theorem take?_ofBuffer_of_lt (h : l.length < p + n) (hp : p ≤ l.length) :
    (ofBuffer l p).take? n = none := if_neg (by rw [length_queue_ofBuffer]; omega)

theorem ofBuffer_insert (hp : p ≤ l.length) (pos : ℕ) (m : List α) :
    ofBuffer (l.take (p + pos) ++ m ++ l.drop (p + pos)) p = (ofBuffer l p).insert pos m := by
  have hlen : (l.take p).length = p := List.length_take_of_le hp
  ext1
  · rw [ofBuffer, List.take_add, List.append_assoc, List.append_assoc]
    exact List.take_left' hlen
  · rw [ofBuffer, List.take_add, List.append_assoc, List.append_assoc, ← List.drop_drop,
      ← List.append_assoc (List.take pos _)]
    exact List.drop_left' hlen

theorem ofBuffer_unget (hp : p ≤ l.length) (hm : m.length ≤ p) :
    ofBuffer (l.take (p - m.length) ++ m ++ l.drop p) (p - m.length) = (ofBuffer l p).unget m := by
  have hlen : (l.take (p - m.length)).length = p - m.length :=
    List.length_take_of_le (by omega)
  rw [unget, if_pos (by rwa [length_held_ofBuffer hp]), length_held_ofBuffer hp, ofBuffer,
    List.append_assoc, List.take_left' hlen, List.drop_left' hlen]
  ext1
  · exact (List.take_take.trans (by rw [min_eq_left (Nat.sub_le ..)])).symm
  · rfl

theorem ofBuffer_unget_of_lt (hp : p ≤ l.length) (hm : p < m.length) :
    ofBuffer (l.take p ++ m ++ l.drop p) p = (ofBuffer l p).unget m := by
  have h := ofBuffer_insert hp 0 m
  rw [unget, if_neg (by rw [length_held_ofBuffer hp]; omega)]
  exact h

theorem ofBuffer_erase (hp : p ≤ l.length) {first : ℕ} (hfirst : first ≠ 0) (last : ℕ) :
    ofBuffer (l.take (p + first) ++ l.drop (p + last)) p = (ofBuffer l p).erase first last := by
  have hlen : (l.take p).length = p := List.length_take_of_le hp
  rw [erase, if_neg hfirst, ofBuffer, List.take_add, List.append_assoc, List.take_left' hlen,
    List.drop_left' hlen, ← List.drop_drop]
  rfl

theorem ofBuffer_resize (hp : p ≤ l.length) (n : ℕ) (c : α) :
    ofBuffer (l.take (n + p) ++ List.replicate (n + p - l.length) c) p =
      (ofBuffer l p).resize n c := by
  have hlen : (l.take p).length = p := List.length_take_of_le hp
  rw [Nat.add_comm, List.take_add, List.append_assoc, ofBuffer, List.take_left' hlen,
    List.drop_left' hlen, resize, length_queue_ofBuffer]
  ext1
  · rfl
  · rw [show p + n - l.length = n - (l.length - p) by omega]
    rfl

theorem rewind?_ofBuffer (hp : p ≤ l.length) (hn : n ≤ p) :
    (ofBuffer l p).rewind? n = some (ofBuffer l (p - n)) := by
  have hsplit : l.drop (p - n) = (l.take p).drop (p - n) ++ l.drop p := by
    conv_lhs => rw [← List.take_append_drop p l]
    exact List.drop_append_of_le_length (by rw [List.length_take_of_le hp]; omega)
  rw [rewind?, if_pos (by rwa [length_held_ofBuffer hp]), length_held_ofBuffer hp, Option.some_inj]
  ext1
  · exact List.take_take.trans (by rw [min_eq_left (Nat.sub_le ..)]; rfl)
  · exact hsplit.symm

theorem rewind?_ofBuffer_of_lt (hp : p ≤ l.length) (hn : p < n) :
    (ofBuffer l p).rewind? n = none := if_neg (by rw [length_held_ofBuffer hp]; omega)

end

end Queue

end Rewind
