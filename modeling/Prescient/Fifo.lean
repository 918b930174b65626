import Mathlib.Data.List.Basic

/-!
# A FIFO transport

What the channels rely on of an SPSC transport: values leave in the order they
entered. A value leaves the queue when the consumer moves it out, and its room
is handed back to the producer by a later store, so the transport counts the
values moved out and not yet handed back in `held`.
-/

namespace Prescient

structure Fifo (T : Type) where
  queue : List T
  held : Nat

namespace Fifo

variable {T : Type}

def empty : Fifo T := ⟨[], 0⟩

def push (f : Fifo T) (v : T) : Fifo T := { f with queue := f.queue ++ [v] }

/-- Move the front value out. -/
def pop (f : Fifo T) : Fifo T := ⟨f.queue.tail, f.held + 1⟩

/-- Hand the room of the values moved out back. -/
def free (f : Fifo T) : Fifo T := { f with held := 0 }

/-- What one look of the consumer finds ready. The consumer's cached cursor may
be old, so it may find fewer values than there are, but none only where there
are none. -/
def ready (f : Fifo T) (answer : Nat) : Nat :=
  if f.queue = [] then 0 else 1 + answer % f.queue.length

@[simp] theorem push_queue (f : Fifo T) (v : T) : (f.push v).queue = f.queue ++ [v] := rfl
@[simp] theorem pop_queue (f : Fifo T) : f.pop.queue = f.queue.tail := rfl
@[simp] theorem free_queue (f : Fifo T) : f.free.queue = f.queue := rfl
@[simp] theorem empty_queue : (empty : Fifo T).queue = [] := rfl

theorem ready_le (f : Fifo T) (answer : Nat) : f.ready answer ≤ f.queue.length := by
  unfold ready
  split
  · exact Nat.zero_le _
  · next h =>
    have hpos : 0 < f.queue.length := List.length_pos_iff.mpr h
    have := Nat.mod_lt answer hpos
    omega

theorem ready_eq_zero {f : Fifo T} {answer : Nat} : f.ready answer = 0 ↔ f.queue = [] := by
  unfold ready
  split
  · next h => simp [h]
  · next h =>
    constructor
    · intro h0
      omega
    · intro h0
      exact absurd h0 h

end Fifo

end Prescient
