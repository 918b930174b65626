import Prescient.Actor
import Prescient.Word

/-!
# The SPSC ring

The bounded ring of `backend/ring.rs`, access by access. The producer and the
consumer keep private copies of the other side's cursor (`headCache`,
`tailCache`) and refresh them only when the ring looks full or empty; the bulk
operations move many slots and publish them with one store.

Three fields of `Inner` are history, not memory: `accepted` (values published,
in order), `consumed` (what the consumer moved out of the slots, in order, an
uninitialised slot being `none`) and `released` (slots handed back by stores of
`head`). No program reads them.
-/

namespace Prescient.Ring

/-- The shared part of a ring. -/
structure Inner (T : Type) where
  buf : Nat → Option T
  mask : Nat
  cap : Nat
  head : Nat
  tail : Nat
  accepted : List T
  consumed : List (Option T)
  released : Nat

/-- `build`: the capacity is rounded up to a power of two that must be a word. -/
def build (T : Type) (w capacity : Nat) : Option (Inner T) :=
  (checkedNextPowerOfTwo w (max capacity 1)).map fun cap =>
    { buf := fun _ => none, mask := cap - 1, cap := cap, head := 0, tail := 0,
      accepted := [], consumed := [], released := 0 }

/-- The atomic accesses of the two halves. `write i` and `read i` move one value
into or out of slot `i`. -/
inductive Access : Type
  | loadHead | loadTail | storeHead | storeTail
  | write (i : Nat)
  | read (i : Nat)
deriving DecidableEq

variable {T : Type}

/-- How the producer's latest call ended. `full` is what the producer's load of
`head` saw: whether the ring was full at that moment. -/
inductive Pushed (T : Type) : Type
  | fresh
  | ok
  | err (item : T) (full : Bool)
  | moved (n : Nat) (unread : List T)

/-- The producing half, with the result of its latest call. -/
structure Sender (T : Type) where
  headCache : Nat
  last : Pushed T

/-- How the consumer's latest call ended. `empty` is what its load of `tail`
saw. An unwound call keeps what the callback was given. -/
inductive Popped (T : Type) : Type
  | fresh
  | val (v : Option T)
  | none (empty : Bool)
  | drained (out : List (Option T))
  | unwound (out : List (Option T))

/-- The consuming half, with the result of its latest call. -/
structure Receiver (T : Type) where
  tailCache : Nat
  last : Popped T

abbrev RProg (T : Type) := Prog Access (Inner T)

section Code

variable (w : Nat) (inner : Inner T)

/-- Whether the ring is full, as seen by one look at both cursors. -/
def Inner.isFull (s : Inner T) : Bool := decide (wsub w s.tail s.head ≥ s.cap)

/-- Whether the ring is empty, as seen by one look at both cursors. -/
def Inner.isEmpty (s : Inner T) : Bool := decide (s.head = s.tail)

/-- Write consecutive slots from `i` on. -/
def writeSpan : Nat → List T → RProg T Unit
  | _, [] => .ret ()
  | i, v :: vs => do
    .store (.write i) fun s => { s with buf := Function.update s.buf i (some v) }
    writeSpan (i + 1) vs

/-- Move `n` consecutive slots out, from `i` on. -/
def readSpan : Nat → Nat → RProg T (List (Option T))
  | _, 0 => .ret []
  | i, n + 1 => do
    let v ← .rmw (.read i) (fun s => { s with consumed := s.consumed ++ [s.buf i] })
      fun s => s.buf i
    let vs ← readSpan (i + 1) n
    return v :: vs

/-- Write `vs` from slot `start` on: the span up to the end of the buffer, then
the rest from slot 0. -/
def writeSpans (cap start : Nat) (vs : List T) : RProg T Unit := do
  let first := min vs.length (cap - start)
  writeSpan start (vs.take first)
  if first ≠ vs.length then writeSpan 0 (vs.drop first) else pure ()

/-- Move `n` slots out from slot `start` on, in at most two spans. -/
def readSpans (cap start n : Nat) : RProg T (List (Option T)) := do
  let first := min n (cap - start)
  let out ← readSpan start first
  if first ≠ n then
    let rest ← readSpan 0 (n - first)
    return out ++ rest
  else
    return out

/-- Publish `vs`, already written behind `tail`. -/
def storeTail (tail : Nat) (vs : List T) : RProg T Unit :=
  .store .storeTail fun s =>
    { s with tail := wadd w tail vs.length, accepted := s.accepted ++ vs }

/-- Hand `n` slots back to the producer. -/
def storeHead (head n : Nat) : RProg T Unit :=
  .store .storeHead fun s => { s with head := wadd w head n, released := s.released + n }

/-- The producer's refresh of its cached cursor: the head, and whether the ring
was full when it was loaded. -/
def loadHead : RProg T (Nat × Bool) := .load .loadHead fun s => (s.head, s.isFull w)

/-- The consumer's refresh of its cached cursor. -/
def loadTail : RProg T (Nat × Bool) := .load .loadTail fun s => (s.tail, s.isEmpty)

def tryPush (snd : Sender T) (item : T) : RProg T (Sender T) := do
  let tail ← .load .loadTail fun s => s.tail
  if wsub w tail snd.headCache ≥ inner.cap then
    let (head, full) ← loadHead w
    if wsub w tail head ≥ inner.cap then
      return { headCache := head, last := .err item full }
    else
      put tail head
  else
    put tail snd.headCache
where
  put (tail headCache : Nat) : RProg T (Sender T) := do
    writeSpan (tail &&& inner.mask) [item]
    storeTail w tail [item]
    return { headCache, last := .ok }

def pushFrom (snd : Sender T) (max : Nat) (source : List T) : RProg T (Sender T) := do
  let limit := min source.length max
  if limit = 0 then
    return { snd with last := .moved 0 source }
  else
    let tail ← .load .loadTail fun s => s.tail
    let used := wsub w tail snd.headCache
    if used ≥ inner.cap then
      let (head, _) ← loadHead w
      move tail head (min limit (inner.cap - wsub w tail head))
    else
      move tail snd.headCache (min limit (inner.cap - used))
where
  move (tail headCache n : Nat) : RProg T (Sender T) := do
    if n = 0 then
      return { headCache, last := .moved 0 source }
    else if n = 1 then
      writeSpan (tail &&& inner.mask) (source.take 1)
      storeTail w tail (source.take 1)
      return { headCache, last := .moved 1 (source.drop 1) }
    else
      writeSpans inner.cap (tail &&& inner.mask) (source.take n)
      storeTail w tail (source.take n)
      return { headCache, last := .moved n (source.drop n) }

def tryPop (rcv : Receiver T) : RProg T (Receiver T) := do
  let head ← .load .loadHead fun s => s.head
  if head = rcv.tailCache then
    let (tail, empty) ← loadTail
    if head = tail then
      return { tailCache := tail, last := .none empty }
    else
      take head tail
  else
    take head rcv.tailCache
where
  take (head tailCache : Nat) : RProg T (Receiver T) := do
    let v ← readSpan (head &&& inner.mask) 1
    storeHead w head 1
    return { tailCache, last := .val v.head?.join }

/-- `reserve` may panic, before any slot is touched. -/
def reserve (tailCache : Nat) (k : RProg T (Receiver T)) : RProg T (Receiver T) :=
  .choose fun ok => if ok = 0 then .ret { tailCache, last := .unwound [] } else k

def drainInto (rcv : Receiver T) (max : Nat) : RProg T (Receiver T) := do
  let head ← .load .loadHead fun s => s.head
  let available := wsub w rcv.tailCache head
  if available = 0 then
    let (tail, _) ← loadTail
    move head tail (min (wsub w tail head) max)
  else
    move head rcv.tailCache (min available max)
where
  move (head tailCache n : Nat) : RProg T (Receiver T) :=
    if n = 0 then
      .ret { tailCache, last := .drained [] }
    else if n = 1 then
      reserve tailCache do
        let out ← readSpan (head &&& inner.mask) 1
        storeHead w head 1
        return { tailCache, last := .drained out }
    else
      reserve tailCache do
        let out ← readSpans inner.cap (head &&& inner.mask) n
        storeHead w head n
        return { tailCache, last := .drained out }

def drainInPlace (rcv : Receiver T) (max : Nat) : RProg T (Receiver T) := do
  let head ← .load .loadHead fun s => s.head
  let avail := wsub w rcv.tailCache head
  if avail = 0 then
    let (tail, empty) ← loadTail
    if wsub w tail head = 0 then
      return { tailCache := tail, last := .none empty }
    else
      visit head tail (min (wsub w tail head) max) 0 []
  else
    visit head rcv.tailCache (min avail max) 0 []
where
  /-- The loop from slot `k` on, with `left` slots to go. The callback may panic
  after any move; the commit guard stores `head` on both ways out. -/
  visit (head tailCache : Nat) : Nat → Nat → List (Option T) → RProg T (Receiver T)
    | 0, k, out => do
      storeHead w head k
      return { tailCache, last := .drained out }
    | left + 1, k, out => do
      let v ← readSpan (wadd w head k &&& inner.mask) 1
      let panics ← .pick
      if panics = 0 then
        storeHead w head (k + 1)
        return { tailCache, last := .unwound (out ++ v) }
      else
        visit head tailCache left (k + 1) (out ++ v)

end Code

/-! ## The system of the two halves -/

inductive Side : Type
  | producer | consumer
deriving DecidableEq

abbrev Half (T : Type) : Side → Type
  | .producer => Sender T
  | .consumer => Receiver T

inductive PushOp (T : Type) : Type
  | tryPush (item : T)
  | pushFrom (max : Nat) (source : List T)

inductive PopOp : Type
  | tryPop
  | drainInto (max : Nat)
  | drainInPlace (max : Nat)

/-- One producer and one consumer on the ring `inner`, each making any calls in
any order. -/
def sys (w : Nat) (inner : Inner T) : Sys Side Access (Inner T) (Half T) where
  Op
    | .producer => PushOp T
    | .consumer => PopOp
  can _ _ _ _ := true
  body
    | .producer, .tryPush item, snd => tryPush w inner snd item
    | .producer, .pushFrom max source, snd => pushFrom w inner snd max source
    | .consumer, .tryPop, rcv => tryPop w inner rcv
    | .consumer, .drainInto max, rcv => drainInto w inner rcv max
    | .consumer, .drainInPlace max, rcv => drainInPlace w inner rcv max

/-- `halves`: both endpoints idle, with their caches at the initial cursors. -/
def init (inner : Inner T) : Config Side Access (Inner T) (Half T) where
  shared := inner
  thr
    | .producer => .idle { headCache := 0, last := .fresh }
    | .consumer => .idle { tailCache := 0, last := .fresh }

/-- Slot `i` holds one of the positions `[head, tail)`. -/
def InWindow (w : Nat) (s : Inner T) (i : Nat) : Prop :=
  ∃ k, k < wsub w s.tail s.head ∧ i = wadd w s.head k &&& s.mask

end Prescient.Ring
