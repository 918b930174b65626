import Prescient.RingFifo

/-!
# Waiting for capacity

The async send path of `mpsc/chan.rs` on one ring: the producer's futures
(`SendFuture`, `SendBatchFuture`), the shard that the receiving side drains,
recycles and drops, and the `TaskWaiter` between them (`task_waker.rs`). Every
ring of a channel has a waiter of its own, and the receiving side may treat the
rings in any order, so one ring with the party that holds its shard (`owner`)
stands for each producer of a channel, whatever its tier.

`AtomicWaker` is a cell with a waker in it: `register` fills it, and `wake` and
`clear` empty it, `wake` by invoking what was there. A sender that a recycled
ring gets is put into `cell` for the next tenant.

The fields from `wakes` on are history: the wakers invoked so far, where the
sender is, and how far the owner is from a publication to the end of its
notification. The receiver's own waker and the count of live senders are left
out: nothing here reads them. So is the freeing of the ring.
-/

namespace Prescient.AsyncSend

open Prescient.Ring (Inner Sender Receiver RProg)

variable {T : Type}

structure TaskWaiter where
  waker : Option Nat
  waiting : Bool
  needsClear : Bool

/-- Where the sender of the ring is: with its tenant, nowhere, being made, or in the cell. -/
inductive Seat : Type
  | tenant | gone | making | ready
deriving DecidableEq

/-- What the owner has left to do for its latest publication. -/
inductive Phase : Type
  | quiet
  /-- Capacity or disconnection is published, and the waiter not yet consulted. -/
  | published
  /-- The waiter was seen armed. -/
  | saw
  /-- The waiter was disarmed, and its waker not yet invoked. -/
  | swapped
deriving DecidableEq

structure Shared (T : Type) where
  inner : Inner T
  consumerGone : Bool
  producerGone : Bool
  refs : Nat
  cell : Option (Sender T)
  space : TaskWaiter
  wakes : List Nat
  seat : Seat
  phase : Phase

inductive Access : Type
  | ring (e : Ring.Access)
  | consumerGone | producerGone | refs | cell
  | needsClear | waiting | waker
  | notifyLoad | notifySwap | notifyWake
  | wakeByRef
deriving DecidableEq

/-- The accesses of `TaskWaiter::notify`. -/
def Access.ofNotify : Access → Bool
  | .notifyLoad | .notifySwap | .notifyWake => true
  | _ => false

inductive Party : Type
  | producer | owner
deriving DecidableEq

abbrev AProg (T : Type) := Prog Access (Shared T)

def Shared.setInner (s : Shared T) (x : Inner T) : Shared T := { s with inner := x }

/-- A call on the ring. -/
def onRing {α : Type} (p : RProg T α) : AProg T α :=
  p.lift .ring (fun s => s.inner) Shared.setInner

/-! ## The waiter -/

/-- `TaskWaiter::arm`. The answer is history: how many wakers had been invoked when this
one was registered. -/
def arm (waker : Nat) : AProg T Nat := do
  .store .needsClear fun s => { s with space := { s.space with needsClear := true } }
  let mark ← .rmw .waker (fun s => { s with space := { s.space with waker := some waker } })
    fun s => s.wakes.length
  .store .waiting fun s => { s with space := { s.space with waiting := true } }
  return mark

def clear : AProg T Unit := do
  let needsClear ← .load .needsClear fun s => s.space.needsClear
  if needsClear then
    .store .needsClear fun s => { s with space := { s.space with needsClear := false } }
    .store .waiting fun s => { s with space := { s.space with waiting := false } }
    .store .waker fun s => { s with space := { s.space with waker := none } }
  else
    return ()

def notify : AProg T Unit := do
  let waiting ← .rmw .notifyLoad
    (fun s => { s with phase := if s.space.waiting then .saw else .quiet })
    fun s => s.space.waiting
  if waiting then
    let waiting ← .rmw .notifySwap
      (fun s => { s with
        space := { s.space with waiting := false }
        phase := if s.space.waiting then .swapped else .quiet })
      fun s => s.space.waiting
    if waiting then
      .store .notifyWake fun s => { s with
        space := { s.space with waker := none }
        wakes := s.wakes ++ s.space.waker.toList
        phase := .quiet }
    else
      return ()
  else
    return ()

/-! ## The producer -/

/-- How the latest poll of a future ended. `full` is `Pending` because the ring was full,
with the waker the poll registered; `yielded` is `Pending` because the budget was spent;
`ready` has the item that came back, if one did. -/
inductive Polled (T : Type) : Type
  | fresh
  | full (waker mark : Nat)
  | yielded
  | ready (item : Option T)
  | unwound

/-- The two futures. An iterator is the list of its answers, one call after another. -/
inductive Future (T : Type) : Type
  | send (item : Option T)
  | batch (pending : Option T) (items : List (Option T))

/-- The producing side: without a sender, with one, or with a future that borrows it. -/
inductive Producer (T : Type) : Type
  | away
  | holds (tx : Sender T)
  | sending (tx : Sender T) (future : Future T) (last : Polled T)

inductive Sent (T : Type) : Type
  | ok
  | full (item : T)
  | disconnected (item : T)

/-- `Iterator::next`. -/
def next : List (Option T) → Option T × List (Option T)
  | [] => (none, [])
  | answer :: items => (answer, items)

section Send

variable (w : Nat) (proto : Inner T)

def trySendQuiet (tx : Sender T) (item : T) : AProg T (Sender T × Sent T) := do
  let gone ← .load .consumerGone fun s => s.consumerGone
  if gone then
    return (tx, .disconnected item)
  else
    let tx ← onRing (Ring.tryPush w proto tx item)
    return (tx, match tx.last with
      | .err item _ => .full item
      | _ => .ok)

/-- `SendFuture::poll`. Without an item the poll is one after completion, and panics. -/
def pollSend (tx : Sender T) (item : Option T) (waker : Nat) : AProg T (Producer T) :=
  match item with
  | none => .ret (.sending tx (.send none) .unwound)
  | some item => do
    let (tx, sent) ← trySendQuiet w proto tx item
    match sent with
    | .ok => return .sending tx (.send none) (.ready none)
    | .disconnected item => return .sending tx (.send none) (.ready (some item))
    | .full item =>
      let mark ← arm waker
      let (tx, sent) ← trySendQuiet w proto tx item
      match sent with
      | .ok =>
        clear
        return .sending tx (.send none) (.ready none)
      | .disconnected item =>
        clear
        return .sending tx (.send none) (.ready (some item))
      | .full item => return .sending tx (.send (some item)) (.full waker mark)

def asyncSendBudget : Nat := 64

/-- One round of `SendBatchFuture::poll`, with `left` sends in the budget after this one
and `more` the rest of the loop. -/
def offer (waker left : Nat) (more : Sender T → AProg T (Producer T)) (tx : Sender T) (item : T)
    (items : List (Option T)) : AProg T (Producer T) := do
  let (tx, sent) ← trySendQuiet w proto tx item
  match sent with
  | .ok =>
    if left = 0 then
      let panics ← .pick
      if panics = 0 then
        return .sending tx (.batch none items) .unwound
      else
        match next items with
        | (none, items) =>
          clear
          return .sending tx (.batch none items) (.ready none)
        | (some item, items) =>
          clear
          .store .wakeByRef fun s => { s with wakes := s.wakes ++ [waker] }
          return .sending tx (.batch (some item) items) .yielded
    else
      more tx
  | .disconnected item =>
    clear
    return .sending tx (.batch none items) (.ready (some item))
  | .full item =>
    let mark ← arm waker
    let (tx, sent) ← trySendQuiet w proto tx item
    match sent with
    | .ok =>
      clear
      if left = 0 then
        .store .wakeByRef fun s => { s with wakes := s.wakes ++ [waker] }
        return .sending tx (.batch none items) .yielded
      else
        more tx
    | .disconnected item =>
      clear
      return .sending tx (.batch none items) (.ready (some item))
    | .full item => return .sending tx (.batch (some item) items) (.full waker mark)

/-- `SendBatchFuture::poll`, by the budget that is left. The iterator may panic. -/
def pollBatch (waker : Nat) :
    Nat → Sender T → Option T → List (Option T) → AProg T (Producer T)
  | 0, tx, pending, items => .ret (.sending tx (.batch pending items) .yielded)
  | left + 1, tx, some item, items =>
    offer w proto waker left (fun tx => pollBatch waker left tx none items) tx item items
  | left + 1, tx, none, items => do
    let panics ← .pick
    if panics = 0 then
      return .sending tx (.batch none items) .unwound
    else
      match next items with
      | (none, items) =>
        clear
        return .sending tx (.batch none items) (.ready none)
      | (some item, items) =>
        offer w proto waker left (fun tx => pollBatch waker left tx none items) tx item items

def poll (tx : Sender T) (future : Future T) (waker : Nat) : AProg T (Producer T) :=
  match future with
  | .send item => pollSend w proto tx item waker
  | .batch pending items => pollBatch w proto waker asyncSendBudget tx pending items

/-- `try_send`, with no future. -/
def trySend (tx : Sender T) (item : T) : AProg T (Producer T) := do
  let (tx, _) ← trySendQuiet w proto tx item
  return .holds tx

end Send

/-- A future is dropped: cancelled, or after it was ready. -/
def cancel (tx : Sender T) : AProg T (Producer T) := do
  clear
  return .holds tx

/-- `Drop` for a producer: the waiter, the flag, and the reference. -/
def dropProducer : AProg T (Producer T) := do
  clear
  .store .producerGone fun s => { s with producerGone := true }
  .store .refs fun s => { s with refs := s.refs - 1, seat := .gone }
  return .away

/-- The tenant of a sender, if there is one. -/
def seated : Option (Sender T) → Producer T
  | some tx => .holds tx
  | none => .away

/-- The next tenant takes the sender of the ring, if there is one. -/
def claim : AProg T (Producer T) := do
  let tx ← .rmw .cell
    (fun s => if s.cell.isSome then { s with cell := none, seat := .tenant } else s) fun s => s.cell
  return seated tx

/-! ## The owner of the shard -/

/-- The receiving side: with the shard, in the drop of its ring's half, or without. -/
inductive Owner (T : Type) : Type
  | holds (rx : Receiver T)
  | dropping (rx : Receiver T)
  | gone

section Receive

variable (w : Nat) (proto : Inner T)

/-- The commit guard: the head, and then the waiter. -/
def commit (head n : Nat) : AProg T Unit := do
  .store (.ring .storeHead) fun s => { s with
    inner := { s.inner with head := wadd w head n, released := s.inner.released + n }
    phase := .published }
  notify

def drainInPlaceAsync (rx : Receiver T) (max : Nat) : AProg T (Owner T) := do
  if max = 0 then
    return .holds { rx with last := .drained [] }
  else
    let head ← .load (.ring .loadHead) fun s => s.inner.head
    let avail := wsub w rx.tailCache head
    if avail = 0 then
      let (tail, empty) ← .load (.ring .loadTail) fun s => (s.inner.tail, s.inner.isEmpty)
      if wsub w tail head = 0 then
        return .holds { tailCache := tail, last := .none empty }
      else
        visit head tail (min (wsub w tail head) max) 0 []
    else
      visit head rx.tailCache (min avail max) 0 []
where
  /-- The loop from slot `k` on, with `left` slots to go. The callback may panic after any
  move; the guard commits on both ways out. -/
  visit (head tailCache : Nat) : Nat → Nat → List (Option T) → AProg T (Owner T)
    | 0, k, out => do
      commit w head k
      return .holds { tailCache, last := .drained out }
    | left + 1, k, out => do
      let i := wadd w head k &&& proto.mask
      let v ← .rmw (.ring (.read i))
        (fun s => { s with inner := { s.inner with consumed := s.inner.consumed ++ [s.inner.buf i] } })
        fun s => s.inner.buf i
      let panics ← .pick
      if panics = 0 then
        commit w head (k + 1)
        return .holds { tailCache, last := .unwound (out ++ [v]) }
      else
        visit head tailCache left (k + 1) (out ++ [v])

/-- One round of the loop in the drop of the ring's half. -/
def reap (rx : Receiver T) : AProg T (Owner T) := do
  let rx ← onRing (Ring.tryPop w proto rx)
  return match rx.last with
    | .none _ => .gone
    | _ => .dropping rx

end Receive

def isFinished : AProg T Bool := do
  let gone ← .load .producerGone fun s => s.producerGone
  if gone then
    let head ← .load (.ring .loadHead) fun s => s.inner.head
    let tail ← .load (.ring .loadTail) fun s => s.inner.tail
    return decide (head = tail)
  else
    return false

/-- `Shard::recycle`: the ring, if nobody else has a reference to it, and then its waiter. -/
def recycle : AProg T (Option (Sender T)) := do
  let refs ← .rmw .refs (fun s => if s.refs = 1 then { s with seat := .making } else s)
    fun s => s.refs
  if refs = 1 then
    .store (.ring .storeHead) fun s => s.setInner { s.inner with head := 0 }
    .store (.ring .storeTail) fun s =>
      s.setInner { s.inner with tail := 0, accepted := [], consumed := [], released := 0 }
    .store .producerGone fun s => { s with producerGone := false }
    .store .refs fun s => { s with refs := s.refs + 1 }
    clear
    return some { headCache := 0, last := .fresh }
  else
    return none

/-- A finished shard is recycled, and its new sender put where the next tenant finds it. -/
def settle (rx : Receiver T) : AProg T (Owner T) := do
  let finished ← isFinished
  if finished then
    let tx ← recycle
    match tx with
    | some tx =>
      .store .cell fun s => { s with cell := some tx, seat := .ready }
      return .holds { tailCache := 0, last := .fresh }
    | none => return .holds rx
  else
    return .holds rx

/-- `Drop` for a shard, up to the loop in the drop of the ring's half. -/
def dropShard (rx : Receiver T) : AProg T (Owner T) := do
  .store .consumerGone fun s => { s with consumerGone := true, phase := .published }
  notify
  .store .consumerGone fun s => { s with consumerGone := true }
  return .dropping rx

/-! ## The system -/

inductive ProducerOp (T : Type) : Type
  | claim
  | trySend (item : T)
  | sendAsync (item : T)
  | sendBatchAsync (items : List (Option T))
  | poll (waker : Nat)
  | cancel
  | drop

inductive OwnerOp : Type
  | drain (max : Nat)
  | settle
  | drop
  | reap

abbrev Local (T : Type) : Party → Type
  | .producer => Producer T
  | .owner => Owner T

/-- A producer that makes, polls, re-polls and drops its futures, and an owner that
drains, recycles and drops the shard, in any order. -/
def sys (w : Nat) (proto : Inner T) : Sys Party Access (Shared T) (Local T) where
  Op
    | .producer => ProducerOp T
    | .owner => OwnerOp
  can
    | .producer, .claim, .away, _ => true
    | .producer, .trySend _, .holds _, _ => true
    | .producer, .sendAsync _, .holds _, _ => true
    | .producer, .sendBatchAsync _, .holds _, _ => true
    | .producer, .drop, .holds _, _ => true
    | .producer, .poll _, .sending _ _ _, _ => true
    | .producer, .cancel, .sending _ _ _, _ => true
    | .producer, _, _, _ => false
    | .owner, .drain _, .holds _, _ => true
    | .owner, .settle, .holds _, _ => true
    | .owner, .drop, .holds _, _ => true
    | .owner, .reap, .dropping _, _ => true
    | .owner, _, _, _ => false
  body
    | .producer, .claim, _ => claim
    | .producer, .trySend item, .holds tx => trySend w proto tx item
    | .producer, .sendAsync item, .holds tx => .ret (.sending tx (.send (some item)) .fresh)
    | .producer, .sendBatchAsync items, .holds tx => .ret (.sending tx (.batch none items) .fresh)
    | .producer, .drop, .holds _ => dropProducer
    | .producer, .poll waker, .sending tx future _ => poll w proto tx future waker
    | .producer, .cancel, .sending tx _ _ => cancel tx
    | .producer, _, l => .ret l
    | .owner, .drain max, .holds rx => drainInPlaceAsync w proto rx max
    | .owner, .settle, .holds rx => settle rx
    | .owner, .drop, .holds rx => dropShard rx
    | .owner, .reap, .dropping rx => reap w proto rx
    | .owner, _, l => .ret l

/-- A new ring: its sender waits for a tenant. -/
def init (proto : Inner T) : Config Party Access (Shared T) (Local T) where
  shared :=
    { inner := proto
      consumerGone := false
      producerGone := false
      refs := 2
      cell := some { headCache := 0, last := .fresh }
      space := { waker := none, waiting := false, needsClear := false }
      wakes := []
      seat := .ready
      phase := .quiet }
  thr
    | .producer => .idle .away
    | .owner => .idle (.holds { tailCache := 0, last := .fresh })

end Prescient.AsyncSend
