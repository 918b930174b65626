import Prescient.RingFifo
import Prescient.Links

/-!
# The lock-free inbox

The intrusive stack of `backend/ring.rs` through which producers hand new rings to the
receiver. A node of the stack is a ring: the link lives in the ring, and `push` leaks
the ring's `Arc`. Any number of pushers swing the head with a weak compare-exchange;
the one drainer detaches the whole chain with a swap and rebuilds a `Receiver` from
each ring on it, with the cached tail at the ring's head.

A ring's `Receiver` is with a holder (`held`), inside a call of `push` (`pushing`), on
the stack or on a detached chain (`parked`), or dropped. The holder of ring `r` is the
actor `rx r`, whoever that is: it pops, recycles the ring, or pushes it, and there are
as many pushers as rings on their way. The ring's `Sender` is the actor `tx r`.

The fields from `place` on are history. An `Entry` is a completed push, with its
number; `stack`, `detached` and `reclaiming` are the pushes on the stack, on the
drainer's chain and on the chain of `Drop for InboxStack`, from the top down.
-/

namespace Prescient.Inbox

open Prescient.Ring (Inner Sender Receiver)

inductive Party : Type
  | tx (r : Nat)
  | rx (r : Nat)
  | drainer
  | reclaimer
deriving DecidableEq

inductive Place : Type
  | held | pushing | parked | dropped
deriving DecidableEq

/-- A completed push. -/
structure Entry where
  ring : Nat
  num : Nat
deriving DecidableEq

structure Shared (T : Type) where
  head : Option Nat
  /-- `inbox_next` of each ring. -/
  next : Nat → Option Nat
  ring : Nat → Inner T
  producerGone : Nat → Bool
  consumerGone : Nat → Bool
  /-- The ring's `Sender`, as long as it holds its `Arc`. -/
  snd : Nat → Option (Sender T)
  rcv : Nat → Receiver T
  /-- The calls that borrow the stack. -/
  users : List Party
  /-- `Drop for InboxStack` has begun. -/
  gone : Bool
  place : Nat → Place
  pushed : List Entry
  handed : List Entry
  reclaimed : List Entry
  stack : List Entry
  detached : List Entry
  reclaiming : List Entry
  /-- How many pushes were complete at the latest swap, and how many it took. -/
  swept : Nat
  taken : Nat
  /-- When a ring was handed out last: how much of it was consumed, and what was unread.
  `got` is what its `Receiver` yielded since. -/
  start : Nat → Nat
  unread : Nat → List T
  got : Nat → List (Option T)

/-- The accesses. `next k r` is the drainer's read of a link in round `k`. -/
inductive Access : Type
  | ring (r : Nat) (e : Ring.Access)
  | own (r : Nat)
  | producerGone (r : Nat)
  | consumerGone (r : Nat)
  | recycle (r : Nat)
  | enter
  | head
  | link (r : Nat)
  | cas
  | swap
  | next (k r : Nat)
  | ringHead (r : Nat)
  | receive (r : Nat)
  | leave
  | drop
deriving DecidableEq

variable {T : Type}

abbrev IProg (T : Type) := Prog Access (Shared T)

/-- A program over ring `r`. -/
def onRing {α : Type} (r : Nat) (p : Ring.RProg T α) : IProg T α :=
  p.lift (.ring r) (fun s => s.ring r) fun s x => { s with ring := Function.update s.ring r x }

/-! ## The two ends of a ring -/

section Ends

variable (w : Nat) (inner : Nat → Inner T) (r : Nat)

/-- The sender's fields; there is a sender while it runs a call. -/
def loadSender : IProg T (Sender T) :=
  .load (.own r) fun s => (s.snd r).getD { headCache := 0, last := .fresh }

def storeSender (snd : Sender T) : IProg T Unit :=
  .store (.own r) fun s => { s with snd := Function.update s.snd r (some snd) }

def sendBody : Ring.PushOp T → IProg T Unit
  | .tryPush item => do
    let snd ← loadSender r
    storeSender r (← onRing r (Ring.tryPush w (inner r) snd item))
  | .pushFrom max source => do
    let snd ← loadSender r
    storeSender r (← onRing r (Ring.pushFrom w (inner r) snd max source))

/-- `Drop for Sender`, and the release of its `Arc`. -/
def dropSender : IProg T Unit := do
  .store (.producerGone r) fun s => { s with producerGone := Function.update s.producerGone r true }
  .store (.own r) fun s => { s with snd := Function.update s.snd r none }

def loadReceiver : IProg T (Receiver T) := .load (.own r) fun s => s.rcv r

/-- The receiver's fields after a call, with what the call yielded. -/
def storeReceiver (rcv : Receiver T) : IProg T Unit :=
  .store (.own r) fun s =>
    { s with
      rcv := Function.update s.rcv r rcv
      got := Function.update s.got r (s.got r ++ rcv.last.out) }

def recvBody : Ring.PopOp → IProg T Unit
  | .tryPop => do
    let rcv ← loadReceiver r
    storeReceiver r (← onRing r (Ring.tryPop w (inner r) rcv))
  | .drainInto max => do
    let rcv ← loadReceiver r
    storeReceiver r (← onRing r (Ring.drainInto w (inner r) rcv max))
  | .drainInPlace max => do
    let rcv ← loadReceiver r
    storeReceiver r (← onRing r (Ring.drainInPlace w (inner r) rcv max))

/-- `is_finished`. -/
def isFinished : IProg T Bool := do
  let gone ← .load (.producerGone r) fun s => s.producerGone r
  if gone then
    let head ← onRing r (.load .loadHead fun s => s.head)
    let tail ← onRing r (.load .loadTail fun s => s.tail)
    return decide (head = tail)
  else
    return false

/-- A ring reset to a clean epoch. -/
def reset (s : Inner T) : Inner T :=
  { s with head := 0, tail := 0, accepted := [], consumed := [], released := 0 }

/-- The effect of `recycle` on a ring whose sender has gone. -/
def renewed (s : Shared T) : Shared T :=
  { s with
    ring := Function.update s.ring r (reset (s.ring r))
    producerGone := Function.update s.producerGone r false
    rcv := Function.update s.rcv r { tailCache := 0, last := .fresh }
    snd := Function.update s.snd r (some { headCache := 0, last := .fresh })
    start := Function.update s.start r 0
    unread := Function.update s.unread r []
    got := Function.update s.got r [] }

/-- `recycle`, on a finished ring: the new sender is there if the old one has released
its `Arc`. -/
def recycle : IProg T Unit := do
  let finished ← isFinished r
  if finished then
    .store (.recycle r) fun s =>
      if s.snd r = none then renewed r s else s
  else
    return ()

end Ends

/-! ## The stack -/

/-- The state after a successful exchange. -/
def parkedOn (r : Nat) (s : Shared T) : Shared T :=
  { s with
    head := some r
    users := s.users.filter (· ≠ .rx r)
    place := Function.update s.place r .parked
    pushed := s.pushed ++ [⟨r, s.pushed.length⟩]
    stack := ⟨r, s.pushed.length⟩ :: s.stack }

/-- The exchange of `push`, which may fail for no reason: whether it took place, and
the head it saw. The borrow of the stack ends with it. -/
def compareExchangeWeak (r : Nat) (head : Option Nat) : IProg T (Bool × Option Nat) := do
  let spurious ← .pick
  .rmw .cas
    (fun s => if s.head = head ∧ spurious ≠ 0 then parkedOn r s else s)
    fun s => (decide (s.head = head ∧ spurious ≠ 0), s.head)

/-- `InboxStack::push`, of ring `r`. -/
def push (r : Nat) : IProg T Unit := do
  .await .enter (fun s => !s.gone) fun s =>
    { s with users := .rx r :: s.users, place := Function.update s.place r .pushing }
  let head ← .load .head fun s => s.head
  .loop head fun head => do
    .store (.link r) fun s => { s with next := Function.update s.next r head }
    let (ok, seen) ← compareExchangeWeak r head
    return if ok then .inr () else .inl seen

/-- The state after the callback was given the receiver of ring `r`. -/
def handedOut (r head : Nat) (s : Shared T) : Shared T :=
  { s with
    place := Function.update s.place r .held
    rcv := Function.update s.rcv r { tailCache := head, last := .fresh }
    handed := s.handed ++ s.detached.take 1
    detached := s.detached.drop 1
    start := Function.update s.start r (s.ring r).consumed.length
    unread := Function.update s.unread r (s.ring r).queue
    got := Function.update s.got r [] }

/-- `InboxStack::drain_with`. The callback keeps the `Receiver` it is given. -/
def drainWith : IProg T Unit := do
  .await .enter (fun s => !s.gone) fun s => { s with users := .drainer :: s.users }
  let node ← .rmw .swap
    (fun s =>
      { s with
        head := none
        detached := s.stack
        stack := []
        swept := s.pushed.length
        taken := s.stack.length })
    fun s => s.head
  .loop (node, 0) visit
where
  visit : Option Nat × Nat → IProg T ((Option Nat × Nat) ⊕ Unit)
    | (none, _) => do
      .store .leave fun s => { s with users := s.users.filter (· ≠ .drainer) }
      return .inr ()
    | (some r, k) => do
      let next ← .load (.next k r) fun s => s.next r
      let head ← .load (.ringHead r) fun s => (s.ring r).head
      .store (.receive r) (handedOut r head)
      return .inl (next, k + 1)

section Reclaim

variable (w : Nat) (inner : Nat → Inner T)

/-- The state after the rebuilt receiver of ring `r` began to be dropped. -/
def reclaimedOne (r : Nat) (s : Shared T) : Shared T :=
  { s with
    consumerGone := Function.update s.consumerGone r true
    place := Function.update s.place r .dropped
    reclaimed := s.reclaimed ++ s.reclaiming.take 1
    reclaiming := s.reclaiming.drop 1 }

/-- `Drop for Receiver`, of a receiver rebuilt with its cached tail at `head`. -/
def dropReceiver (r head : Nat) : IProg T Unit := do
  .store (.consumerGone r) (reclaimedOne r)
  .loop { tailCache := head, last := .fresh } fun rcv => do
    let rcv ← onRing r (Ring.tryPop w (inner r) rcv)
    return match rcv.last with
      | .val _ => .inl rcv
      | _ => .inr ()

/-- `Drop for InboxStack`, which nobody borrows any more. -/
def dropStack : IProg T Bool := do
  .await .drop (fun s => s.users.isEmpty && !s.gone) fun s => { s with gone := true }
  let node ← .rmw .head (fun s => { s with reclaiming := s.stack, stack := [] }) fun s => s.head
  .loop (node, 0) fun (node, k) => do
    match node with
    | none => return .inr true
    | some r =>
      let next ← .load (.next k r) fun s => s.next r
      let head ← .load (.ringHead r) fun s => (s.ring r).head
      dropReceiver w inner r head
      return .inl (next, k + 1)

end Reclaim

/-! ## The system -/

inductive SendOp (T : Type) : Type
  | push (o : Ring.PushOp T)
  | drop

inductive RecvOp : Type
  | pop (o : Ring.PopOp)
  | recycle
  | park

abbrev Last : Party → Type
  | .reclaimer => Bool
  | _ => Unit

/-- Any number of rings, each built from its own declaration, with their senders and
holders; one drainer; and the drop of the stack. -/
def sys (w : Nat) (inner : Nat → Inner T) : Sys Party Access (Shared T) Last where
  Op
    | .tx _ => SendOp T
    | .rx _ => RecvOp
    | .drainer => Unit
    | .reclaimer => Unit
  can
    | .tx r, _, _, s => (s.snd r).isSome
    | .rx r, _, _, s => decide (s.place r = .held)
    | .drainer, _, _, _ => true
    | .reclaimer, _, done, _ => !done
  body
    | .tx r, .push o, _ => sendBody w inner r o
    | .tx r, .drop, _ => dropSender r
    | .rx r, .pop o, _ => recvBody w inner r o
    | .rx r, .recycle, _ => recycle r
    | .rx r, .park, _ => push r
    | .drainer, _, _ => drainWith
    | .reclaimer, _, _ => dropStack w inner

def init (inner : Nat → Inner T) : Config Party Access (Shared T) Last where
  shared :=
    { head := none
      next := fun _ => none
      ring := inner
      producerGone := fun _ => false
      consumerGone := fun _ => false
      snd := fun _ => some { headCache := 0, last := .fresh }
      rcv := fun _ => { tailCache := 0, last := .fresh }
      users := []
      gone := false
      place := fun _ => .held
      pushed := []
      handed := []
      reclaimed := []
      stack := []
      detached := []
      reclaiming := []
      swept := 0
      taken := 0
      start := fun _ => 0
      unread := fun _ => []
      got := fun _ => [] }
  thr
    | .tx _ => .idle ()
    | .rx _ => .idle ()
    | .drainer => .idle ()
    | .reclaimer => .idle false

end Prescient.Inbox
