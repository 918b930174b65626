import Prescient.AsyncWake

/-!
# Sending a batch

`SendBatchFuture` of `mpsc/chan.rs` on one ring, with the receiving side draining, recycling
and dropping the shard: what is pushed, what waits in the future, what is still in the
iterator, and the notifications of the receiver. The ring, its shard and its waiter are those
of the async send path; `doorbell` is the waiter of the receiver.

An iterator is the list of its answers, one call of `next` after another, and answers with
`none` from its end on. A call may panic and a later one answer.

The fields `announced` and `rings` of the shared state are history: how many values had been
accepted when the latest notification of the receiver began, and the wakers it invoked. So
are `original`, `sent`, `start` and `unwound` of a future: the items it was made with, those
it has pushed, how many of them at the start of its latest poll, and whether a poll of it has
panicked. The count of live senders is left out, as nothing here reads it.

* `batch_accounts`: at every return from a poll each item is in one place, and announced.
-/

namespace Prescient.SendBatch

open Prescient.Ring (Inner Sender Shaped)
open Prescient.AsyncSend (TaskWaiter Sent trySendQuiet)

variable {T : Type}

structure Shared (T : Type) where
  chan : AsyncSend.Shared T
  doorbell : TaskWaiter
  announced : Nat
  rings : List Nat

inductive Access : Type
  | chan (e : AsyncSend.Access)
  | waiting | swap | wake
  | needsClear | waker
deriving DecidableEq

abbrev BProg (T : Type) := Prog Access (Shared T)

def Shared.setChan (s : Shared T) (x : AsyncSend.Shared T) : Shared T := { s with chan := x }

/-- A part of the async send path. -/
def onChan {α : Type} (p : AsyncSend.AProg T α) : BProg T α :=
  p.lift .chan (fun s => s.chan) Shared.setChan

/-! ## The receiver's waiter -/

/-- `notify_consumer`. -/
def notifyConsumer : BProg T Unit := do
  let waiting ← .rmw .waiting (fun s => { s with announced := s.chan.inner.accepted.length })
    fun s => s.doorbell.waiting
  if waiting then
    let waiting ← .rmw .swap (fun s => { s with doorbell := { s.doorbell with waiting := false } })
      fun s => s.doorbell.waiting
    if waiting then
      .store .wake fun s => { s with
        doorbell := { s.doorbell with waker := none }
        rings := s.rings ++ s.doorbell.waker.toList }
    else
      return ()
  else
    return ()

/-- `arm`, of the receiver's waiter. -/
def armDoorbell (waker : Nat) : BProg T Unit := do
  .store .needsClear fun s => { s with doorbell := { s.doorbell with needsClear := true } }
  .store .waker fun s => { s with doorbell := { s.doorbell with waker := some waker } }
  .store .waiting fun s => { s with doorbell := { s.doorbell with waiting := true } }

/-- `clear`, of the receiver's waiter. -/
def clearDoorbell : BProg T Unit := do
  let needsClear ← .load .needsClear fun s => s.doorbell.needsClear
  if needsClear then
    .store .needsClear fun s => { s with doorbell := { s.doorbell with needsClear := false } }
    .store .waiting fun s => { s with doorbell := { s.doorbell with waiting := false } }
    .store .waker fun s => { s with doorbell := { s.doorbell with waker := none } }
  else
    return ()

/-! ## The future -/

/-- What a call of `Iterator::next` comes to. -/
inductive Answer (T : Type) : Type
  | item (v : T)
  | done
  | panics

/-- `Iterator::next`. -/
def next : List (Answer T) → Answer T × List (Answer T)
  | [] => (.done, [])
  | answer :: items => (answer, items)

/-- The items an iterator has before its end. -/
def yields : List (Answer T) → List T
  | [] => []
  | .item v :: items => v :: yields items
  | .panics :: items => yields items
  | .done :: _ => []

/-- `SendBatchFuture`. -/
structure Future (T : Type) where
  pending : Option T
  items : List (Answer T)
  dirty : Bool
  original : List T
  sent : List T
  start : Nat
  unwound : Bool

/-- How the latest poll of a future ended. `full` is `Pending` with the waker registered,
`yielded` is `Pending` because the budget was spent; with each how many wakers had been invoked
before. `underflow` is a budget that goes below zero. -/
inductive Polled (T : Type) : Type
  | fresh
  | full (waker mark : Nat)
  | yielded (waker mark : Nat)
  | ok
  | err (item : T)
  | unwound
  | underflow

def Polled.complete : Polled T → Bool
  | ok | err _ | underflow => true
  | _ => false

/-- The poll has returned. -/
def Polled.returned : Polled T → Bool
  | fresh | unwound => false
  | _ => true

/-- The producing side: with its sender, with a future that borrows it, or gone. -/
inductive Producer (T : Type) : Type
  | away
  | holds (tx : Sender T)
  | sending (tx : Sender T) (future : Future T) (last : Polled T)

def ASYNC_SEND_BUDGET : Nat := 64

namespace Future

/-- `pending.take().or_else(|| items.next())`. -/
def take (f : Future T) : Answer T × Future T :=
  match f.pending with
  | some item => (.item item, { f with pending := none })
  | none =>
    let (answer, items) := next f.items
    (answer, { f with items })

/-- An item of the future was pushed. -/
def push (f : Future T) (item : T) : Future T :=
  { f with sent := f.sent ++ [item], dirty := true }

end Future

/-- The variables of the loop in `poll`. -/
structure Turn (T : Type) where
  tx : Sender T
  future : Future T
  published : Bool
  budget : Nat

section Poll

variable (w : Nat) (proto : Inner T) (waker : Nat)

/-- What most ways out of the loop do for the receiver. -/
def announce (published : Bool) (future : Future T) : BProg T (Future T) := do
  if published then
    notifyConsumer
    return { future with dirty := false }
  else
    return future

/-- The task is scheduled again by its own poll. -/
def wakeByRef : BProg T Nat :=
  onChan (.rmw .wakeByRef (fun s => { s with wakes := s.wakes ++ [waker] }) fun s => s.wakes.length)

/-- The end of the budget at the first push of a round. -/
def spent (tx : Sender T) (future : Future T) : BProg T (Producer T) :=
  match next future.items with
  | (.panics, items) =>
    return .sending tx { future with items, unwound := true } .unwound
  | (.done, items) => do
    notifyConsumer
    onChan AsyncSend.clear
    return .sending tx { future with items, dirty := false } .ok
  | (.item item, items) => do
    notifyConsumer
    onChan AsyncSend.clear
    let mark ← wakeByRef waker
    return .sending tx { future with items, pending := some item, dirty := false }
      (.yielded waker mark)

/-- The ring was full: the waker is registered, and the ring looked at again. -/
def retry (turn : Turn T) (item : T) : BProg T (Turn T ⊕ Producer T) := do
  let future ← announce turn.published turn.future
  let mark ← onChan (AsyncSend.arm waker)
  let (tx, sent) ← onChan (trySendQuiet w proto turn.tx item)
  match sent with
  | .ok =>
    onChan AsyncSend.clear
    match turn.budget with
    | 0 => return .inr (.sending tx (future.push item) .underflow)
    | budget + 1 =>
      if budget = 0 then
        notifyConsumer
        let mark ← wakeByRef waker
        return .inr (.sending tx { future.push item with dirty := false } (.yielded waker mark))
      else
        return .inl { tx, future := future.push item, published := true, budget }
  | .disconnected item =>
    onChan AsyncSend.clear
    return .inr (.sending tx future (.err item))
  | .full item =>
    return .inr (.sending tx { future with pending := some item } (.full waker mark))

/-- One round of the loop. -/
def round (turn : Turn T) : BProg T (Turn T ⊕ Producer T) :=
  match turn.future.take with
  | (.panics, future) =>
    return .inr (.sending turn.tx { future with unwound := true } .unwound)
  | (.done, future) => do
    let future ← announce turn.published future
    onChan AsyncSend.clear
    return .inr (.sending turn.tx future .ok)
  | (.item item, future) => do
    let (tx, sent) ← onChan (trySendQuiet w proto turn.tx item)
    match sent with
    | .ok =>
      match turn.budget with
      | 0 => return .inr (.sending tx (future.push item) .underflow)
      | budget + 1 =>
        if budget = 0 then
          let ended ← spent waker tx (future.push item)
          return .inr ended
        else
          return .inl { tx, future := future.push item, published := true, budget }
    | .disconnected item => do
      let future ← announce turn.published future
      onChan AsyncSend.clear
      return .inr (.sending tx future (.err item))
    | .full item => retry w proto waker { turn with tx, future } item

/-- `SendBatchFuture::poll`. -/
def poll (tx : Sender T) (future : Future T) : BProg T (Producer T) :=
  .loop { tx, future := { future with start := future.sent.length }, published := false,
          budget := ASYNC_SEND_BUDGET } (round w proto waker)

/-- `Producer::try_send`. -/
def trySend (tx : Sender T) (item : T) : BProg T (Producer T) := do
  let (tx, sent) ← onChan (trySendQuiet w proto tx item)
  match sent with
  | .ok =>
    notifyConsumer
    return .holds tx
  | _ => return .holds tx

end Poll

/-- `send_batch_async`. -/
def sendBatchAsync (items : List (Answer T)) : Future T :=
  { pending := none, items, dirty := false, original := yields items, sent := [], start := 0,
    unwound := false }

/-- `Drop` for a future. -/
def dropFuture (tx : Sender T) (future : Future T) : BProg T (Producer T) := do
  let _ ← announce future.dirty future
  onChan AsyncSend.clear
  return .holds tx

def dropProducer : BProg T (Producer T) := do
  let _ ← onChan AsyncSend.dropProducer
  return .away

/-! ## The system -/

inductive ProducerOp (T : Type) : Type
  | trySend (item : T)
  | sendBatchAsync (items : List (Answer T))
  | poll (waker : Nat)
  | dropFuture
  | drop

inductive ReceiverOp : Type
  | shard (o : AsyncSend.OwnerOp)
  | arm (waker : Nat)
  | clear

abbrev Local (T : Type) : AsyncSend.Party → Type
  | .producer => Producer T
  | .owner => AsyncSend.Owner T

/-- A producer that makes, polls and drops futures, one after another, and a receiver that
drains and drops the shard and arms its waiter, in any order. A future that is complete is not
polled again; one that has panicked may be. -/
def sys (w : Nat) (proto : Inner T) : Sys AsyncSend.Party Access (Shared T) (Local T) where
  Op
    | .producer => ProducerOp T
    | .owner => ReceiverOp
  can
    | .producer, .trySend _, .holds _, _ => true
    | .producer, .sendBatchAsync _, .holds _, _ => true
    | .producer, .drop, .holds _, _ => true
    | .producer, .poll _, .sending _ _ last, _ => !last.complete
    | .producer, .dropFuture, .sending _ _ _, _ => true
    | .producer, _, _, _ => false
    | .owner, .shard o, l, s => (AsyncSend.sys w proto).can .owner o l s.chan
    | .owner, _, _, _ => true
  body
    | .producer, .trySend item, .holds tx => trySend w proto tx item
    | .producer, .sendBatchAsync items, .holds tx => .ret (.sending tx (sendBatchAsync items) .fresh)
    | .producer, .drop, .holds _ => dropProducer
    | .producer, .poll waker, .sending tx future _ => poll w proto waker tx future
    | .producer, .dropFuture, .sending tx future _ => dropFuture tx future
    | .producer, _, l => .ret l
    | .owner, .shard o, l => onChan ((AsyncSend.sys w proto).body .owner o l)
    | .owner, .arm waker, l => (armDoorbell waker).bind fun _ => .ret l
    | .owner, .clear, l => clearDoorbell.bind fun _ => .ret l

/-- A new ring with its producer. -/
def init (proto : Inner T) : Config AsyncSend.Party Access (Shared T) (Local T) where
  shared :=
    { chan :=
        { inner := proto
          consumerGone := false
          producerGone := false
          refs := 2
          cell := none
          space := { waker := none, waiting := false, needsClear := false }
          wakes := []
          seat := .tenant
          phase := .quiet }
      doorbell := { waker := none, waiting := false, needsClear := false }
      announced := 0
      rings := [] }
  thr
    | .producer => .idle (.holds { headCache := 0, last := .fresh })
    | .owner => .idle (.holds { tailCache := 0, last := .fresh })

/-! ## What is to hold -/

/-- Where the items of a future are after a poll. -/
def Balanced (f : Future T) : Polled T → Prop
  | .ok => f.sent = f.original
  | .err item => f.sent ++ item :: yields f.items = f.original
  | _ => f.sent ++ (f.pending.toList ++ yields f.items) = f.original

/-- A future's books, against what the ring accepted and how much of it is announced. -/
structure Books (f : Future T) (last : Polled T) (accepted : List T) (upTo : Nat) : Prop where
  /-- Nothing is lost, sent twice or reordered. -/
  balanced : Balanced f last
  /-- What it counts as pushed is what the ring accepted last. -/
  pushed : f.sent <:+ accepted
  /-- Unless a poll has panicked, everything is announced. -/
  announced : f.unwound = false → upTo = accepted.length
  unwound : last = .unwound → f.unwound = true
  /-- After a panic the drop of the future announces what is not. -/
  dirty : upTo ≠ accepted.length → f.dirty = true
  budget : f.sent.length ≤ f.start + ASYNC_SEND_BUDGET
  no_underflow : last ≠ .underflow

/-- Who wakes the task after a `Pending`: its waker is registered on a full ring with an open
shard, or has been or is being invoked; or the poll has invoked it. -/
def Waits (proto : Inner T) (last : Polled T) (s : AsyncSend.Shared T) : Prop :=
  match last with
  | .full waker mark =>
    AsyncSend.Pending waker mark (fun s => AsyncSend.Open s ∧ AsyncSend.Full proto s) s
  | .yielded waker mark => mark ≤ s.wakes.length ∧ AsyncSend.Woken waker mark s
  | _ => True

/-- What is true of a future between its polls. -/
structure Account (proto : Inner T) (f : Future T) (last : Polled T) (s : Shared T) : Prop where
  books : Books f last s.chan.inner.accepted s.announced
  waits : Waits proto last s.chan

namespace SendBatchLemmas

open AsyncSend.WakeLemmas

variable {w : Nat} {proto : Inner T} {s s' : Shared T} {tx : Sender T} {A : List T} {n : Nat}

def Loc (w : Nat) (proto : Inner T) : (a : AsyncSend.Party) → Local T a → Shared T → Prop
  | .producer, .away, _ => True
  | .producer, .holds tx, s => Own w proto tx s.chan ∧ s.announced = s.chan.inner.accepted.length
  | .producer, .sending tx f last, s => Own w proto tx s.chan ∧ Account proto f last s
  | .owner, l, s => AsyncSend.Loc w proto .owner l s.chan

abbrev spec (w : Nat) (proto : Inner T) : Spec AsyncSend.Party Access (Shared T) (Local T) where
  inv s := AsyncSend.Inv w proto s.chan
  guar
    | .producer, s, s' => AsyncSend.Guar .producer s.chan s'.chan
    | .owner, s, s' => AsyncSend.Guar .owner s.chan s'.chan ∧ s'.announced = s.announced
  pre i e s := ∀ e', e = .chan e' → AsyncSend.Pre i e' s.chan
  ok := anyAccess
  loc := Loc w proto

/-! ### Parts of the async send path -/

theorem stable_chan {P : AsyncSend.Shared T → Prop}
    (hP : Stable (AsyncSend.spec w proto) .producer P) :
    Stable (spec w proto) .producer fun s => P s.chan ∧ s.announced = n := by
  intro j s s' hj hi hi' hg h
  cases j with
  | producer => exact absurd rfl hj
  | owner => exact ⟨hP .owner _ _ hj hi hi' hg.1 h.1, hg.2.trans h.2⟩

theorem chan_tri {α : Type} {P : AsyncSend.Shared T → Prop} {Q : α → AsyncSend.Shared T → Prop}
    {p : AsyncSend.AProg T α} (h : Tri (AsyncSend.spec w proto) .producer P p Q) :
    Tri (spec w proto) .producer (fun s => P s.chan ∧ s.announced = n) (onChan p)
      fun a s => Q a s.chan ∧ s.announced = n := by
  refine Tri.lift (spec w proto) .chan (fun s => s.chan) Shared.setChan (fun s => s.announced = n)
    (fun _ _ => rfl) (fun _ hi _ => hi) (fun j s s' hj _ _ hg hF => ?_)
    (fun e s _ _ hpre e' he => ?_) (fun _ _ _ => trivial)
    (fun _ _ _ hF hx hg => ⟨hx, hg, hF⟩) h
  · cases j with
    | producer => exact absurd rfl hj
    | owner => exact ⟨hg.2.trans hF, .inr ⟨.owner, hj, hg.1⟩⟩
  · cases he
    exact hpre

theorem owner_tri {α : Type} {P : AsyncSend.Shared T → Prop} {Q : α → AsyncSend.Shared T → Prop}
    {p : AsyncSend.AProg T α} (h : Tri (AsyncSend.spec w proto) .owner P p Q) :
    Tri (spec w proto) .owner (fun s => P s.chan) (onChan p) fun a s => Q a s.chan := by
  have hlift : Tri (spec w proto) .owner (fun s => P s.chan ∧ True) (onChan p)
      fun a s => Q a s.chan ∧ True := by
    refine Tri.lift (spec w proto) .chan (fun s => s.chan) Shared.setChan (fun _ => True)
      (fun _ _ => rfl) (fun _ hi _ => hi) (fun j s s' hj _ _ hg _ => ?_)
      (fun e s _ _ hpre e' he => ?_) (fun _ _ _ => trivial)
      (fun _ _ _ _ hx hg => ⟨hx, ⟨hg, rfl⟩, trivial⟩) h
    · cases j with
      | producer => exact ⟨trivial, .inr ⟨.producer, hj, hg⟩⟩
      | owner => exact absurd rfl hj
    · cases he
      exact hpre
  exact hlift.conseq (fun _ _ h => ⟨h, trivial⟩) fun _ _ _ h => h.1

/-! ### What the producer knows -/

/-- The producer has its sender, and knows what was accepted. -/
def Has (w : Nat) (proto : Inner T) (tx : Sender T) (A : List T) (s : AsyncSend.Shared T) : Prop :=
  Own w proto tx s ∧ s.inner.accepted = A

/-- And how much of it is announced. -/
def Acc (w : Nat) (proto : Inner T) (tx : Sender T) (A : List T) (n : Nat) (s : Shared T) : Prop :=
  Has w proto tx A s.chan ∧ s.announced = n

theorem stable_has (tx : Sender T) (A : List T) :
    Stable (AsyncSend.spec w proto) .producer (Has w proto tx A) := by
  intro j s s' hj hi hi' hg h
  refine ⟨stable_own tx j s s' hj hi hi' hg h.1, ?_⟩
  cases j with
  | producer => exact absurd rfl hj
  | owner => exact (hg h.1.1).2.1.1.trans h.2

theorem stable_acc (tx : Sender T) (A : List T) (n : Nat) :
    Stable (spec w proto) .producer (Acc w proto tx A n) :=
  stable_chan (stable_has tx A)

/-- What a send did. -/
def Outcome (A : List T) (item : T) : Sent T → AsyncSend.Shared T → Prop
  | .ok, s => s.inner.accepted = A ++ [item]
  | .full v, s => v = item ∧ s.inner.accepted = A
  | .disconnected v, s => v = item ∧ s.inner.accepted = A

theorem sent_tri (hs : Shaped w proto) (tx : Sender T) (item : T) :
    Tri (AsyncSend.spec w proto) .producer (Has w proto tx A) (trySendQuiet w proto tx item)
      (fun r s => Own w proto r.1 s ∧ Outcome A item r.2 s) := by
  have hst : ∀ r : Sender T × Sent T, Stable (AsyncSend.spec w proto) .producer fun s =>
      Own w proto r.1 s ∧ Outcome A item r.2 s := by
    rintro ⟨tx, sent⟩ j s s' hj hi hi' hg ⟨hown, hout⟩
    have hsame : s'.inner.accepted = s.inner.accepted := by
      cases j with
      | producer => exact absurd rfl hj
      | owner => exact (hg hown.1).2.1.1
    refine ⟨stable_own tx j s s' hj hi hi' hg hown, ?_⟩
    cases sent with
    | ok => exact hsame.trans hout
    | full v => exact ⟨hout.1, hsame.trans hout.2⟩
    | disconnected v => exact ⟨hout.1, hsame.trans hout.2⟩
  refine Tri.bind (R := fun _ => Has w proto tx A) (Tri.load (stable_has tx A)
    (fun _ => stable_has tx A) fun s _ h => ⟨trivial, fun _ => ⟨guar_same .producer s, h⟩⟩)
    fun gone => ?_
  split
  · exact Tri.ret (hst _) fun _ _ h => ⟨h.1, rfl, h.2⟩
  · have hpush := (onRing_tri (K := fun _ => True) (stable_tenant.and (Stable.const True))
      (fun _ _ _ => trivial) (Ring.FifoLemmas.tryPush_accepts_tri hs tx item (A := A)))
    refine Tri.bind (hpush.conseq (fun _ _ h => ⟨⟨h.1.2, h.2⟩, h.1.1, trivial⟩) fun _ _ _ h => h)
      fun tx' => ?_
    rintro s hi ⟨⟨hloc, hout⟩, hseat, -⟩
    refine Safe.ret (hst _) ⟨⟨hseat, hloc⟩, ?_⟩
    rcases hout with ⟨hlast, hacc⟩ | ⟨⟨full, hlast⟩, hacc⟩
    · simp only [hlast]
      exact hacc
    · simp only [hlast]
      exact ⟨rfl, hacc⟩

/-- An access to the receiver's waiter. -/
theorem doorbell_safe {j : AsyncSend.Party} (s : Shared T) (bell : TaskWaiter) (rings : List Nat)
    (hi : (spec w proto).inv s) :
    (spec w proto).inv { s with doorbell := bell, rings } ∧
      (spec w proto).guar j s { s with doorbell := bell, rings } := by
  refine ⟨hi, ?_⟩
  cases j with
  | producer => exact guar_same .producer s.chan
  | owner => exact ⟨guar_same .owner s.chan, rfl⟩

theorem notifyConsumer_tri :
    Tri (spec w proto) .producer (Acc w proto tx A n) notifyConsumer
      fun _ => Acc w proto tx A A.length := by
  have hst : Stable (spec w proto) .producer (Acc w proto tx A A.length) := stable_acc tx A A.length
  refine Tri.bind (R := fun _ => Acc w proto tx A A.length) (Tri.rmw (stable_acc tx A n)
    (fun _ => hst) fun s hi h => ?_) fun waiting => ?_
  · exact ⟨fun e' he => (by cases he), fun _ => ⟨hi, guar_same .producer s.chan, h.1,
      congrArg List.length h.1.2⟩⟩
  · split
    · refine Tri.bind (R := fun _ => Acc w proto tx A A.length) (Tri.rmw hst (fun _ => hst)
        fun s hi h => ?_) fun waiting => ?_
      · have hsafe := doorbell_safe (j := .producer) s { s.doorbell with waiting := false } s.rings hi
        exact ⟨fun e' he => (by cases he), fun _ => ⟨hsafe.1, hsafe.2, h⟩⟩
      · split
        · refine Tri.store hst hst fun s hi h => ?_
          have hsafe := doorbell_safe (j := .producer) s { s.doorbell with waker := none }
            (s.rings ++ s.doorbell.waker.toList) hi
          exact ⟨fun e' he => (by cases he), fun _ => ⟨hsafe.1, hsafe.2, h⟩⟩
        · exact Tri.ret hst fun _ _ h => h
    · exact Tri.ret hst fun _ _ h => h

theorem announce_tri (published : Bool) (f : Future T) :
    Tri (spec w proto) .producer (Acc w proto tx A n) (announce published f) fun f' s =>
      f' = (if published then { f with dirty := false } else f) ∧
        Acc w proto tx A (if published then A.length else n) s := by
  unfold announce
  cases published with
  | true =>
    refine Tri.bind notifyConsumer_tri fun _ => ?_
    exact Tri.ret ((Stable.const _).and (stable_acc _ _ _)) fun _ _ h => ⟨rfl, h⟩
  | false => exact Tri.ret ((Stable.const _).and (stable_acc _ _ _)) fun _ _ h => ⟨rfl, h⟩

theorem clear_has_tri :
    Tri (AsyncSend.spec w proto) .producer (Has w proto tx A) AsyncSend.clear
      fun _ => Has w proto tx A :=
  clear_tri (stable_has tx A) (fun _ _ _ => trivial) fun s space hi h => by
    obtain ⟨h₁, h₂, h₃⟩ := side_safe hi h.1 space s.wakes
    exact ⟨h₁, h₂, h₃, h.2⟩

theorem clear_acc_tri :
    Tri (spec w proto) .producer (Acc w proto tx A n) (onChan AsyncSend.clear)
      fun _ => Acc w proto tx A n :=
  chan_tri clear_has_tri

theorem arm_has_tri (waker : Nat) :
    Tri (AsyncSend.spec w proto) .producer (Has w proto tx A) (AsyncSend.arm waker) fun mark s =>
      (Own w proto tx s ∧ AsyncSend.Pending waker mark (fun _ => True) s) ∧ Has w proto tx A s := by
  have hst : ∀ {α : Type} {g : AsyncSend.Shared T → α} {e : AsyncSend.Access}
      {space : AsyncSend.Shared T → TaskWaiter}, Tri (AsyncSend.spec w proto) .producer
        (Has w proto tx A) (.rmw e (fun s => { s with space := space s }) g)
        fun _ => Has w proto tx A := by
    intro α g e space
    refine Tri.rmw (stable_has tx A) (fun _ => stable_has tx A) fun s hi h => ?_
    obtain ⟨h₁, h₂, h₃⟩ := side_safe hi h.1 (space s) s.wakes
    exact ⟨trivial, fun _ => ⟨h₁, h₂, h₃, h.2⟩⟩
  have hkeep : Tri (AsyncSend.spec w proto) .producer (Has w proto tx A) (AsyncSend.arm waker)
      fun _ => Has w proto tx A := by
    refine Tri.bind hst fun _ => ?_
    refine Tri.bind hst fun mark => ?_
    refine Tri.bind hst fun _ => ?_
    exact Tri.ret (stable_has tx A) fun _ _ h => h
  exact ((arm_tri tx waker).and hkeep).conseq (fun _ _ h => ⟨h.1, h⟩) fun _ _ _ h => h

/-- The look at the ring after the registration. -/
theorem recheck_has_tri (hs : Shaped w proto) (tx : Sender T) (item : T) (waker mark : Nat) :
    Tri (AsyncSend.spec w proto) .producer
      (fun s => (Own w proto tx s ∧ AsyncSend.Pending waker mark (fun _ => True) s) ∧
        Has w proto tx A s)
      (trySendQuiet w proto tx item)
      (fun r s => (Own w proto r.1 s ∧ ∀ v, r.2 = .full v → s.seat = .tenant ∧
        AsyncSend.Pending waker mark (fun s => AsyncSend.Open s ∧ AsyncSend.Full proto s) s) ∧
        Own w proto r.1 s ∧ Outcome A item r.2 s) :=
  (recheck_tri hs tx item waker mark).and (sent_tri hs tx item)

theorem stable_woken (tx : Sender T) (A : List T) (waker mark : Nat) :
    Stable (AsyncSend.spec w proto) .producer fun s =>
      Has w proto tx A s ∧ mark ≤ s.wakes.length ∧ AsyncSend.Woken waker mark s := by
  intro j s s' hj hi hi' hg h
  obtain ⟨hhas, hle, hwoken⟩ := h
  refine ⟨stable_has tx A j s s' hj hi hi' hg hhas, ?_⟩
  cases j with
  | producer => exact absurd rfl hj
  | owner =>
    obtain ⟨more, hmore⟩ := tick_wakes (hg hhas.1.1).2.2
    exact ⟨by rw [hmore, List.length_append]; omega, woken_grow hle hmore hwoken⟩

theorem wakeByRef_acc_tri (waker : Nat) :
    Tri (spec w proto) .producer (Acc w proto tx A n) (wakeByRef waker) fun mark s =>
      (Has w proto tx A s.chan ∧ mark ≤ s.chan.wakes.length ∧
        AsyncSend.Woken waker mark s.chan) ∧ s.announced = n := by
  refine chan_tri (Tri.rmw (stable_has tx A) (fun mark => stable_woken tx A waker mark)
    fun s hi h => ⟨trivial, fun _ => ?_⟩)
  obtain ⟨h₁, h₂, h₃⟩ := side_safe hi h.1 s.space (s.wakes ++ [waker])
  refine ⟨h₁, h₂, ⟨h₃, h.2⟩, ?_, ?_⟩
  · simp
  · simp [AsyncSend.Woken]

/-! ### Between two calls -/

theorem stable_local_producer (l : Producer T) :
    Stable (spec w proto) .producer (Loc w proto .producer l) := by
  cases l with
  | away => exact Stable.const True
  | holds tx =>
    intro j s s' hj hi hi' hg h
    have hacc := stable_acc tx s.chan.inner.accepted s.announced j s s' hj hi hi' hg
      ⟨⟨h.1, rfl⟩, rfl⟩
    refine ⟨hacc.1.1, ?_⟩
    rw [hacc.2, hacc.1.2]
    exact h.2
  | sending tx f last =>
    intro j s s' hj hi hi' hg h
    obtain ⟨hown, hbooks, hwaits⟩ := h
    have hacc := stable_acc tx s.chan.inner.accepted s.announced j s s' hj hi hi' hg
      ⟨⟨hown, rfl⟩, rfl⟩
    refine ⟨hacc.1.1, ⟨?_, ?_⟩⟩
    · rw [hacc.2, hacc.1.2]
      exact hbooks
    · cases j with
      | producer => exact absurd rfl hj
      | owner =>
        unfold Waits at hwaits ⊢
        split at hwaits
        · next waker mark =>
          exact (stable_pending (lasting_full proto) waker mark .owner _ _ hj hi hi' hg.1
            ⟨hown.1, hwaits⟩).2
        · next waker mark =>
          exact (stable_woken tx _ waker mark .owner _ _ hj hi hi' hg.1
            ⟨⟨hown, rfl⟩, hwaits⟩).2
        · trivial

/-! ### The books in the loop -/

/-- The books inside a poll, with `hand` neither pushed nor in the iterator. -/
structure Running (f : Future T) (published : Bool) (budget : Nat) (hand : List T) (A : List T)
    (n : Nat) : Prop where
  balanced : f.sent ++ (hand ++ yields f.items) = f.original
  pushed : f.sent <:+ A
  announced : published = false → f.unwound = false → n = A.length
  dirty : n ≠ A.length → f.dirty = true
  budget_eq : f.sent.length + budget = f.start + ASYNC_SEND_BUDGET

namespace Running

variable {f : Future T} {published : Bool} {budget : Nat} {hand : List T}

theorem books (h : Running f false budget hand A n) (last : Polled T) (hb : Balanced f last)
    (hne : last ≠ .unwound) (hne' : last ≠ .underflow) : Books f last A n where
  balanced := hb
  pushed := h.pushed
  announced := h.announced rfl
  unwound heq := absurd heq hne
  dirty := h.dirty
  budget := by
    have := h.budget_eq
    omega
  no_underflow := hne'

/-- The iterator panics. -/
theorem panics (h : Running f published budget [] A n) (hnone : f.pending = none) :
    Books { f with unwound := true } .unwound A n where
  balanced := by
    simp only [Balanced, hnone]
    exact h.balanced
  pushed := h.pushed
  announced heq := by cases heq
  unwound _ := rfl
  dirty := h.dirty
  budget := by
    have := h.budget_eq
    simp only
    omega
  no_underflow heq := by cases heq

/-- The receiver is notified. -/
theorem notified (h : Running f published budget hand A n) :
    Running { f with dirty := false } false budget hand A A.length :=
  { h with
    announced := fun _ _ => rfl
    dirty := fun hne => absurd rfl hne }

theorem announce (h : Running f published budget hand A n) :
    Running (if published then { f with dirty := false } else f) false budget hand A
      (if published then A.length else n) := by
  cases published with
  | true => exact h.notified
  | false => exact h

/-- An item is pushed. -/
theorem push {item : T} (h : Running f published (budget + 1) [item] A n) :
    Running (f.push item) true budget [] (A ++ [item]) n where
  balanced := by
    show (f.sent ++ [item]) ++ ([] ++ yields f.items) = f.original
    rw [List.append_assoc]
    exact h.balanced
  pushed := by
    obtain ⟨before, hbefore⟩ := h.pushed
    refine ⟨before, ?_⟩
    show before ++ (f.sent ++ [item]) = A ++ [item]
    rw [← List.append_assoc, hbefore]
  announced heq := by cases heq
  dirty _ := rfl
  budget_eq := by
    have := h.budget_eq
    simp only [Future.push, List.length_append, List.length_singleton]
    omega

end Running

/-- Where the next item of a future comes from. -/
theorem take_cases (f : Future T) :
    ∃ items, (∃ v, f.take = (.item v, { f with pending := none, items }) ∧
        f.pending.toList ++ yields f.items = v :: yields items) ∨
      (f.take = (.done, { f with pending := none, items }) ∧
        f.pending.toList ++ yields f.items = []) ∨
      f.take = (.panics, { f with pending := none, items }) ∧
        f.pending.toList ++ yields f.items = yields items := by
  obtain ⟨pending, items, dirty, original, sent, start, unwound⟩ := f
  cases pending with
  | some item => exact ⟨items, .inl ⟨item, rfl, rfl⟩⟩
  | none =>
    cases items with
    | nil => exact ⟨[], .inr (.inl ⟨rfl, rfl⟩)⟩
    | cons answer items =>
      cases answer with
      | item v => exact ⟨items, .inl ⟨v, rfl, rfl⟩⟩
      | done => exact ⟨items, .inr (.inl ⟨rfl, rfl⟩)⟩
      | panics => exact ⟨items, .inr (.inr ⟨rfl, rfl⟩)⟩

/-! ### The programs of the producer -/

/-- The invariant of the loop in `poll`. -/
def Looping (w : Nat) (proto : Inner T) (turn : Turn T) (s : Shared T) : Prop :=
  0 < turn.budget ∧ ∃ A n, Running turn.future turn.published turn.budget
    turn.future.pending.toList A n ∧ Acc w proto turn.tx A n s

/-- What a round may end with. -/
abbrev After (w : Nat) (proto : Inner T) : Turn T ⊕ Producer T → Shared T → Prop :=
  Sum.elim (Looping w proto) (Loc w proto .producer)

theorem stable_looping (turn : Turn T) : Stable (spec w proto) .producer (Looping w proto turn) :=
  (Stable.const _).and (Stable.exists fun _ => Stable.exists fun _ =>
    (Stable.const _).and (stable_acc _ _ _))

theorem again_tri (turn : Turn T) (hpos : 0 < turn.budget)
    (h : Running turn.future turn.published turn.budget turn.future.pending.toList A n) :
    Tri (spec w proto) .producer (Acc w proto turn.tx A n)
      (pure (.inl turn) : BProg T (Turn T ⊕ Producer T)) (After w proto) :=
  Tri.ret (stable_looping turn) fun _ _ hacc => ⟨hpos, A, n, h, hacc⟩

/-- A poll that leaves the books in order. -/
theorem loc_of_books {f : Future T} {last : Polled T} (h : Books f last A n)
    (hacc : Acc w proto tx A n s) (hw : Waits proto last s.chan) :
    Loc w proto .producer (.sending tx f last) s := by
  obtain ⟨⟨hown, rfl⟩, rfl⟩ := hacc
  exact ⟨hown, h, hw⟩

/-- A poll that ends with nothing to wait for. -/
theorem leave_tri {f : Future T} {last : Polled T} (h : Books f last A n)
    (hw : ∀ s, Waits proto last s) :
    Tri (spec w proto) .producer (Acc w proto tx A n)
      (pure (.sending tx f last) : BProg T (Producer T)) (Loc w proto .producer) :=
  Tri.ret (stable_local_producer _) fun _ _ hacc => loc_of_books h hacc (hw _)

theorem leaveLoop_tri {f : Future T} {last : Polled T} (h : Books f last A n)
    (hw : ∀ s, Waits proto last s) :
    Tri (spec w proto) .producer (Acc w proto tx A n)
      (pure (.inr (.sending tx f last)) : BProg T (Turn T ⊕ Producer T)) (After w proto) :=
  Tri.ret (stable_local_producer (.sending tx f last)) fun _ _ hacc => loc_of_books h hacc (hw _)

/-- The end of the budget at a first push. -/
theorem spent_tri (waker : Nat) {f : Future T} (h : Running f true 0 [] A n)
    (hnone : f.pending = none) :
    Tri (spec w proto) .producer (Acc w proto tx A n) (spent waker tx f)
      (Loc w proto .producer) := by
  obtain ⟨pending, items, dirty, original, sent, start, unwound⟩ := f
  cases hnone
  have hdone : ∀ items', yields items = [] → Tri (spec w proto) .producer (Acc w proto tx A n)
      (notifyConsumer.bind fun _ => (onChan AsyncSend.clear).bind fun _ =>
        (pure (.sending tx ⟨none, items', false, original, sent, start, unwound⟩ .ok) :
          BProg T (Producer T))) (Loc w proto .producer) := by
    intro items' hnil
    refine Tri.bind notifyConsumer_tri fun _ => Tri.bind clear_acc_tri fun _ => ?_
    have hall : sent = original := by
      have hb := h.balanced
      simp only [hnil, List.append_nil] at hb
      exact hb
    refine leave_tri ?_ fun _ => trivial
    exact { (h.notified.books .ok hall (by simp) (by simp)) with }
  cases items with
  | nil => exact hdone [] rfl
  | cons answer items =>
    cases answer with
    | item v =>
      refine Tri.bind notifyConsumer_tri fun _ => Tri.bind clear_acc_tri fun _ => ?_
      refine Tri.bind (wakeByRef_acc_tri waker) fun mark => ?_
      have hend : Books ⟨some v, items, false, original, sent, start, unwound⟩
          (.yielded waker mark) A A.length :=
        { (h.notified.books (.yielded waker mark) h.balanced (by simp) (by simp)) with }
      exact Tri.ret (stable_local_producer _) fun _ _ hacc =>
        loc_of_books hend ⟨hacc.1.1, hacc.2⟩ hacc.1.2
    | done => exact hdone items rfl
    | panics =>
      have h' : Running ⟨none, items, dirty, original, sent, start, unwound⟩ true 0 [] A n :=
        { h with }
      exact leave_tri (h'.panics rfl) fun _ => trivial

/-- A full ring: the waker is registered, and the ring looked at again. -/
theorem retry_tri (hs : Shaped w proto) (waker : Nat) (turn : Turn T) {item : T}
    (hpos : 0 < turn.budget) (hnone : turn.future.pending = none)
    (h : Running turn.future turn.published turn.budget [item] A n) :
    Tri (spec w proto) .producer (Acc w proto turn.tx A n) (retry w proto waker turn item)
      (After w proto) := by
  obtain ⟨tx, f, published, budget⟩ := turn
  obtain ⟨left, rfl⟩ : ∃ left, budget = left + 1 := Nat.exists_eq_add_one.mpr hpos
  refine Tri.bind (announce_tri published f) fun f' => ?_
  rintro s hi ⟨hf', hacc⟩
  have h' := h.announce
  rw [← hf'] at h'
  have hnone' : f'.pending = none := by
    rw [hf']
    split <;> exact hnone
  generalize (if published = true then A.length else n) = n' at h' hacc
  clear hf' h
  refine Tri.bind (chan_tri (arm_has_tri waker)) (fun mark => ?_) s hi hacc
  refine Tri.bind (chan_tri (recheck_has_tri hs tx item waker mark)) fun ⟨tx', sent⟩ => ?_
  rintro s hi ⟨⟨⟨hown, hfull⟩, -, hout⟩, hn⟩
  cases sent with
  | ok =>
    have hacc : Acc w proto tx' (A ++ [item]) n' s := ⟨⟨hown, hout⟩, hn⟩
    have hpush := h'.push
    refine Tri.bind clear_acc_tri (fun _ => ?_) s hi hacc
    dsimp only
    split
    · next hzero =>
      subst hzero
      refine Tri.bind notifyConsumer_tri fun _ => Tri.bind (wakeByRef_acc_tri waker) fun mark => ?_
      have hend := hpush.notified.books (.yielded waker mark)
        (by simp only [Balanced, Future.push, hnone']; exact hpush.balanced) (by simp) (by simp)
      exact Tri.ret (stable_local_producer (.sending tx' _ (.yielded waker mark))) fun _ _ hacc =>
        loc_of_books hend ⟨hacc.1.1, hacc.2⟩ hacc.1.2
    · next hne =>
      have hnext : Running (f'.push item) true left (f'.push item).pending.toList
          (A ++ [item]) n' := by
        rw [show (f'.push item).pending = none from hnone']
        exact hpush
      exact again_tri ⟨tx', f'.push item, true, left⟩ (Nat.pos_of_ne_zero hne) hnext
  | disconnected v =>
    obtain ⟨rfl, hout⟩ := hout
    refine Tri.bind clear_acc_tri (fun _ => ?_) s hi ⟨⟨hown, hout⟩, hn⟩
    exact leaveLoop_tri (h'.books (.err _) h'.balanced (by simp) (by simp)) fun _ => trivial
  | full v =>
    obtain ⟨rfl, hout⟩ := hout
    obtain ⟨hseat, hpend⟩ := hfull v rfl
    have hkept : Running { f' with pending := some v } false (left + 1) [v] A n' := { h' with }
    have hend := hkept.books (.full waker mark) h'.balanced (by simp) (by simp)
    exact Safe.ret (stable_local_producer (.sending tx' _ (.full waker mark)))
      (loc_of_books hend ⟨⟨hown, hout⟩, hn⟩ hpend)

theorem round_tri (hs : Shaped w proto) (waker : Nat) (turn : Turn T) :
    Tri (spec w proto) .producer (Looping w proto turn) (round w proto waker turn)
      (After w proto) := by
  rintro s hi ⟨hpos, A, n, h, hacc⟩
  obtain ⟨tx, f, published, budget⟩ := turn
  obtain ⟨left, rfl⟩ : ∃ left, budget = left + 1 := Nat.exists_eq_add_one.mpr hpos
  unfold round
  dsimp only at h hacc ⊢
  obtain ⟨items, ⟨v, htake, hyields⟩ | ⟨htake, hyields⟩ | ⟨htake, hyields⟩⟩ := take_cases f
  · rw [htake]
    have hb := h.balanced
    rw [hyields] at hb
    have hhand : Running { f with pending := none, items } published (left + 1) [v] A n :=
      { h with balanced := hb }
    generalize hf' : ({ f with pending := none, items } : Future T) = f' at hhand ⊢
    have hnone : f'.pending = none := by rw [← hf']
    refine Tri.bind (chan_tri (sent_tri hs tx v)) (fun ⟨tx', sent⟩ => ?_) s hi hacc
    rintro s hi ⟨⟨hown, hout⟩, hn⟩
    cases sent with
    | ok =>
      have hacc : Acc w proto tx' (A ++ [v]) n s := ⟨⟨hown, hout⟩, hn⟩
      have hpush := hhand.push
      dsimp only
      split
      · next hzero =>
        subst hzero
        refine Tri.bind (spent_tri waker hpush hnone) (fun ended => ?_) s hi hacc
        exact Tri.ret (stable_local_producer ended) fun _ _ h => h
      · next hne =>
        have hnext : Running (f'.push v) true left (f'.push v).pending.toList (A ++ [v]) n := by
          rw [show (f'.push v).pending = none from hnone]
          exact hpush
        exact again_tri ⟨tx', f'.push v, true, left⟩ (Nat.pos_of_ne_zero hne) hnext s hi
          hacc
    | disconnected v' =>
      obtain ⟨rfl, hout⟩ := hout
      refine Tri.bind (announce_tri published f') (fun f'' => ?_) s hi ⟨⟨hown, hout⟩, hn⟩
      rintro s hi ⟨rfl, hacc⟩
      refine Tri.bind clear_acc_tri (fun _ => ?_) s hi hacc
      have hend := hhand.announce
      exact leaveLoop_tri (hend.books (.err _) hend.balanced (by simp) (by simp)) fun _ => trivial
    | full v' =>
      obtain ⟨rfl, hout⟩ := hout
      exact retry_tri hs waker ⟨tx', f', published, left + 1⟩ hpos hnone hhand s hi
        ⟨⟨hown, hout⟩, hn⟩
  · rw [htake]
    have hall : f.sent = f.original := by
      have hb := h.balanced
      rw [hyields, List.append_nil] at hb
      exact hb
    refine Tri.bind (announce_tri published _) (fun f' => ?_) s hi hacc
    rintro s hi ⟨rfl, hacc⟩
    refine Tri.bind clear_acc_tri (fun _ => ?_) s hi hacc
    have hend := h.announce
    refine leaveLoop_tri ?_ fun _ => trivial
    cases published with
    | true => exact { (hend.books .ok hall (by simp) (by simp)) with }
    | false => exact { (hend.books .ok hall (by simp) (by simp)) with }
  · rw [htake]
    have hb := h.balanced
    rw [hyields] at hb
    have hhand : Running { f with pending := none, items } published (left + 1) [] A n :=
      { h with balanced := hb }
    exact leaveLoop_tri (hhand.panics rfl) (fun _ => trivial) s hi hacc

theorem pollFuture_tri (hs : Shaped w proto) (waker : Nat) (tx : Sender T) {f : Future T}
    {last : Polled T} (hlast : last.complete = false) :
    Tri (spec w proto) .producer (Loc w proto .producer (.sending tx f last))
      (poll w proto waker tx f) (Loc w proto .producer) := by
  rintro s hi ⟨hown, hbooks, -⟩
  refine Tri.loop (fun l => stable_local_producer l) (round_tri hs waker) _ s hi
    ⟨Nat.succ_pos 63, s.chan.inner.accepted, s.announced, ?_, ⟨hown, rfl⟩, rfl⟩
  have hbal : f.sent ++ (f.pending.toList ++ yields f.items) = f.original := by
    have hb := hbooks.balanced
    cases last with
    | ok => cases hlast
    | err item => cases hlast
    | underflow => cases hlast
    | _ => exact hb
  exact
    { balanced := hbal
      pushed := hbooks.pushed
      announced := fun _ => hbooks.announced
      dirty := hbooks.dirty
      budget_eq := rfl }

theorem trySendNotify_tri (hs : Shaped w proto) (tx : Sender T) (item : T) :
    Tri (spec w proto) .producer (Loc w proto .producer (.holds tx)) (trySend w proto tx item)
      (Loc w proto .producer) := by
  rintro s hi ⟨hown, hann⟩
  refine Tri.bind (chan_tri (sent_tri hs tx item)) (fun ⟨tx', sent⟩ => ?_) s hi
    ⟨⟨hown, rfl⟩, hann⟩
  have hidle : ∀ {A : List T}, Tri (spec w proto) .producer (Acc w proto tx' A A.length)
      (pure (.holds tx') : BProg T (Producer T)) (Loc w proto .producer) := by
    intro A
    refine Tri.ret (stable_local_producer _) fun s _ hacc => ⟨hacc.1.1, ?_⟩
    rw [hacc.1.2]
    exact hacc.2
  rintro s' hi' ⟨⟨hown', hout⟩, hn⟩
  cases sent with
  | ok => exact Tri.bind notifyConsumer_tri (fun _ => hidle) s' hi' ⟨⟨hown', hout⟩, hn⟩
  | full v => exact hidle s' hi' ⟨⟨hown', hout.2⟩, hn⟩
  | disconnected v => exact hidle s' hi' ⟨⟨hown', hout.2⟩, hn⟩

/-- The drop of a future announces what a panic left unannounced. -/
theorem dropFuture_tri (tx : Sender T) (f : Future T) (last : Polled T) :
    Tri (spec w proto) .producer (Loc w proto .producer (.sending tx f last)) (dropFuture tx f)
      (Loc w proto .producer) := by
  rintro s hi ⟨hown, hbooks, -⟩
  refine Tri.bind (announce_tri f.dirty f) (fun f' => ?_) s hi ⟨⟨hown, rfl⟩, rfl⟩
  rintro s' hi' ⟨-, hacc⟩
  refine Tri.bind clear_acc_tri (fun _ => ?_) s' hi' hacc
  refine Tri.ret (stable_local_producer _) fun s'' _ hacc => ⟨hacc.1.1, ?_⟩
  rw [hacc.1.2, hacc.2]
  split
  · rfl
  · next hclean => exact by_contra fun hne => hclean (hbooks.dirty hne)

theorem dropSender_tri (tx : Sender T) :
    Tri (spec w proto) .producer (Loc w proto .producer (.holds tx)) dropProducer
      (Loc w proto .producer) := by
  rintro s hi ⟨hown, -⟩
  refine Tri.bind (chan_tri (dropProducer_tri tx)) (fun _ => ?_) s hi ⟨hown, rfl⟩
  exact Tri.ret (stable_local_producer .away) fun _ _ _ => trivial

/-! ### The receiver -/

theorem stable_local_owner (l : AsyncSend.Owner T) :
    Stable (spec w proto) .owner (Loc w proto .owner l) := by
  intro j s s' hj hi hi' hg h
  cases j with
  | producer => exact stable_loc_owner l .producer _ _ hj hi hi' hg h
  | owner => exact absurd rfl hj

theorem doorbell_tri (l : AsyncSend.Owner T) {α : Type} {e : Access} (he : ∀ e', e ≠ .chan e')
    (bell : Shared T → TaskWaiter) (g : Shared T → α) :
    Tri (spec w proto) .owner (Loc w proto .owner l)
      (.rmw e (fun s => { s with doorbell := bell s }) g) fun _ => Loc w proto .owner l := by
  refine Tri.rmw (stable_local_owner l) (fun _ => stable_local_owner l) fun s hi h => ?_
  obtain ⟨hinv, hguar⟩ := doorbell_safe (j := .owner) s (bell s) s.rings hi
  exact ⟨fun e' heq => absurd heq (he e'), fun _ => ⟨hinv, hguar, h⟩⟩

theorem armDoorbell_tri (l : AsyncSend.Owner T) (waker : Nat) :
    Tri (spec w proto) .owner (Loc w proto .owner l) (armDoorbell waker)
      fun _ => Loc w proto .owner l := by
  refine Tri.bind (doorbell_tri l (fun _ h => by cases h) _ _) fun _ => ?_
  refine Tri.bind (doorbell_tri l (fun _ h => by cases h) _ _) fun _ => ?_
  exact doorbell_tri l (fun _ h => by cases h) _ _

theorem clearDoorbell_tri (l : AsyncSend.Owner T) :
    Tri (spec w proto) .owner (Loc w proto .owner l) clearDoorbell
      fun _ => Loc w proto .owner l := by
  refine Tri.bind (R := fun _ => Loc w proto .owner l) (Tri.load (stable_local_owner l)
    (fun _ => stable_local_owner l) fun s _ h => ⟨fun e' he => (by cases he), fun _ =>
      ⟨⟨guar_same .owner s.chan, rfl⟩, h⟩⟩) fun needsClear => ?_
  split
  · refine Tri.bind (doorbell_tri l (fun _ h => by cases h) _ _) fun _ => ?_
    refine Tri.bind (doorbell_tri l (fun _ h => by cases h) _ _) fun _ => ?_
    exact doorbell_tri l (fun _ h => by cases h) _ _
  · exact Tri.ret (stable_local_owner l) fun _ _ h => h

/-! ### The system -/

theorem verified_batch (hs : Shaped w proto) : (sys w proto).Verified (spec w proto) := by
  intro a o l
  cases a with
  | producer =>
    cases l with
    | away => cases o <;> exact fun s hi h => (by cases h.2)
    | holds tx =>
      cases o with
      | trySend item => exact fun s hi h => trySendNotify_tri hs tx item s hi h.1
      | sendBatchAsync items =>
        refine Tri.ret (stable_local_producer (.sending tx (sendBatchAsync items) .fresh))
          fun s _ h => ?_
        obtain ⟨⟨hown, hann⟩, -⟩ := h
        refine ⟨hown, ?_, trivial⟩
        exact
          { balanced := rfl
            pushed := List.nil_suffix
            announced := fun _ => hann
            unwound := fun h => by cases h
            dirty := fun hne => absurd hann hne
            budget := Nat.zero_le _
            no_underflow := fun h => by cases h }
      | drop => exact fun s hi h => dropSender_tri tx s hi h.1
      | _ => exact fun s hi h => (by cases h.2)
    | sending tx f last =>
      cases o with
      | poll waker =>
        intro s hi h
        have hlast : last.complete = false := by
          have hcan : (!last.complete) = true := h.2
          rwa [Bool.not_eq_true'] at hcan
        exact pollFuture_tri hs waker tx hlast s hi h.1
      | dropFuture => exact fun s hi h => dropFuture_tri tx f last s hi h.1
      | _ => exact fun s hi h => (by cases h.2)
  | owner =>
    cases o with
    | shard o =>
      refine (owner_tri (AsyncSend.WakeLemmas.verified hs .owner o l)).conseq
        (fun _ _ h => h) fun _ _ _ h => h
    | arm waker =>
      refine (Tri.bind (armDoorbell_tri l waker) fun _ =>
        Tri.ret (stable_local_owner l) fun _ _ h => h).conseq (fun _ _ h => h.1) fun _ _ _ h => h
    | clear =>
      refine (Tri.bind (clearDoorbell_tri l) fun _ =>
        Tri.ret (stable_local_owner l) fun _ _ h => h).conseq (fun _ _ h => h.1) fun _ _ _ h => h

theorem good_start {capacity : Nat} (h : Ring.build T w capacity = some proto) :
    Good (spec w proto) (init proto) := by
  have hp : Pristine proto proto := by
    unfold Ring.build at h
    obtain ⟨cap, _, rfl⟩ := Option.map_eq_some_iff.mp h
    exact ⟨⟨rfl, rfl⟩, rfl, rfl, rfl, rfl, rfl⟩
  have hempty : proto.accepted = [] := by
    unfold Ring.build at h
    obtain ⟨cap, _, rfl⟩ := Option.map_eq_some_iff.mp h
    rfl
  refine ⟨⟨⟨rfl, rfl⟩, fun _ => pristine_inv hp⟩, fun a => ?_⟩
  cases a with
  | producer =>
    refine ThreadOk.idle (stable_local_producer (.holds _)) ⟨⟨rfl, pristine_producer hp⟩, ?_⟩
    show 0 = proto.accepted.length
    rw [hempty]
    rfl
  | owner =>
    refine ThreadOk.idle (stable_local_owner (.holds _)) ⟨?_, rfl, rfl, pristine_consumer hp⟩
    simp [init]

end SendBatchLemmas

open SendBatchLemmas

/-- A batch accounts for every item, for any iterator and ring, in any interleaving of polls
with the drains, the teardown and the waits of the receiver. Between two polls the values
pushed, the item that waits or came back, and what the iterator has left are the original
items in order; what was pushed is what the ring accepted last, all of it announced to the
receiver unless a poll has panicked, in which case the drop of the future announces it; a
future that is `Ready(Ok)` has pushed everything; one that is `Pending` has its waker on a
full ring or woke its task; no poll pushed more than its budget, which never underflows. -/
theorem batch_accounts {w capacity : Nat} {proto : Inner T}
    (hb : Ring.build T w capacity = some proto)
    {c : Config AsyncSend.Party Access (Shared T) (Local T)}
    (h : Reach (sys w proto) anyAccess (init proto) c) :
    (∀ tx f last, c.Idle .producer (.sending tx f last) → Account proto f last c.shared) ∧
      ∀ tx, c.Idle .producer (.holds tx) →
        c.shared.announced = c.shared.chan.inner.accepted.length := by
  have hg : Good (spec w proto) c := Sys.sound (verified_batch (Ring.shaped_build hb)) (good_start hb) h
  exact ⟨fun tx f last hidle => (hg.loc hidle).2, fun tx hidle => (hg.loc hidle).2⟩

/-- A batch of three items is polled once on a ring of two slots. -/
def crowded : List (Script (sys 64 Ring.pair)) :=
  List.flatten [
    [.call .producer (.sendBatchAsync [.item 7, .item 8, .item 9]), .run .producer 5,
      .call .producer (.poll 5)],
    List.replicate 20 (.run .producer 5)]

/-- What the producer's future has pushed, where its latest poll found the ring full. -/
def sentBefore (c : Config AsyncSend.Party Access (Shared T) (Local T)) : Option (List T) :=
  match c.result .producer with
  | some (.sending _ f (.full _ _)) => some f.sent
  | _ => none

theorem batch_accounts_crowded :
    ∃ c tx f waker mark, Reach (sys 64 Ring.pair) anyAccess (init Ring.pair) c ∧
      c.Idle .producer (.sending tx f (.full waker mark)) ∧ f.sent = [7, 8] ∧
      Account Ring.pair f (.full waker mark) c.shared := by
  have hrun : ((sys 64 Ring.pair).exec (init Ring.pair) crowded).map sentBefore =
      some (some [7, 8]) := by
    decide +kernel
  obtain ⟨c, hc, hv⟩ := Option.map_eq_some_iff.mp hrun
  have hr := Sys.exec_reach .start hc
  unfold sentBefore at hv
  split at hv
  · next tx f waker mark hidle =>
    have hidle' := Config.idle_of_result hidle
    exact ⟨c, tx, f, waker, mark, hr, hidle', Option.some.inj hv,
      (batch_accounts Ring.build_pair hr).1 tx f _ hidle'⟩
  · cases hv

end Prescient.SendBatch
