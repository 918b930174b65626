import Mathlib.Data.Finset.Card
import Mathlib.Data.List.Perm.Basic
import Prescient.Actor
import Prescient.Fifo
import Prescient.Word

/-!
# MPSC channels

The gathering receiver of `mpsc/chan.rs` and its three tiers: a fixed set of
producers, a pool whose slots are claimed and recycled (`mpsc/pool.rs`), and
runtime registration through an inbox (`mpsc/dynamic.rs`), with a locked or a
lock-free inbox and with finished rings dropped or parked for reuse. The wake-up
of an async receiver is the one of `task_waker.rs`, those of a blocking one are
the eventcounts of `park/condvar.rs` and `park/hybrid.rs`, with a wait that ends by
a notification only; the other eventcounts may end a wait at any time.

A ring's sender is where `tx` says: `producer_gone` is set from `leaving` on, and
the sender's `Arc` is released in `none`. The receiver's own fields (`rx`) stand
in the shared state, and only its accesses touch them. The remaining fields from
`seat` on are history that no program reads: where each ring's receiving half is,
who keeps the channel open, who is between publishing and waking, what was sent
and received, and which shards the current pass has not looked at.
-/

namespace Prescient.Mpsc

/-! ## Shapes -/

inductive Inbox : Type
  | locked
  | lockFree
deriving DecidableEq

/-- What becomes of a finished dynamic ring; a pool of rings has a bound. -/
inductive Reclaim : Type
  | dropRings
  | pooledRings (cap : Nat)
deriving DecidableEq

inductive Tier : Type
  | fixed (producers : Nat)
  | pool (max : Nat)
  | dynamic (inbox : Inbox) (reclaim : Reclaim)
deriving DecidableEq

/-- The wait kernels: `Park`, `Hybrid`, the blocking ones whose wait may end at any
time (`StdThread` and `Spin`), and the one of async tasks. -/
inductive Kernel : Type
  | park
  | hybrid
  | loose
  | task
deriving DecidableEq

structure Shape where
  tier : Tier
  kernel : Kernel
  capacity : Nat
deriving DecidableEq

/-- What the declarations check, and what the types of the lock-free inbox ask for. -/
def Shape.Valid (sh : Shape) : Prop :=
  1 ≤ sh.capacity ∧
  match sh.tier with
  | .fixed _ => True
  | .pool n => 1 ≤ n ∧ n ≤ 64
  | .dynamic .lockFree _ => sh.kernel ≠ .task
  | .dynamic .locked _ => True

/-! ## State -/

inductive Actor : Type
  | receiver
  | producer (p : Nat)
  /-- The `m`-th of the calls that share handle `h`, a registrar or a pool handle. -/
  | handle (h m : Nat)
deriving DecidableEq

/-- Where the sender of a ring is. -/
inductive Tx : Type
  | none
  | slot
  | hand (a : Actor)
  | producer (p : Nat)
  | leaving (p : Nat)
deriving DecidableEq

/-- `producer_gone`. -/
def Tx.gone : Tx → Bool
  | none => true
  | leaving _ => true
  | _ => false

/-- Where the receiving half of a ring is. -/
inductive Seat : Type
  | unmade
  | shard
  | inbox
  | parked
  | hand (a : Actor)
  | gone
deriving DecidableEq

/-- A value on its way, with the ring it was sent on and the ring's tenant then. -/
structure Item (T : Type) where
  ring : Nat
  tenant : Nat
  value : T
deriving DecidableEq

structure Ring (T : Type) where
  fifo : Fifo (Item T)
  tx : Tx
  consumerGone : Bool
  tenant : Nat

/-- The fields of the receiver, and the inbox generation it has seen. -/
structure Rx (T : Type) where
  shards : List Nat
  cursor : Nat
  batch : Nat
  staging : List (Item T)
  seen : Nat
  batch_pos : 0 < batch

/-- Where a notifying endpoint stands. Before its wake it has published `n` values, or
the end of the channel (`rung`), and it may have found its ring full since (`spins`).
In its wake it has seen the receiver's flag up (`saw`); it has taken the flag of an
async receiver and will wake it (`won`); it has the lock of an eventcount (`holding`),
has lowered the flag there (`cleared`), is after the lock with the flag lowered
(`seeking`), or has notified (`told`). -/
inductive Stage : Type
  | idle
  | rung (n : Nat)
  | spins (n : Nat)
  | saw
  | won
  | holding
  | cleared
  | seeking
  | told
deriving DecidableEq

/-- The number of values published and not announced by a wake. -/
def Stage.quiet : Stage → Nat
  | rung n => n
  | spins n => n
  | _ => 0

/-- The `TaskWaiter` of an async receiver (`woken` says whether the waker that was
registered last has been invoked), and the eventcount of a blocking one (`blocked`
says whether the receiver is in the condition variable). -/
structure Bell where
  waiting : Bool
  needsClear : Bool
  waker : Bool
  woken : Bool
  armed : Bool
  sleeping : Bool
  lock : Option Actor
  blocked : Bool
  stage : Actor → Stage

def Bell.setStage (b : Bell) (a : Actor) (x : Stage) : Bell :=
  { b with stage := Function.update b.stage a x }

/-- Who keeps the channel open: the handles, the producers, and the calls that are
making a producer. -/
inductive Holder : Type
  | handle (h : Nat)
  | producer (p : Nat)
  | call (h m : Nat)
deriving DecidableEq

structure Shared (T : Type) where
  ring : Nat → Ring T
  rx : Rx T
  queue : List Nat
  generation : Nat
  parked : List Nat
  free : BitVec 64
  live : Nat
  bell : Bell
  seat : Nat → Seat
  /-- The rings made so far are those below `rings`; likewise `born` and `handles`. -/
  rings : Nat
  born : Nat
  handles : Nat
  home : Nat → Nat
  /-- The generation of the inbox has counted this ring. -/
  announced : Nat → Bool
  holders : Finset Holder
  borrowers : Finset (Nat × Nat)
  sent : Nat → List (Item T)
  received : List (Item T)
  todo : List Nat

/-- The passes over the shards: the first of a call, the one after arming the
waker, and the one after the channel was seen closed. -/
inductive Look : Type
  | first
  | recheck
  | closing
deriving DecidableEq

/-- The accesses. `scan` begins a pass, one that drains in place or one that goes
through the staging buffer, and `select` picks its next shard. `batch` is a push of
`send_batch`, `unwind` the end of one that comes to no wake, and `wait` the end of
the receiver's wait. -/
inductive Access : Type
  | own
  | scan (k : Look) (inPlace : Bool)
  | select (k : Look)
  | ring (r : Nat)
  | tx (r : Nat)
  | batch (r : Nat)
  | unwind
  | arm
  | wait
  | inbox | generation | parked | free | live | waiting | waker | lock | sleeping | borrow
deriving DecidableEq

variable {T : Type}

/-- The values a ring holds. -/
def Shared.items (s : Shared T) (r : Nat) : List (Item T) := (s.ring r).fifo.queue

abbrev MProg (T : Type) := Prog Access (Shared T)

def Shared.setRing (s : Shared T) (r : Nat) (x : Ring T) : Shared T :=
  { s with ring := Function.update s.ring r x }

def Shared.setTx (s : Shared T) (r : Nat) (x : Tx) : Shared T :=
  s.setRing r { s.ring r with tx := x }

def Shared.setSeat (s : Shared T) (r : Nat) (x : Seat) : Shared T :=
  { s with seat := Function.update s.seat r x }

def Shared.setStage (s : Shared T) (a : Actor) (x : Stage) : Shared T :=
  { s with bell := s.bell.setStage a x }

/-- An access to the waking machinery alone. -/
def onBell {α : Type} (e : Access) (f : Bell → Bell) (g : Bell → α) : MProg T α :=
  .rmw e (fun s => { s with bell := f s.bell }) fun s => g s.bell

/-! ## Waking the receiver -/

section Notify

variable (kernel : Kernel) (a : Actor)

/-- The look at the receiver's flag that begins a wake. -/
def Bell.look (flag : Bell → Bool) (b : Bell) : Bell :=
  b.setStage a (if flag b then .saw else .idle)

/-- `waiting.swap(false)`. -/
def Bell.takeWaiting (b : Bell) : Bell :=
  { b.setStage a (if b.waiting then .won else .idle) with waiting := false }

/-- `AtomicWaker::wake`. -/
def Bell.invoke (b : Bell) : Bell :=
  { b.setStage a .idle with
    waker := false
    woken := b.woken || b.waker }

/-- `TaskWaiter::notify`. -/
def notify : MProg T Unit := do
  let waiting ← onBell .waiting (.look a Bell.waiting) Bell.waiting
  if waiting then
    let won ← onBell .waiting (.takeWaiting a) Bell.waiting
    if won then onBell .waker (.invoke a) fun _ => () else return ()
  else
    return ()

/-- `m.lock()`, by a notifying endpoint. -/
def lockBell : MProg T Unit :=
  .await .lock (fun s => decide (s.bell.lock = none)) fun s =>
    { s with bell := { s.bell.setStage a .holding with lock := some a } }

def Bell.lowerFlag (b : Bell) : Bell := { b.setStage a .cleared with armed := false }

/-- `cv.notify_one()`. -/
def Bell.notifyOne (b : Bell) : Bell := { b.setStage a .told with blocked := false }

def Bell.unlock (b : Bell) : Bell := { b.setStage a .idle with lock := none }

/-- `Notifier::wake` of `park/condvar.rs`. -/
def wakePark : MProg T Unit := do
  let parked ← onBell .waiting (.look a Bell.armed) Bell.armed
  if parked then
    lockBell a
    onBell .waiting (.lowerFlag a) fun _ => ()
    onBell .waiting (.notifyOne a) fun _ => ()
    onBell .lock (.unlock a) fun _ => ()
  else
    return ()

/-- `Notifier::wake` of `park/hybrid.rs`. -/
def wakeHybrid : MProg T Unit := do
  let armed ← onBell .waiting (.look a Bell.armed) Bell.armed
  if armed then
    onBell .waiting (.lowerFlag a) fun _ => ()
    let sleeping ← onBell .sleeping
      (fun b => b.setStage a (if b.sleeping then .seeking else .idle)) Bell.sleeping
    if sleeping then
      lockBell a
      onBell .waiting (.notifyOne a) fun _ => ()
      onBell .lock (.unlock a) fun _ => ()
    else
      return ()
  else
    return ()

/-- `Kernel::wake`. -/
def wake : MProg T Unit :=
  match kernel with
  | .task => notify a
  | .park => wakePark a
  | .hybrid => wakeHybrid a
  | .loose => onBell .waiting (fun b => b.setStage a .idle) fun _ => ()

/-- `Kernel::producer_dropped`. -/
def producerDropped : MProg T Unit :=
  match kernel with
  | .task => notify a
  | _ => .ret ()

/-- `Shared::release`, for one who keeps the channel open while `en` holds. -/
def release (x : Holder) (en : Shared T → Bool) : MProg T Unit := do
  let last ← .act .live en
    (fun s => { s.setStage a (if s.live = 1 then .rung 0 else s.bell.stage a) with
      live := s.live - 1
      holders := s.holders.erase x })
    fun s => .ret (decide (s.live = 1))
  if last then wake kernel a else return ()

end Notify

/-! ## Producers -/

section Producer

variable (sh : Shape) (p : Nat)

/-- The ring of a producer. -/
def homeRing : MProg T Nat := .load .own fun s => s.home p

/-- The room of a ring is used up. -/
def Shared.full (s : Shared T) (r : Nat) : Bool :=
  decide (sh.capacity ≤ (s.ring r).fifo.queue.length + (s.ring r).fifo.held)

def Shared.push (s : Shared T) (p r : Nat) (v : T) : Shared T :=
  { (s.setRing r { s.ring r with fifo := (s.ring r).fifo.push ⟨r, (s.ring r).tenant, v⟩ }).setStage
      (.producer p) (.rung ((s.bell.stage (.producer p)).quiet + 1)) with
    sent := Function.update s.sent r (s.sent r ++ [⟨r, (s.ring r).tenant, v⟩]) }

inductive Sending : Type
  | ok
  | full
  | disconnected
deriving DecidableEq

/-- `try_send_quiet`. -/
def trySendQuiet (r : Nat) (v : T) : MProg T Sending := do
  let gone ← .load (.ring r) fun s => (s.ring r).consumerGone
  if gone then
    return .disconnected
  else
    .rmw (.tx r) (fun s => if s.full sh r then s else s.push p r v)
      fun s => if s.full sh r then .full else .ok

def trySend (v : T) : MProg T Sending := do
  let r ← homeRing p
  let result ← trySendQuiet sh p r v
  if result = .ok then
    wake sh.kernel (.producer p)
    return .ok
  else
    return result

/-- `send`: whether the value was taken. -/
def send (v : T) : MProg T Bool :=
  .loop () fun _ => do
    let result ← trySend sh p v
    return match result with
      | .ok => .inr true
      | .disconnected => .inr false
      | .full => .inl ()

/-- What a call of `next` on the iterator of a batch comes to. -/
inductive Next (T : Type) : Type
  | item (v : T)
  | done
  | panics

/-- One try of `send_batch` to push a value; a full ring makes it spin. -/
def pushBatch (r : Nat) (v : T) : MProg T Sending := do
  let gone ← .load (.ring r) fun s => (s.ring r).consumerGone
  if gone then
    return .disconnected
  else
    .rmw (.batch r)
      (fun s => if s.full sh r then
        s.setStage (.producer p) (.spins (s.bell.stage (.producer p)).quiet) else s.push p r v)
      fun s => if s.full sh r then .full else .ok

/-- The end of a `send_batch` that does not come to its wake. -/
def unwind : MProg T Unit := onBell .unwind (fun b => b.setStage (.producer p) .idle) fun _ => ()

/-- `send_batch`, for the iterator whose `i`-th call of `next` gives `items i`: whether
all of it was taken. -/
def sendBatch (items : Nat → Next T) : MProg T Bool := do
  let r ← homeRing p
  .loop 0 fun i =>
    match items i with
    | .done => do
      wake sh.kernel (.producer p)
      return .inr true
    | .panics => do
      unwind p
      return .inr false
    | .item v => do
      let result ← pushBatch sh p r v
      match result with
      | .ok => return .inl (i + 1)
      | .full => return .inl i
      | .disconnected => do
        unwind p
        return .inr false

/-- One published run of an async batch: values are pushed quietly until the ring is
full, the receiver is gone or the run is over, and then the receiver is notified once
if there are any. -/
def sendRun (items : List T) : MProg T (List T) := do
  let r ← homeRing p
  let rest ← pushAll r items
  if rest.length < items.length then
    wake sh.kernel (.producer p)
    return rest
  else
    return rest
where
  pushAll (r : Nat) : List T → MProg T (List T)
    | [] => return []
    | v :: vs => do
      let result ← trySendQuiet sh p r v
      if result = .ok then pushAll r vs else return v :: vs

/-- `Drop for Producer`: the sender is marked gone, its `Arc` is released, and then
the lease is. -/
def dropProducer : MProg T Unit := do
  let r ← homeRing p
  .store (.tx r) fun s => s.setTx r (.leaving p)
  .store (.tx r) fun s => s.setTx r .none
  producerDropped sh.kernel (.producer p)
  release sh.kernel (.producer p) (.producer p) fun _ => true

end Producer

/-! ## Handles -/

section Handle

variable (sh : Shape) (h m : Nat)

/-- A call through a shared handle that exists. -/
def borrow : MProg T Unit :=
  .await .borrow (fun s => decide (.handle h ∈ s.holders ∧ (h, m) ∉ s.borrowers))
    fun s => { s with borrowers := insert (h, m) s.borrowers }

def giveBack : MProg T Unit :=
  .store .borrow fun s => { s with borrowers := s.borrowers.erase (h, m) }

/-- `recycle` of a ring at hand: it succeeds when the old sender's `Arc` is released. -/
def recycle (a : Actor) (r : Nat) : MProg T Bool :=
  .rmw (.tx r)
    (fun s => if (s.ring r).tx = .none then
      s.setRing r { s.ring r with fifo := .empty, tx := .hand a, tenant := (s.ring r).tenant + 1 }
      else s)
    fun s => decide ((s.ring r).tx = .none)

/-- `Drop for Shard`. -/
def dropShard (r : Nat) : MProg T Unit :=
  .store (.ring r) fun s =>
    (s.setRing r { s.ring r with consumerGone := true }).setSeat r .gone

/-- `FreeList::take_reset`. -/
def takeReset : MProg T (Option Nat) :=
  .loop () fun _ => do
    let r ← .rmw .parked
      (fun s => match s.parked.getLast? with
        | some r => { s.setSeat r (.hand (.handle h m)) with parked := s.parked.dropLast }
        | none => s) fun s => s.parked.getLast?
    match r with
    | none => return .inr none
    | some r =>
      let ok ← recycle (.handle h m) r
      if ok then
        return .inr (some r)
      else
        dropShard r
        return .inl ()

/-- `Reclaim::take`. -/
def take (reclaim : Reclaim) : MProg T (Option Nat) :=
  match reclaim with
  | .dropRings => .ret none
  | .pooledRings _ => takeReset h m

/-- `spawn_ring`. -/
def spawnRing : MProg T Nat :=
  .rmw .borrow
    (fun s => { (s.setTx s.rings (.hand (.handle h m))).setSeat s.rings (.hand (.handle h m)) with
      rings := s.rings + 1 }) fun s => s.rings

/-- `Shared::inc`, for the producer this call is making. -/
def inc : MProg T Unit :=
  .store .live fun s =>
    { s with
      live := s.live + 1
      holders := insert (.call h m) s.holders }

def deposit (inbox : Inbox) (r : Nat) : MProg T Unit :=
  match inbox with
  | .locked => do
    .store .inbox fun s =>
      { s.setSeat r .inbox with
        queue := s.queue ++ [r]
        announced := Function.update s.announced r false }
    .store .generation fun s =>
      { s with
        generation := s.generation + 1
        announced := Function.update s.announced r true }
  | .lockFree =>
    .store .inbox fun s =>
      { s.setSeat r .inbox with
        queue := r :: s.queue
        announced := Function.update s.announced r true }

/-- `make_producer`: from here on the caller may use it. -/
def makeProducer (r : Nat) : MProg T Nat :=
  .rmw .own
    (fun s => { s.setTx r (.producer s.born) with
      holders := insert (.producer s.born) (s.holders.erase (.call h m))
      born := s.born + 1
      home := Function.update s.home s.born r }) fun s => s.born

/-- `Registrar::register`. -/
def register (inbox : Inbox) (reclaim : Reclaim) : MProg T (Option Nat) := do
  let taken ← take h m reclaim
  let r ← match taken with
    | some r => (.ret r : MProg T Nat)
    | none => spawnRing h m
  inc h m
  deposit inbox r
  let p ← makeProducer h m r
  return some p

/-- `trailing_zeros`, of a word that is not zero. -/
def lowestBit (bits : BitVec 64) : Nat := ((List.range 64).find? fun i => bits.getLsbD i).getD 0

/-- `PoolSlots::claim`. The exchange may also fail for no reason; winning the bit wins
the sender in its slot. -/
def claimSlot : MProg T (Option Nat) :=
  .loop () fun _ => do
    let cur ← .load .free fun s => s.free
    if cur = 0 then
      return .inr none
    else
      let answer ← .pick
      let won ← .rmw .free
        (fun s => if answer ≠ 0 ∧ s.free = cur then
          { s.setTx (lowestBit cur) (.hand (.handle h m)) with
            free := cur &&& ~~~ single (lowestBit cur) } else s)
        fun s => decide (answer ≠ 0 ∧ s.free = cur)
      return if won then .inr (some (lowestBit cur)) else .inl ()

/-- `PoolHandle::claim`. -/
def claim : MProg T (Option Nat) := do
  let r ← claimSlot h m
  match r with
  | none => return none
  | some r =>
    inc h m
    let p ← makeProducer h m r
    return some p

/-- `register` or `claim`, through a shared reference. -/
def join : MProg T (Option Nat) := do
  borrow h m
  let p ← match sh.tier with
    | .fixed _ => (.ret none : MProg T (Option Nat))
    | .pool _ => claim h m
    | .dynamic inbox reclaim => register h m inbox reclaim
  giveBack h m
  return p

/-- `Clone` of a handle. -/
def cloneHandle : MProg T Unit :=
  .await .live (fun s => decide (.handle h ∈ s.holders)) fun s =>
    { s with
      live := s.live + 1
      holders := insert (.handle s.handles) s.holders
      handles := s.handles + 1 }

/-- `Drop` of a handle, which no call borrows. -/
def dropHandle : MProg T Unit :=
  release sh.kernel (.handle h m) (.handle h) fun s =>
    decide (.handle h ∈ s.holders ∧ ∀ x ∈ s.borrowers, x.1 ≠ h)

end Handle

/-! ## The receiver -/

section Receiver

variable (w : Nat) (sh : Shape)

/-- The front of the staging buffer goes to the caller. -/
def Shared.giveStaged (s : Shared T) : Shared T :=
  match s.rx.staging with
  | [] => s
  | x :: xs =>
    { s with
      rx := { s.rx with staging := xs }
      received := s.received ++ [x] }

/-- `staging.pop_front()`, given to the caller. -/
def popStaged : MProg T Bool := .rmw .own Shared.giveStaged fun s => decide (s.rx.staging ≠ [])

/-- All deposited rings become shards. -/
def takeInbox : MProg T Unit :=
  .store .inbox fun s =>
    { s with
      rx := { s.rx with shards := s.rx.shards ++ s.queue }
      queue := []
      seat := fun r => if r ∈ s.queue then .shard else s.seat r }

/-- `refresh_membership`. -/
def refresh : MProg T Unit :=
  match sh.tier with
  | .dynamic .locked _ => do
    let (g, changed) ← .load .generation fun s =>
      (s.generation, decide (s.generation ≠ s.rx.seen))
    if changed then
      takeInbox
      .store .own fun s => { s with rx := { s.rx with seen := g } }
    else
      return ()
  | .dynamic .lockFree _ => takeInbox
  | _ => .ret ()

/-- The number of steps of a pass. -/
def beginScan (k : Look) (inPlace : Bool) : MProg T Nat :=
  .rmw (.scan k inPlace) (fun s => { s with todo := s.rx.shards }) fun s => s.rx.shards.length

/-- The index the cursor selects. -/
def Shared.index (s : Shared T) : Nat := s.rx.cursor % s.rx.shards.length

/-- The shard the cursor selects. -/
def Shared.current (s : Shared T) : Nat := s.rx.shards.getD s.index 0

def selectShard (k : Look) : MProg T (Nat × Nat) :=
  .rmw (.select k) (fun s => { s with todo := s.todo.erase s.current })
    fun s => (s.index, s.current)

def advance : MProg T Unit :=
  .store .own fun s => { s with rx := { s.rx with cursor := wadd w s.rx.cursor 1 } }

/-- How many of at most `max` values a drain of ring `r` finds. -/
def look (r max : Nat) : MProg T Nat := do
  let answer ← .pick
  .load (.ring r) fun s => min ((s.ring r).fifo.ready answer) max

def Shared.popRing (s : Shared T) (r : Nat) : Shared T :=
  s.setRing r { s.ring r with fifo := (s.ring r).fifo.pop }

/-- The front value of a ring goes to the staging buffer. -/
def Shared.stageFront (s : Shared T) (r : Nat) : Shared T :=
  match s.items r with
  | [] => s
  | x :: _ => { s.popRing r with rx := { s.rx with staging := s.rx.staging ++ [x] } }

/-- The front value of a ring goes to the caller. -/
def Shared.giveFront (s : Shared T) (r : Nat) : Shared T :=
  match s.items r with
  | [] => s
  | x :: _ => { s.popRing r with received := s.received ++ [x] }

def moveToStaging (r : Nat) : MProg T Unit := .store (.ring r) fun s => s.stageFront r

def moveToCaller (r : Nat) : MProg T Unit := .store (.ring r) fun s => s.giveFront r

/-- The commit of a drain. -/
def freeRoom (r : Nat) : MProg T Unit :=
  .store (.ring r) fun s => s.setRing r { s.ring r with fifo := (s.ring r).fifo.free }

def moves (move : Nat → MProg T Unit) (r : Nat) : Nat → MProg T Unit
  | 0 => .ret ()
  | n + 1 => do
    move r
    moves move r n

/-- `Kernel::drain`. -/
def drain (move : Nat → MProg T Unit) (r max : Nat) : MProg T Nat := do
  let n ← look r max
  if n = 0 then
    return 0
  else
    moves move r n
    freeRoom r
    return n

def isFinished (r : Nat) : MProg T Bool := do
  let gone ← .load (.tx r) fun s => (s.ring r).tx.gone
  if gone then .load (.ring r) fun s => decide ((s.ring r).fifo.queue = []) else return false

/-- `swap_remove`. -/
def swapRemove (l : List Nat) (i : Nat) : List Nat :=
  (l.set i (l.getLastD 0)).dropLast

omit w sh in
theorem swapRemove_perm {l : List Nat} {i : Nat} (h : i < l.length) :
    (l.getD i 0 :: swapRemove l i).Perm l := by
  have hne : l ≠ [] := List.ne_nil_of_length_pos (Nat.lt_of_le_of_lt (Nat.zero_le _) h)
  have hlast : l.getLastD 0 = l.getLast hne := by
    rw [List.getLastD_eq_getLast?, List.getLast?_eq_some_getLast hne]
    rfl
  have hset : (l.set i (l.getLast hne)).dropLast ++ [l.getLast hne] = l.set i (l.getLast hne) := by
    have hne' : l.set i (l.getLast hne) ≠ [] := by simpa using hne
    have hend : (l.set i (l.getLast hne)).getLast hne' = l.getLast hne := by
      rw [List.getLast_eq_getElem, List.getElem_set]
      split
      · rfl
      · simp [List.getLast_eq_getElem]
    have happ := List.dropLast_append_getLast hne'
    rwa [hend] at happ
  have hperm := List.getD_set_perm_cons l i (l.getLast hne)
  rw [← hset, show l[i]?.getD (l.getLast hne) = l.getD i 0 by simp [h]] at hperm
  unfold swapRemove
  rw [hlast]
  -- the last element stands at the end of both sides
  have hcomm : (l.getLast hne :: (l.getD i 0 :: (l.set i (l.getLast hne)).dropLast)).Perm
      (l.getD i 0 :: ((l.set i (l.getLast hne)).dropLast ++ [l.getLast hne])) :=
    (List.perm_append_singleton _ (l.getD i 0 :: _)).symm
  exact (List.perm_cons _).mp (hcomm.trans hperm)

def removeShard (i r : Nat) : MProg T Unit :=
  .store .own fun s =>
    { s.setSeat r (.hand .receiver) with rx := { s.rx with shards := swapRemove s.rx.shards i } }

/-- `Reclaim::put`. -/
def put (reclaim : Reclaim) (r : Nat) : MProg T Unit :=
  match reclaim with
  | .dropRings => dropShard r
  | .pooledRings cap => do
    let kept ← .rmw .parked
      (fun s => if s.parked.length < cap then
        { s.setSeat r .parked with parked := s.parked ++ [r] } else s)
      fun s => decide (s.parked.length < cap)
    if kept then return () else dropShard r

/-- `dispose`: whether the shard was removed. -/
def dispose (i r : Nat) : MProg T Bool :=
  match sh.tier with
  | .fixed _ => do
    removeShard i r
    dropShard r
    return true
  | .pool _ => do
    let ok ← recycle .receiver r
    if ok then
      .store .free fun s => { s.setTx r .slot with free := s.free ||| single i }
      return false
    else
      return false
  | .dynamic _ reclaim => do
    removeShard i r
    put reclaim r
    return true

/-- What follows a drain that found nothing. -/
def settle (i r : Nat) : MProg T Unit := do
  let finished ← isFinished r
  if finished then
    let removed ← dispose sh i r
    if removed then return () else advance w
  else
    advance w

/-- At most `left` steps of a pass that goes on while `more` of what it has. -/
def pass (k : Look) (more : Nat → Bool) (drainTo : Nat → Nat → MProg T Nat) :
    Nat → Nat → MProg T Nat
  | 0, pushed => .ret pushed
  | left + 1, pushed => do
    let shards ← .load .own fun s => decide (s.rx.shards ≠ [])
    if shards && more pushed then
      let (i, r) ← selectShard k
      let got ← drainTo r pushed
      if got = 0 then
        settle w sh i r
        pass k more drainTo left pushed
      else
        advance w
        pass k more drainTo left (pushed + got)
    else
      return pushed

/-- Drain up to a batch into the staging buffer. -/
def drainBatch (r : Nat) : MProg T Nat := do
  let batch ← .load .own fun s => s.rx.batch
  drain moveToStaging r batch

/-- `try_recv`: whether it gave the caller a value. -/
def tryRecv (k : Look) : MProg T Bool := do
  let staged ← popStaged
  if staged then
    return true
  else
    refresh sh
    let n ← beginScan k false
    let _ ← pass w sh k (fun pushed => decide (pushed = 0)) (fun r _ => drainBatch r) n 0
    popStaged

/-- The staged values, at most `max`, given to the caller. -/
def flush (max : Nat) : Nat → MProg T Nat
  | 0 => .ret max
  | left + 1 => do
    let staged ← popStaged
    if staged then flush max left else return max - (left + 1)

/-- `try_recv_many`: how many values it gave the caller. -/
def tryRecvMany (k : Look) (max : Nat) : MProg T Nat :=
  if max = 0 then
    .ret 0
  else do
    let pushed ← flush max max
    if pushed = max then
      return pushed
    else
      refresh sh
      let n ← beginScan k false
      pass w sh k (fun pushed => decide (pushed < max))
        (fun r pushed => drain moveToCaller r (max - pushed)) n pushed

/-- `drain_once`, which `try_drain` is: how many values it gave the caller. -/
def drainOnce (k : Look) : MProg T Nat := do
  refresh sh
  let n ← beginScan k true
  let batch ← .load .own fun s => s.rx.batch
  pass w sh k (fun _ => true) (fun r _ => drain moveToCaller r batch) n 0

def disconnected : MProg T Bool := .load .live fun s => decide (s.live = 0)

/-- What the receiver's last call came to. -/
inductive Last : Type
  | none
  | value
  | nothing
  | ended
  | drained
  | pending
deriving DecidableEq

/-- The look at every shard of a blocking receiver before it parks. -/
def anyReady : List Nat → MProg T Bool
  | [] => .ret false
  | r :: rs => do
    let ready ← .load (.ring r) fun s => decide ((s.ring r).fifo.queue ≠ [])
    if ready then return true else anyReady rs

/-- `cv.wait`: the lock is released and the receiver blocks in one access, and it goes
on, with the lock, when it has been notified. -/
def wait : MProg T Unit := do
  onBell .lock (fun b => { b with lock := none, blocked := true }) fun _ => ()
  .await .wait (fun s => decide (s.bell.blocked = false ∧ s.bell.lock = none)) fun s =>
    { s with bell := { s.bell with lock := some .receiver } }

def lockWaiter : MProg T Unit :=
  .await .lock (fun s => decide (s.bell.lock = none)) fun s =>
    { s with bell := { s.bell with lock := some .receiver } }

def unlockWaiter : MProg T Unit := onBell .lock (fun b => { b with lock := none }) fun _ => ()

/-- `Waiter::park` of `park/condvar.rs`. -/
def parkPark : MProg T Unit := do
  lockWaiter
  let parked ← onBell .waiting id Bell.armed
  if parked then
    wait
    unlockWaiter
  else
    unlockWaiter

def SPIN_BUDGET : Nat := 512

/-- The spin phase: whether the flag stayed up. -/
def spin : Nat → MProg T Bool
  | 0 => .ret true
  | n + 1 => do
    let armed ← onBell .waiting id Bell.armed
    if armed then spin n else return false

def setSleeping (x : Bool) : MProg T Unit :=
  onBell .sleeping (fun b => { b with sleeping := x }) fun _ => ()

/-- `Waiter::park` of `park/hybrid.rs`. -/
def parkHybrid : MProg T Unit := do
  let idle ← spin SPIN_BUDGET
  if idle then
    lockWaiter
    setSleeping true
    let armed ← onBell .waiting id Bell.armed
    if armed then
      wait
      setSleeping false
      unlockWaiter
    else
      setSleeping false
      unlockWaiter
  else
    return ()

/-- `Kernel::park`. -/
def park : MProg T Unit :=
  match sh.kernel with
  | .park => parkPark
  | .hybrid => parkHybrid
  | _ => .ret ()

/-- `Waiter::arm` and `Waiter::disarm`. -/
def setArmed (x : Bool) : MProg T Unit :=
  onBell (if x then .arm else .waiting) (fun b => { b with armed := x }) fun _ => ()

/-- What a blocking receiver does when it has found nothing: arm, look again, park,
disarm. -/
def rest : MProg T Unit := do
  setArmed true
  let shards ← .load .own fun s => s.rx.shards
  let any ← anyReady shards
  if any then
    setArmed false
  else
    let closed ← disconnected
    if closed then
      setArmed false
    else
      park sh
      setArmed false

/-- `recv`. -/
def recv : MProg T Last :=
  .loop () fun _ => do
    let got ← tryRecv w sh .first
    if got then
      return .inr .value
    else
      let closed ← disconnected
      if closed then
        refresh sh
        let got ← tryRecv w sh .closing
        return .inr (if got then .value else .ended)
      else
        rest sh
        return .inl ()

/-- `drain`. -/
def drainAll : MProg T Last :=
  .loop () fun _ => do
    let got ← drainOnce w sh .first
    if got ≠ 0 then
      return .inl ()
    else
      let closed ← disconnected
      if closed then
        refresh sh
        let got ← drainOnce w sh .closing
        return if got ≠ 0 then .inl () else .inr .drained
      else
        rest sh
        return .inl ()

/-- `TaskWaiter::arm`. -/
def arm : MProg T Unit := do
  onBell .own (fun b => { b with needsClear := true }) fun _ => ()
  onBell .waker (fun b => { b with waker := true, woken := false }) fun _ => ()
  onBell .waiting (fun b => { b with waiting := true }) fun _ => ()

/-- `TaskWaiter::clear`. -/
def clear : MProg T Unit := do
  let needed ← onBell .own id Bell.needsClear
  if needed then
    onBell .own (fun b => { b with needsClear := false }) fun _ => ()
    onBell .waiting (fun b => { b with waiting := false }) fun _ => ()
    onBell .waker (fun b => { b with waker := false }) fun _ => ()
  else
    return ()

/-- `poll_recv` and `poll_recv_many`, for a receive that tells whether it got a value. -/
def poll (receive : Look → MProg T Bool) : MProg T Last := do
  let got ← receive .first
  if got then
    return .value
  else
    let closed ← disconnected
    if closed then
      refresh sh
      let got ← receive .closing
      return if got then .value else .ended
    else
      arm
      let got ← receive .recheck
      if got then
        clear
        return .value
      else
        let closed ← disconnected
        if closed then
          refresh sh
          let got ← receive .closing
          clear
          return if got then .value else .ended
        else
          return .pending

def pollRecv : MProg T Last := poll sh (tryRecv w sh)

def pollRecvMany (max : Nat) : MProg T Last :=
  if max = 0 then
    .ret .nothing
  else
    poll sh fun k => do
      let n ← tryRecvMany w sh k max
      return decide (n ≠ 0)

end Receiver

/-! ## The system -/

inductive SendOp (T : Type) : Type
  | trySend (v : T)
  | send (v : T)
  | sendBatch (items : Nat → Next T)
  | sendRun (items : List T)
  | drop

inductive HandleOp : Type
  | join
  | clone
  | drop

inductive RecvOp : Type
  | tryRecv
  | tryRecvMany (max : Nat)
  | recv
  | pollRecv
  | pollRecvMany (max : Nat)
  | tryDrain
  | drain
  | setBatch (n : Nat)
  | clear

def sendBody (sh : Shape) (p : Nat) : SendOp T → MProg T Unit
  | .trySend v => do
    let _ ← trySend sh p v
    return ()
  | .send v => do
    let _ ← send sh p v
    return ()
  | .sendBatch items => do
    let _ ← sendBatch sh p items
    return ()
  | .sendRun items => do
    let _ ← sendRun sh p items
    return ()
  | .drop => dropProducer sh p

def handleBody (sh : Shape) (h m : Nat) : HandleOp → MProg T Unit
  | .join => do
    let _ ← join sh h m
    return ()
  | .clone => cloneHandle h
  | .drop => dropHandle sh h m

def recvBody (w : Nat) (sh : Shape) : RecvOp → MProg T Last
  | .tryRecv => do
    let got ← tryRecv w sh .first
    return if got then .value else .nothing
  | .tryRecvMany max => do
    let n ← tryRecvMany w sh .first max
    return if n ≠ 0 then .value else .nothing
  | .recv => recv w sh
  | .pollRecv => pollRecv w sh
  | .pollRecvMany max => pollRecvMany w sh max
  | .tryDrain => do
    let n ← drainOnce w sh .first
    return if n ≠ 0 then .value else .nothing
  | .drain => drainAll w sh
  | .setBatch n => do
    .store .own fun s =>
      { s with rx := { s.rx with batch := max n 1, batch_pos := Nat.lt_of_lt_of_le (by decide) (Nat.le_max_right n 1) } }
    return .none
  | .clear => do
    clear
    return .none

/-- The calls of an endpoint, and what it keeps of the last one. -/
def Op (T : Type) : Actor → Type
  | .receiver => RecvOp
  | .producer _ => SendOp T
  | .handle _ _ => HandleOp

def Local : Actor → Type
  | .receiver => Last
  | .producer _ => Unit
  | .handle _ _ => Unit

/-- A call is made by an endpoint that has what it needs: a producer its sender, and
either end the kernel the call is for. -/
def callable (sh : Shape) : (a : Actor) → Op T a → Shared T → Bool
  | .receiver, .recv, _ => decide (sh.kernel ≠ .task)
  | .receiver, .drain, _ => decide (sh.kernel ≠ .task)
  | .receiver, .pollRecv, _ => decide (sh.kernel = .task)
  | .receiver, .pollRecvMany _, _ => decide (sh.kernel = .task)
  | .receiver, .clear, _ => decide (sh.kernel = .task)
  | .receiver, _, _ => true
  | .producer p, .send _, s => decide ((s.ring (s.home p)).tx = .producer p ∧ sh.kernel ≠ .task)
  | .producer p, .sendBatch _, s =>
    decide ((s.ring (s.home p)).tx = .producer p ∧ sh.kernel ≠ .task)
  | .producer p, .sendRun _, s => decide ((s.ring (s.home p)).tx = .producer p ∧ sh.kernel = .task)
  | .producer p, _, s => decide ((s.ring (s.home p)).tx = .producer p)
  | .handle _ _, _, _ => true

def body (w : Nat) (sh : Shape) : (a : Actor) → Op T a → MProg T (Local a)
  | .receiver, o => recvBody w sh o
  | .producer p, o => sendBody sh p o
  | .handle h m, o => handleBody sh h m o

def sys (w : Nat) (sh : Shape) : Sys Actor Access (Shared T) Local where
  Op := Op T
  can a o _ s := callable sh a o s
  body a o _ := body w sh a o

def DEFAULT_BATCH : Nat := 64

def Rx.new (shards : List Nat) : Rx T := ⟨shards, 0, DEFAULT_BATCH, [], 0, by decide⟩

/-- The rings, the holders and the numbers of producers and handles of a new channel. -/
def Shared.open (T : Type) (sh : Shape) : Shared T where
  ring r := ⟨.empty, match sh.tier with
    | .fixed n => if r < n then .producer r else .none
    | .pool n => if r < n then .slot else .none
    | .dynamic _ _ => .none, false, 0⟩
  rx := .new (match sh.tier with
    | .fixed n => List.range n
    | .pool n => List.range n
    | .dynamic _ _ => [])
  queue := []
  generation := 0
  parked := []
  free := match sh.tier with
    | .pool n => if n ≥ 64 then BitVec.allOnes 64 else single n - 1
    | _ => 0
  live := match sh.tier with
    | .fixed n => n
    | _ => 1
  bell := ⟨false, false, false, false, false, false, none, false, fun _ => .idle⟩
  seat r := match sh.tier with
    | .fixed n => if r < n then .shard else .unmade
    | .pool n => if r < n then .shard else .unmade
    | .dynamic _ _ => .unmade
  rings := match sh.tier with
    | .fixed n => n
    | .pool n => n
    | .dynamic _ _ => 0
  born := match sh.tier with
    | .fixed n => n
    | _ => 0
  handles := match sh.tier with
    | .fixed _ => 0
    | _ => 1
  home p := p
  announced _ := false
  holders := match sh.tier with
    | .fixed n => (Finset.range n).image .producer
    | _ => {.handle 0}
  borrowers := ∅
  sent _ := []
  received := []
  todo := []

def init (T : Type) (sh : Shape) : Config Actor Access (Shared T) Local where
  shared := .open T sh
  thr a := .idle (match a with
    | .receiver => Last.none
    | .producer _ => ()
    | .handle _ _ => ())

end Prescient.Mpsc
