import Prescient.Brokerless
import Prescient.Word

/-!
# Leased payload blocks

The leased channel (`mpmc/brokerless/leased.rs`) over the claim engine. Each
producer owns a fixed pool of blocks. A block is filled in a write lease,
published on the producer's forward ring, held by one consumer as a read lease,
and comes back on a return lane, one ring for each consumer and producer.

A block's `id` tells it from the other blocks of its producer; the source has
the allocation itself. An endpoint's private fields are updated in the access
beside them, since no other endpoint sees them. `released` is history: the read
leases a consumer has ended, so that what it reads is what it was handed since.
-/

namespace Prescient.Leased

structure Block (T : Type) where
  values : List T
  origin : Nat
  id : Nat

/-- What `open` fixes: the endpoints, the blocks of each producer, the slots of
each ring and the values a block takes. -/
structure Shape where
  producers : Nat
  consumers : Nat
  blocks : Nat
  slots : Nat
  batch : Nat

/-- The sizes of what `open` allocates arrays of. -/
structure Sizes where
  value : Nat
  block : Nat
  producer : Nat
  consumer : Nat

/-- `allocation`: an array of `count` elements has a layout. -/
def allocation (w size count : Nat) : Except String Unit :=
  if size * count < 2 ^ (w - 1) then .ok () else .error "leased channel allocation shape overflows"

def checkedMul (w a b : Nat) : Option Nat := if a * b < 2 ^ w then some (a * b) else none

/-- An overflow is an error with its own text. -/
def orError {α : Type} (message : String) : Option α → Except String α
  | some a => .ok a
  | none => .error message

/-- `open`: the shape it accepts, for words of `w` bits. -/
def «open» (w : Nat) (sizes : Sizes) (producers consumers capacity batch : Nat) :
    Except String Shape :=
  if producers = 0 ∨ consumers = 0 ∨ batch = 0 ∨ capacity < batch ∨ ¬ batch ∣ capacity then
    .error "leased channels require non-zero workers and capacity divisible by batch"
  else do
    let blocks := capacity / batch
    let slots ← orError "leased descriptor capacity overflows" (checkedNextPowerOfTwo w blocks)
    let payloads ← orError "leased payload count overflows" (checkedMul w producers capacity)
    let descriptors ← orError "leased return topology overflows"
      ((checkedMul w producers consumers).bind fun n => checkedMul w n slots)
    allocation w sizes.value batch
    allocation w sizes.value payloads
    allocation w sizes.block descriptors
    allocation w sizes.producer producers
    allocation w sizes.consumer consumers
    return { producers, consumers, blocks, slots, batch }

structure Shared (T : Type) where
  forward : Brokerless.Shared (Block T)
  /-- `lanes k j` brings blocks back from consumer `k` to producer `j`. -/
  lanes : Nat → Nat → Fifo (Block T)
  laneGone : Nat → Nat → Bool
  free : Nat → List (Block T)
  lease : Nat → Option (Block T)
  inFlight : Nat → Nat
  cursor : Nat → Nat
  released : Nat → Nat

variable {T : Type}

/-- The blocks consumer `k` holds as read leases. -/
def Shared.reading (s : Shared T) (k : Nat) : List (Block T) :=
  (s.forward.handed k).drop (s.released k)

def Shared.setForward (s : Shared T) (f : Brokerless.Shared (Block T)) : Shared T :=
  { s with forward := f }

def Shared.setLane (s : Shared T) (k j : Nat) (f : Fifo (Block T)) : Shared T :=
  { s with lanes := fun k' j' => if k' = k ∧ j' = j then f else s.lanes k' j' }

def Shared.setFree (s : Shared T) (j : Nat) (bs : List (Block T)) : Shared T :=
  { s with free := Function.update s.free j bs }

def Shared.setLease (s : Shared T) (j : Nat) (b : Option (Block T)) : Shared T :=
  { s with lease := Function.update s.lease j b }

def Shared.setInFlight (s : Shared T) (j m : Nat) : Shared T :=
  { s with inFlight := Function.update s.inFlight j m }

def Shared.setCursor (s : Shared T) (j m : Nat) : Shared T :=
  { s with cursor := Function.update s.cursor j m }

/-- The endpoints `open` returns. The forward channel was opened for one consumer
with batch 1 and cloned. -/
def Shared.open (T : Type) (sh : Shape) : Shared T where
  forward :=
    { Brokerless.Shared.open (Block T) sh.producers with
      liveConsumers := sh.consumers
      born := sh.consumers
      cursor := fun k => .new k
      batch := fun _ => 1 }
  lanes _ _ := .empty
  laneGone _ _ := false
  free j := (List.range sh.blocks).map fun id => ⟨[], j, id⟩
  lease _ := none
  inFlight _ := 0
  cursor _ := 0
  released _ := 0

/-- The accesses: those of the forward channel, an endpoint's own fields, and the
two ends of a return lane. -/
inductive Access : Type
  | forward (e : Brokerless.Access)
  | producer (j : Nat)
  | consumer (k : Nat)
  | popLane (k j : Nat)
  | pushLane (k j : Nat)
  | laneGone (k j : Nat)
deriving DecidableEq

abbrev LProg (T : Type) := Prog Access (Shared T)

/-- A program of the forward channel. -/
def onForward {α : Type} (p : Brokerless.BProg (Block T) α) : LProg T α :=
  p.lift .forward Shared.forward Shared.setForward

/-- A ring of the channel is full: every slot is taken, or read and not yet handed
back. -/
def full (sh : Shape) (f : Fifo (Block T)) : Bool := decide (sh.slots ≤ f.queue.length + f.held)

/-! ## Producers -/

section Producer

variable (sh : Shape) (j : Nat)

def noConsumers : LProg T Bool :=
  .load (.forward .liveConsumers) fun s => decide (s.forward.liveConsumers = 0)

/-- `try_pop` on the lane from consumer `k`, into the producer's hands. -/
def popLane (k : Nat) : LProg T Bool := do
  let got ← .rmw (.popLane k j)
    (fun s => match (s.lanes k j).queue with
      | [] => s
      | b :: _ => ((s.setLane k j (s.lanes k j).pop).setLease j (some b)).setInFlight j
        (s.inFlight j - 1))
    fun s => decide ((s.lanes k j).queue ≠ [])
  if got then
    .store (.popLane k j) fun s => s.setLane k j (s.lanes k j).free
    return true
  else
    return false

/-- `returned`: whether a block came back on one of the lanes. -/
def returned : LProg T Bool := scan sh.consumers
where
  selectLane : LProg T Nat :=
    .rmw (.producer j)
      (fun s => s.setCursor j (RoundRobin.next (s.cursor j) sh.consumers).2)
      fun s => (RoundRobin.next (s.cursor j) sh.consumers).1
  scan : Nat → LProg T Bool
    | 0 => .ret false
    | left + 1 => do
      let k ← selectLane
      let got ← popLane j k
      if got then return true else scan left

/-- `free.pop()`, into the producer's hands. -/
def takeFree : LProg T Bool :=
  .rmw (.producer j)
    (fun s => match (s.free j).getLast? with
      | none => s
      | some b => (s.setFree j (s.free j).dropLast).setLease j (some b))
    fun s => (s.free j).getLast?.isSome

/-- `free.push(block)`, from the producer's hands: `Drop for WriteLease`. -/
def rollback : LProg T Unit :=
  .store (.producer j) fun s =>
    match s.lease j with
    | none => s
    | some b => (s.setFree j (s.free j ++ [b])).setLease j none

/-- The result of a producer's latest call. `refused` is a failed `commit`, with
whether it had found the consumers gone. -/
inductive Sent : Type
  | fresh
  | reserved (ok : Bool)
  | pushed (ok : Bool)
  | committed (count : Nat)
  | refused (disconnected : Bool)
  | reclaimed (count : Nat)
  | flushed (all : Bool)
  | unwound
deriving DecidableEq

/-- The lease on the block just obtained. Dropping its old values may panic,
which rolls the lease back. -/
def startLease : LProg T Sent := do
  .store (.producer j) fun s =>
    s.setLease j ((s.lease j).map fun b => { b with values := [] })
  let panics ← .pick
  if panics = 0 then
    rollback j
    return .unwound
  else
    return .reserved true

def tryReserve : LProg T Sent := do
  let gone ← noConsumers
  if gone then
    return .reserved false
  else
    let got ← returned sh j
    if got then
      startLease j
    else
      let got ← takeFree j
      if got then startLease j else return .reserved false

/-- `reserve`: a block, or `none` once the consumers are gone. -/
def reserve : LProg T Sent := do
  let got ← .loop () fun _ => do
    let gone ← noConsumers
    if gone then
      return .inr false
    else
      let got ← returned sh j
      if got then
        return .inr true
      else
        let got ← takeFree j
        return if got then .inr true else .inl ()
  if got then startLease j else return .reserved false

/-- `push` on the open lease. -/
def push (v : T) : LProg T Sent := do
  let ok ← .rmw (.producer j)
    (fun s => s.setLease j ((s.lease j).map fun b =>
      if b.values.length = sh.batch then b else { b with values := b.values ++ [v] }))
    fun s => (s.lease j).any fun b => decide (b.values.length ≠ sh.batch)
  return .pushed ok

/-- `commit` of the open lease. A failed commit gives the lease back. -/
def commit : LProg T Sent := do
  let count ← .load (.producer j) fun s => (s.lease j).elim 0 fun b => b.values.length
  if count = 0 then
    rollback j
    return .committed 0
  else
    let gone ← noConsumers
    if gone then
      return .refused true
    else
      let ok ← .rmw (.forward (.tx j))
        (fun s => match s.lease j with
          | none => s
          | some b => if full sh (s.forward.rx j) then s else
            ((s.setLease j none).setInFlight j (s.inFlight j + 1)).setForward
              (s.forward.push j b))
        fun s => !full sh (s.forward.rx j)
      return if ok then .committed count else .refused false

/-- `reclaim`: the blocks that came back, or `none` if dropping their values
panicked. A block is in the free list before its values are dropped. -/
def reclaim : LProg T (Option Nat) :=
  .loop 0 fun reclaimed => do
    let got ← returned sh j
    if got then
      rollback j
      let panics ← .pick
      return if panics = 0 then .inr none else .inl (reclaimed + 1)
    else
      return .inr (some reclaimed)

def reclaimAll : LProg T Sent := do
  let count ← reclaim sh j
  return count.elim .unwound .reclaimed

def flush : LProg T Sent :=
  .loop () fun _ => do
    let count ← reclaim sh j
    if count.isNone then
      return .inr .unwound
    else
      let outstanding ← .load (.producer j) fun s => s.inFlight j
      if outstanding = 0 then
        return .inr (.flushed true)
      else
        let gone ← noConsumers
        if gone then
          let count ← reclaim sh j
          if count.isNone then
            return .inr .unwound
          else
            let outstanding ← .load (.producer j) fun s => s.inFlight j
            return .inr (.flushed (decide (outstanding = 0)))
        else
          return .inl ()

/-- The producer's fields are dropped in order: the forward half, the receivers
of the lanes with what is left in them, and the free list. -/
def dropProducer : LProg T Sent := do
  onForward (Brokerless.dropProducer j)
  closeLanes sh.consumers
  .store (.producer j) fun s => s.setFree j []
  return .fresh
where
  closeLanes : Nat → LProg T Unit
    | 0 => .ret ()
    | k + 1 => do
      .store (.laneGone k j) fun s =>
        { s with laneGone := fun k' j' => decide (k' = k ∧ j' = j) || s.laneGone k' j' }
      .loop () fun _ => do
        let got ← .rmw (.popLane k j)
          (fun s => s.setLane k j ((s.lanes k j).pop.free))
          fun s => decide ((s.lanes k j).queue ≠ [])
        return if got then .inl () else .inr ()
      closeLanes k

end Producer

/-! ## Consumers -/

section Consumer

variable (sh : Shape) (k : Nat)

/-- `take_block`: whether a block was moved into the consumer's hands. The
callback only stores it. -/
def takeBlock : LProg T Bool := do
  let (done, _) ← onForward (Brokerless.drain sh.producers k (fun _ => false) 1)
  return decide (0 < done)

def noProducers : LProg T Bool :=
  .load (.forward .liveProducers) fun s => decide (s.forward.liveProducers = 0)

def recv : LProg T Bool :=
  .loop () fun _ => do
    let got ← takeBlock sh k
    if got then
      return .inr true
    else
      let gone ← noProducers
      if gone then
        let got ← takeBlock sh k
        return .inr got
      else
        return .inl ()

/-- The consumer lets go of the block it reads. -/
def Shared.letGo (s : Shared T) (k : Nat) : Shared T :=
  { s with released := Function.update s.released k (s.released k + 1) }

/-- `Drop for ReadLease`: the block goes back on the lane to its producer, or is
dropped where the producer is gone. -/
def dropReadLease : LProg T Unit := do
  let origin ← .load (.consumer k) fun s => (s.reading k).head?.map (·.origin)
  match origin with
  | none => return ()
  | some j =>
    let gone ← .load (.laneGone k j) fun s => s.laneGone k j
    if gone then
      .store (.consumer k) fun s => s.letGo k
    else
      .store (.pushLane k j) fun s =>
        match s.reading k with
        | [] => s
        | b :: _ => if full sh (s.lanes k j) then s.letGo k else
          (s.letGo k).setLane k j ((s.lanes k j).push b)

def dropConsumer : LProg T Unit := onForward (Brokerless.dropConsumer k)

end Consumer

/-! ## The system -/

inductive SendOp (T : Type) : Type
  | tryReserve
  | reserve
  | push (v : T)
  | commit
  | dropLease
  | reclaim
  | flush
  | drop

inductive RecvOp : Type
  | tryRecv
  | recv
  | dropLease
  | drop

abbrev Last : Brokerless.Actor → Type
  | .producer _ => Sent
  | .consumer _ => Option Bool

/-- A lease borrows its endpoint: while it is open, only its own calls can be
made. -/
def SendOp.onLease : SendOp T → Bool
  | .push _ | .commit | .dropLease => true
  | _ => false

def RecvOp.onLease : RecvOp → Bool
  | .dropLease => true
  | _ => false

def sendBody (sh : Shape) (j : Nat) : SendOp T → LProg T Sent
  | .tryReserve => tryReserve sh j
  | .reserve => reserve sh j
  | .push v => push sh j v
  | .commit => commit sh j
  | .dropLease => do
    rollback j
    return .fresh
  | .reclaim => reclaimAll sh j
  | .flush => flush sh j
  | .drop => dropProducer sh j

def recvBody (sh : Shape) (k : Nat) : RecvOp → LProg T (Option Bool)
  | .tryRecv => do return some (← takeBlock sh k)
  | .recv => do return some (← recv sh k)
  | .dropLease => do
    dropReadLease sh k
    return none
  | .drop => do
    dropConsumer k
    return none

def sys (T : Type) (sh : Shape) : Sys Brokerless.Actor Access (Shared T) Last where
  Op
    | .producer _ => SendOp T
    | .consumer _ => RecvOp
  can
    | .producer j, o, _, s => s.forward.producing j && (o.onLease == (s.lease j).isSome)
    | .consumer k, o, _, s => decide (k < sh.consumers) && !s.forward.dropped k &&
      (o.onLease == !(s.reading k).isEmpty)
  body
    | .producer j, o, _ => sendBody sh j o
    | .consumer k, o, _ => recvBody sh k o

def init (T : Type) (sh : Shape) : Config Brokerless.Actor Access (Shared T) Last where
  shared := .open T sh
  thr
    | .producer _ => .idle .fresh
    | .consumer _ => .idle none

end Prescient.Leased
