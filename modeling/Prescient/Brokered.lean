import Prescient.Actor
import Prescient.Fifo
import Prescient.RoundRobin

/-!
# The brokered channel

MPMC through brokers (`mpmc/brokered/mod.rs`). Producer `j` has one ring to broker
`j % brokers`; every broker has one ring to every consumer. A broker sweeps the rings of
its producers and places each value on the ring of one consumer, by round robin or by a
routing function, until no producer is left and a last sweep finds nothing.

An `Item` is a value with its sender and its position among the values this sender got
accepted. No program reads these two: routing is the environment's answer, as the
routing function may be any. The fields of the shared state from `sent` on are history:
what a broker holds between two rings, what became of each value, and which consumers
it found gone in the pass it is in.
-/

namespace Prescient.Brokered

structure Item (T : Type) where
  origin : Nat
  seq : Nat
  value : T

/-- What a broker did with a value. `observed` are the consumers it had found gone. -/
inductive Fate : Type
  | placed (consumer : Nat)
  | discarded (observed : List Nat)

structure Handled (T : Type) where
  item : Item T
  fate : Fate

/-- The ring from a broker to a consumer. -/
abbrev Lane := Nat × Nat

structure Shared (T : Type) where
  producerRing : Nat → Fifo (Item T)
  /-- `consumer_gone` of a producer's ring. -/
  brokerGone : Nat → Bool
  lane : Lane → Fifo (Item T)
  /-- `consumer_gone` of a consumer's ring. -/
  consumerGone : Lane → Bool
  /-- `producer_gone` of a consumer's ring. -/
  finished : Lane → Bool
  liveProducers : Nat
  /-- Producer `j` has not been dropped. -/
  producing : Nat → Bool
  sent : Nat → List (Item T)
  holding : Nat → Option (Item T)
  log : Nat → List (Handled T)
  observed : Nat → List Nat
  got : Nat → List (Item T)
  lost : Lane → List (Item T)

inductive Access : Type
  | producerRing (j : Nat)
  | lane (l : Lane)
  | own (b : Nat)
  | liveProducers
deriving DecidableEq

variable {T : Type}

/-- All endpoints, before the first call. -/
def Shared.open (T : Type) (producers : Nat) : Shared T where
  producerRing _ := .empty
  brokerGone _ := false
  lane _ := .empty
  consumerGone _ := false
  finished _ := false
  liveProducers := producers
  producing j := decide (j < producers)
  sent _ := []
  holding _ := none
  log _ := []
  observed _ := []
  got _ := []
  lost _ := []

abbrev BProg (T : Type) := Prog Access (Shared T)

section Programs

/- A ring refuses a value by its `consumer_gone` flag and its content: a bounded ring
when it has no room, a segmented one when its consumer is gone. -/
variable (full : Bool → Fifo (Item T) → Bool)

/-! ## Producers -/

section Producer

variable (j : Nat)

def Shared.accept (s : Shared T) (v : T) : Shared T :=
  let item : Item T := ⟨j, (s.sent j).length, v⟩
  { s with
    producerRing := Function.update s.producerRing j ((s.producerRing j).push item)
    sent := Function.update s.sent j (s.sent j ++ [item]) }

/-- `try_send`: whether the ring took the value. -/
def trySend (v : T) : BProg T Bool :=
  .rmw (.producerRing j)
    (fun s => if full (s.brokerGone j) (s.producerRing j) then s else s.accept j v)
    fun s => !full (s.brokerGone j) (s.producerRing j)

def send (v : T) : BProg T Bool :=
  .loop () fun _ => do
    let gone ← .load (.producerRing j) fun s => s.brokerGone j
    if gone then
      return .inr false
    else
      let ok ← trySend full j v
      return if ok then .inr true else .inl ()

/-- `Drop for Producer`. -/
def dropProducer : BProg T Unit :=
  .store .liveProducers fun s =>
    { s with
      liveProducers := s.liveProducers - 1
      producing := Function.update s.producing j false }

end Producer

/-! ## Delivery -/

section Delivery

variable (b consumers : Nat)

def isConsumerGone (k : Nat) : BProg T Bool :=
  .rmw (.lane (b, k))
    (fun s => if s.consumerGone (b, k) then
      { s with observed := Function.update s.observed b (s.observed b ++ [k]) } else s)
    fun s => s.consumerGone (b, k)

/-- The value in the broker's hands goes onto the ring of consumer `k`. -/
def Shared.place (k : Nat) (item : Item T) (s : Shared T) : Shared T :=
  { s with
    lane := Function.update s.lane (b, k) ((s.lane (b, k)).push item)
    holding := Function.update s.holding b none
    log := Function.update s.log b (s.log b ++ [⟨item, .placed k⟩]) }

/-- `Tx::try_push` of a consumer's ring. -/
def tryPush (k : Nat) (item : Item T) : BProg T Bool :=
  .rmw (.lane (b, k))
    (fun s => if full (s.consumerGone (b, k)) (s.lane (b, k)) then s else s.place b k item)
    fun s => !full (s.consumerGone (b, k)) (s.lane (b, k))

/-- The value in the broker's hands is dropped. -/
def discard (item : Item T) : BProg T Unit :=
  .store (.own b) fun s =>
    { s with
      holding := Function.update s.holding b none
      log := Function.update s.log b (s.log b ++ [⟨item, .discarded (s.observed b)⟩]) }

/-- A new pass: no consumer has been found gone in it. -/
def beginPass : BProg T Unit :=
  .store (.own b) fun s => { s with observed := Function.update s.observed b [] }

def forwardTo (k : Nat) (item : Item T) : BProg T Unit :=
  .loop () fun _ => do
    beginPass b
    let gone ← isConsumerGone b k
    if gone then
      discard b item
      return .inr ()
    else
      let ok ← tryPush full b k item
      return if ok then .inr () else .inl ()

/-- One pass of `forward_rr`: the cursor, how many consumers were gone, and whether one
took the value. -/
def rrPass (item : Item T) : Nat → Nat → Nat → BProg T (Nat × Nat × Bool)
  | 0, cursor, gone => .ret (cursor, gone, false)
  | left + 1, cursor, gone => do
    let (k, cursor) := RoundRobin.next cursor consumers
    let isGone ← isConsumerGone b k
    if isGone then
      rrPass item left cursor (gone + 1)
    else
      let ok ← tryPush full b k item
      if ok then return (cursor, gone, true) else rrPass item left cursor gone

/-- `forward_rr`: the cursor afterwards. -/
def forwardRr (cursor : Nat) (item : Item T) : BProg T Nat :=
  .loop cursor fun cursor => do
    beginPass b
    let (cursor, gone, ok) ← rrPass full b consumers item consumers cursor 0
    if ok then
      return .inr cursor
    else if gone = consumers then
      discard b item
      return .inr cursor
    else
      return .inl cursor

/-- The policies that deliver a value to one consumer. -/
inductive Policy : Type
  | roundRobin
  | route
deriving DecidableEq

/-- `Delivery::deliver`: the round-robin cursor afterwards. -/
def deliver (policy : Policy) (cursor : Nat) (item : Item T) : BProg T Nat :=
  match policy with
  | .roundRobin => forwardRr full b consumers cursor item
  | .route => do
    let answer ← .pick
    forwardTo full b (answer % consumers) item
    return cursor

end Delivery

/-! ## The broker loop -/

section Broker

variable (policy : Policy) (producers consumers brokers b : Nat)

/-- The producers whose rings broker `b` sweeps. -/
def ringsOf : List Nat := (List.range producers).filter fun j => j % brokers = b

/-- Move the front value of a producer's ring out. -/
def moveOut (j : Nat) : BProg T (Option (Item T)) :=
  .rmw (.producerRing j)
    (fun s => match (s.producerRing j).queue with
      | [] => s
      | item :: _ =>
        { s with
          producerRing := Function.update s.producerRing j (s.producerRing j).pop
          holding := Function.update s.holding b (some item) })
    fun s => (s.producerRing j).queue.head?

/-- Hand the room of the values moved out back to the producer. -/
def freeSlots (j : Nat) : BProg T Unit :=
  .store (.producerRing j) fun s =>
    { s with producerRing := Function.update s.producerRing j (s.producerRing j).free }

/-- `Rx::drain_in_place` with `deliver`: the cursor, and how many values were moved. -/
def drainInPlace (j per cursor : Nat) : BProg T (Nat × Nat) := do
  let answer ← .pick
  let count ← .load (.producerRing j) fun s => min ((s.producerRing j).ready answer) per
  if count = 0 then
    return (cursor, 0)
  else
    let cursor ← visit count cursor
    freeSlots j
    return (cursor, count)
where
  visit : Nat → Nat → BProg T Nat
    | 0, cursor => .ret cursor
    | left + 1, cursor => do
      let item ← moveOut b j
      match item with
      | none => return cursor
      | some item =>
        let cursor ← deliver full b consumers policy cursor item
        visit left cursor

/-- `sweep`: the cursor, and how many values were moved. -/
def sweep (per : Nat) : List Nat → Nat → Nat → BProg T (Nat × Nat)
  | [], cursor, moved => .ret (cursor, moved)
  | j :: rings, cursor, moved => do
    let (cursor, count) ← drainInPlace full policy consumers b j per cursor
    sweep per rings cursor (moved + count)

/-- `usize::MAX`. -/
def usizeMax : Nat := UInt64.size - 1

def dropRings : List Nat → BProg T Unit
  | [] => .ret ()
  | j :: rings => do
    .store (.producerRing j) fun s => { s with brokerGone := Function.update s.brokerGone j true }
    dropRings rings

def dropLanes : List Nat → BProg T Unit
  | [] => .ret ()
  | k :: lanes => do
    .store (.lane (b, k)) fun s => { s with finished := Function.update s.finished (b, k) true }
    dropLanes lanes

/-- `Drop for Broker`: its rings to the producers, then its rings to the consumers. -/
def dropBroker : BProg T Unit := do
  dropRings (ringsOf producers brokers b)
  dropLanes b (List.range consumers)

/-- `Broker::run`: the round-robin cursor at its end. -/
def run (batch cursor : Nat) : BProg T Nat := do
  let rings := ringsOf producers brokers b
  let cursor ← .loop cursor fun cursor => do
    let (cursor, moved) ← sweep full policy consumers b batch rings cursor 0
    if moved = 0 then
      let live ← .load .liveProducers fun s => s.liveProducers
      if live = 0 then
        let (cursor, moved) ← sweep full policy consumers b usizeMax rings cursor 0
        return if moved = 0 then .inr cursor else .inl cursor
      else
        return .inl cursor
    else
      return .inl cursor
  dropBroker producers consumers brokers b
  return cursor

end Broker

/-! ## Consumers -/

section Consumer

variable (brokers k : Nat)

def tryPop (b : Nat) : BProg T (Option (Item T)) :=
  .rmw (.lane (b, k))
    (fun s => match (s.lane (b, k)).queue with
      | [] => s
      | item :: _ =>
        { s with
          lane := Function.update s.lane (b, k) (s.lane (b, k)).pop.free
          got := Function.update s.got k (s.got k ++ [item]) })
    fun s => (s.lane (b, k)).queue.head?

/-- `try_recv`: the cursor, and the value received. -/
def tryRecv (cursor : Nat) : BProg T (Nat × Option (Item T)) := go brokers cursor
where
  go : Nat → Nat → BProg T (Nat × Option (Item T))
    | 0, cursor => .ret (cursor, none)
    | left + 1, cursor => do
      let (b, cursor) := RoundRobin.next cursor brokers
      let item ← tryPop k b
      match item with
      | some item => return (cursor, some item)
      | none => go left cursor

/-- `Rx::is_finished`. -/
def isFinished (b : Nat) : BProg T Bool := do
  let gone ← .load (.lane (b, k)) fun s => s.finished (b, k)
  if gone then
    .load (.lane (b, k)) fun s => decide ((s.lane (b, k)).queue.length = 0)
  else
    return false

/-- `is_disconnected`, over the rings that are left to ask. -/
def isDisconnected : List Nat → BProg T Bool
  | [] => .ret true
  | b :: rest => do
    let closed ← isFinished k b
    if closed then isDisconnected rest else return false

/-- `recv`: the cursor, and the value received. -/
def recv (cursor : Nat) : BProg T (Nat × Option (Item T)) :=
  .loop cursor fun cursor => do
    let (cursor, item) ← tryRecv brokers k cursor
    match item with
    | some item => return .inr (cursor, some item)
    | none =>
      let closed ← isDisconnected k (List.range brokers)
      return if closed then .inr (cursor, none) else .inl cursor

/-- `Drop for Consumer`: each ring is marked, and what is unread in it is dropped. -/
def dropConsumer : List Nat → BProg T Unit
  | [] => .ret ()
  | b :: rest => do
    .store (.lane (b, k)) fun s =>
      { s with consumerGone := Function.update s.consumerGone (b, k) true }
    .store (.lane (b, k)) fun s =>
      { s with
        lane := Function.update s.lane (b, k) .empty
        lost := Function.update s.lost (b, k) (s.lost (b, k) ++ (s.lane (b, k)).queue) }
    dropConsumer rest

end Consumer

end Programs

/-! ## The system -/

inductive Actor : Type
  | producer (j : Nat)
  | broker (b : Nat)
  | consumer (k : Nat)
deriving DecidableEq

structure Broker where
  cursor : Nat
  batch : Nat
  ran : Bool

/-- The result of a consumer's latest call. `ended` is the `None` of `recv`. -/
inductive Recvd (T : Type) : Type
  | fresh
  | val (item : Item T)
  | nothing
  | flag (b : Bool)
  | ended

structure Consumer (T : Type) where
  cursor : Nat
  dropped : Bool
  last : Recvd T

abbrev Local (T : Type) : Actor → Type
  | .producer _ => Option Bool
  | .broker _ => Broker
  | .consumer _ => Consumer T

inductive SendOp (T : Type) : Type
  | trySend (v : T)
  | send (v : T)
  | drop

inductive BrokerOp : Type
  | setBatch (batch : Nat)
  | run

inductive RecvOp : Type
  | tryRecv
  | recv
  | isDisconnected
  | drop

section System

variable (full : Bool → Fifo (Item T) → Bool) (policy : Policy) (producers consumers brokers : Nat)

def sendBody (j : Nat) : SendOp T → BProg T (Option Bool)
  | .trySend v => do
    let ok ← trySend full j v
    return some ok
  | .send v => do
    let ok ← send full j v
    return some ok
  | .drop => do
    dropProducer j
    return none

def brokerBody (b : Nat) (l : Broker) : BrokerOp → BProg T Broker
  | .setBatch batch => .ret { l with batch := max batch 1 }
  | .run => do
    let cursor ← run full policy producers consumers brokers b l.batch l.cursor
    return { l with cursor, ran := true }

def recvBody (k : Nat) (l : Consumer T) : RecvOp → BProg T (Consumer T)
  | .tryRecv => do
    let (cursor, item) ← tryRecv brokers k l.cursor
    return { l with cursor, last := item.elim .nothing .val }
  | .recv => do
    let (cursor, item) ← recv brokers k l.cursor
    return { l with cursor, last := item.elim .ended .val }
  | .isDisconnected => do
    let closed ← isDisconnected k (List.range brokers)
    return { l with last := .flag closed }
  | .drop => do
    dropConsumer k (List.range brokers)
    return { l with dropped := true, last := .fresh }

/-- The endpoints, each making any calls in any order until it is dropped or, a broker,
has run. -/
def sys : Sys Actor Access (Shared T) (Local T) where
  Op
    | .producer _ => SendOp T
    | .broker _ => BrokerOp
    | .consumer _ => RecvOp
  can
    | .producer j, _, _, s => s.producing j
    | .broker b, _, l, _ => decide (b < brokers) && !l.ran
    | .consumer k, _, l, _ => decide (k < consumers) && !l.dropped
  body
    | .producer j, o, _ => sendBody full j o
    | .broker b, o, l => brokerBody full policy producers consumers brokers b l o
    | .consumer k, o, l => recvBody brokers k l o

end System

def init (T : Type) (producers : Nat) : Config Actor Access (Shared T) (Local T) where
  shared := .open T producers
  thr
    | .producer _ => .idle none
    | .broker _ => .idle { cursor := 0, batch := 64, ran := false }
    | .consumer _ => .idle { cursor := 0, dropped := false, last := .fresh }

/-- `open`: at least one producer and one consumer, and no more brokers than producers.
With no broker the split of the producer rings would divide by zero. -/
def openBrokers (producers brokers : Nat) : Nat := min brokers producers

end Prescient.Brokered
