import Prescient.Actor
import Prescient.Fifo
import Prescient.RoundRobin

/-!
# The lane grid

Fixed-membership MPMC without claims (`mpmc/lanes.rs`): one SPSC lane for each producer
and consumer. A consumer drains the lanes it has; when it is dropped, its lanes go to the
`abandoned` list, and the next consumer that finds its own lanes empty adopts them all.

The lanes and the staging buffer of a consumer stand in the shared state under its
number, and only its own accesses touch them; cursors and batch sizes are local. What is
done under the lock of `abandoned` is one access. The fields from `accepted` on are
history that no program reads; `began` says of a consumer's latest blocking call whether
all producers and all other consumers had been dropped when it began.
-/

namespace Prescient.Lanes

/-- The lane of a producer and the consumer it was made for. -/
abbrev Lane := Nat × Nat

/-- One value moved out of a lane: by whom, and from where. -/
structure Taken (T : Type) where
  consumer : Nat
  lane : Lane
  value : T

structure Shared (T : Type) where
  rx : Lane → Fifo T
  liveProducers : Nat
  liveConsumers : Nat
  abandoned : List Lane
  /-- Producer `j` has not been dropped. -/
  producing : Nat → Bool
  lanes : Nat → List Lane
  staging : Nat → List T
  dropped : Nat → Bool
  accepted : Lane → List T
  taken : List (Taken T)
  handed : Nat → List T
  discarded : Nat → List T
  began : Nat → Bool

inductive Access : Type
  | own (k : Nat)
  | rx (lane : Lane)
  | tx (lane : Lane)
  | abandoned
  | liveProducers
  | liveConsumers
deriving DecidableEq

variable {T : Type}

/-- The lanes made for consumer `k`, in the order of the producers. -/
def column (producers k : Nat) : List Lane := (List.range producers).map fun j => (j, k)

/-- All lanes. -/
def grid (producers consumers : Nat) : List Lane :=
  (List.range consumers).flatMap (column producers)

def Shared.open (T : Type) (producers consumers : Nat) : Shared T where
  rx _ := .empty
  liveProducers := producers
  liveConsumers := consumers
  abandoned := []
  producing j := decide (j < producers)
  lanes k := if k < consumers then column producers k else []
  staging _ := []
  dropped _ := false
  accepted _ := []
  taken := []
  handed _ := []
  discarded _ := []
  began _ := false

abbrev LProg (T : Type) := Prog Access (Shared T)

/-! ## Producers -/

section Producer

variable (full : Fifo T → Bool) (consumers j : Nat)

def Shared.push (s : Shared T) (lane : Lane) (v : T) : Shared T :=
  { s with
    rx := Function.update s.rx lane ((s.rx lane).push v)
    accepted := Function.update s.accepted lane (s.accepted lane ++ [v]) }

/-- `Tx::try_push`: whether the lane took the value. -/
def tryPush (lane : Lane) (v : T) : LProg T Bool :=
  .rmw (.tx lane) (fun s => if full (s.rx lane) then s else s.push lane v)
    fun s => !full (s.rx lane)

/-- `Tx::push_from`: the values that stay with the caller. -/
def pushFrom (lane : Lane) : List T → LProg T (List T)
  | [] => .ret []
  | v :: vs => do
    let ok ← tryPush full lane v
    if ok then pushFrom lane vs else return v :: vs

/-- `try_send`: the cursor, and whether a lane took the value. -/
def trySend (v : T) (cursor : Nat) : LProg T (Nat × Bool) := go consumers cursor
where
  go : Nat → Nat → LProg T (Nat × Bool)
    | 0, cursor => .ret (cursor, false)
    | left + 1, cursor => do
      let (lane, cursor) := RoundRobin.next cursor consumers
      let ok ← tryPush full (j, lane) v
      if ok then return (cursor, true) else go left cursor

def send (v : T) (cursor : Nat) : LProg T (Nat × Bool) :=
  .loop cursor fun cursor => do
    let (cursor, ok) ← trySend full consumers j v cursor
    if ok then
      return .inr (cursor, true)
    else
      let live ← .load .liveConsumers fun s => s.liveConsumers
      return if live = 0 then .inr (cursor, false) else .inl cursor

/-- One round of `send_batch`: lanes are offered the batch until one takes a part of it. -/
def offerBatch : Nat → Nat → List T → LProg T (Nat × List T)
  | 0, cursor, source => .ret (cursor, source)
  | left + 1, cursor, source => do
    let (lane, cursor) := RoundRobin.next cursor consumers
    let unsent ← pushFrom full (j, lane) source
    if unsent.length ≠ source.length then
      return (cursor, unsent)
    else
      offerBatch left cursor unsent

def sendBatch (source : List T) (cursor : Nat) : LProg T (Nat × Bool) :=
  .loop (cursor, source) fun (cursor, source) =>
    if source = [] then
      .ret (.inr (cursor, true))
    else do
      let (cursor, unsent) ← offerBatch full consumers j consumers cursor source
      if unsent.length ≠ source.length then
        return .inl (cursor, unsent)
      else
        let live ← .load .liveConsumers fun s => s.liveConsumers
        return if live = 0 then .inr (cursor, false) else .inl (cursor, unsent)

/-- `Drop for Producer`. -/
def dropProducer : LProg T Unit :=
  .store .liveProducers fun s =>
    { s with
      liveProducers := s.liveProducers - 1
      producing := Function.update s.producing j false }

end Producer

/-! ## Consumers -/

/-- What a receiving call came to. -/
inductive Got (α : Type) : Type
  | val (a : α)
  | nothing
  | unwound

section Consumer

variable (k : Nat)

/-- The receiver's look at how many of at most `max` values are ready. -/
def look (lane : Lane) (max : Nat) : LProg T Nat := do
  let answer ← .pick
  .load (.rx lane) fun s => min ((s.rx lane).ready answer) max

def moveToStaging (lane : Lane) : LProg T Unit :=
  .store (.rx lane) fun s =>
    match (s.rx lane).queue with
    | [] => s
    | v :: _ =>
      { s with
        rx := Function.update s.rx lane (s.rx lane).pop
        staging := Function.update s.staging k (s.staging k ++ [v])
        taken := s.taken ++ [⟨k, lane, v⟩] }

def moveToCallback (lane : Lane) : LProg T Unit :=
  .store (.rx lane) fun s =>
    match (s.rx lane).queue with
    | [] => s
    | v :: _ =>
      { s with
        rx := Function.update s.rx lane (s.rx lane).pop
        handed := Function.update s.handed k (s.handed k ++ [v])
        taken := s.taken ++ [⟨k, lane, v⟩] }

/-- Hand the room of the values moved out back to the producer. -/
def freeSlots (lane : Lane) : LProg T Unit :=
  .store (.rx lane) fun s => { s with rx := Function.update s.rx lane (s.rx lane).free }

def moveMany (lane : Lane) : Nat → LProg T Unit
  | 0 => .ret ()
  | m + 1 => do
    moveToStaging k lane
    moveMany lane m

/-- `Rx::drain_into` the staging buffer: whether it unwound. Reserving the room may
panic, before any value is moved. -/
def drainInto (lane : Lane) (max : Nat) : LProg T Bool := do
  let count ← look lane max
  if count = 0 then
    return false
  else
    let reserved ← .pick
    if reserved = 0 then
      return true
    else
      moveMany k lane count
      freeSlots lane
      return false

/-- Whether a callback panics is an answer of the environment; `panics` says which
answers do. -/
def callback (panics : Nat → Bool) : LProg T Bool := .choose fun answer => .ret (panics answer)

/-- `Rx::drain_in_place`: how many values the callback got, and whether it panicked. -/
def drainInPlace (panics : Nat → Bool) (lane : Lane) (max : Nat) : LProg T (Nat × Bool) := do
  let count ← look lane max
  if count = 0 then return (0, false) else visit count 0
where
  visit : Nat → Nat → LProg T (Nat × Bool)
    | 0, got => do
      freeSlots lane
      return (got, false)
    | left + 1, got => do
      moveToCallback k lane
      let panicked ← callback panics
      if panicked then
        freeSlots lane
        return (got + 1, true)
      else
        visit left (got + 1)

/-- How a scan of the lanes ended. -/
inductive Scanned : Type
  | found
  | nothing
  | unwound

/-- `scan_into_staging`: the cursor, and what came of it. An index out of bounds would
panic. -/
def scanIntoStaging (batch cursor : Nat) : LProg T (Nat × Scanned) := do
  let lanes ← .load (.own k) fun s => (s.lanes k).length
  go lanes lanes cursor
where
  go (lanes : Nat) : Nat → Nat → LProg T (Nat × Scanned)
    | 0, cursor => .ret (cursor, .nothing)
    | left + 1, cursor => do
      let (i, cursor) := RoundRobin.next cursor lanes
      let lane ← .load (.own k) fun s => (s.lanes k)[i]?
      match lane with
      | none => return (cursor, .unwound)
      | some lane =>
        let unwound ← drainInto k lane batch
        if unwound then
          return (cursor, .unwound)
        else
          let got ← .load (.own k) fun s => decide (s.staging k ≠ [])
          if got then return (cursor, .found) else go lanes left cursor

/-- `adopt_abandoned`: whether there were any. -/
def adoptAbandoned : LProg T Bool :=
  .rmw .abandoned
    (fun s => if s.abandoned = [] then s else
      { s with
        lanes := Function.update s.lanes k (s.lanes k ++ s.abandoned)
        abandoned := [] })
    fun s => decide (s.abandoned ≠ [])

def refill (batch cursor : Nat) : LProg T (Nat × Scanned) := do
  .store (.own k) fun s => { s with staging := Function.update s.staging k [] }
  let (cursor, scanned) ← scanIntoStaging k batch cursor
  match scanned with
  | .nothing =>
    let adopted ← adoptAbandoned k
    if adopted then scanIntoStaging k batch cursor else return (cursor, .nothing)
  | scanned => return (cursor, scanned)

/-- `staging.pop_front()`, given to the caller. -/
def popStaged : LProg T (Option T) :=
  .rmw (.own k)
    (fun s => match s.staging k with
      | [] => s
      | v :: vs =>
        { s with
          staging := Function.update s.staging k vs
          handed := Function.update s.handed k (s.handed k ++ [v]) })
    fun s => (s.staging k).head?

/-- The whole staging buffer, given to the caller. -/
def takeStaged : LProg T (List T) :=
  .rmw (.own k)
    (fun s =>
      { s with
        staging := Function.update s.staging k []
        handed := Function.update s.handed k (s.handed k ++ s.staging k) })
    fun s => s.staging k

def tryRecv (batch cursor : Nat) : LProg T (Nat × Got T) := do
  let staged ← popStaged k
  match staged with
  | some v => return (cursor, .val v)
  | none =>
    let (cursor, scanned) ← refill k batch cursor
    match scanned with
    | .unwound => return (cursor, .unwound)
    | _ =>
      let v ← popStaged k
      return (cursor, v.elim .nothing .val)

/-- `try_recv_batch`: what the caller's buffer holds afterwards. -/
def tryRecvBatch (batch cursor : Nat) : LProg T (Nat × Got (List T)) := do
  let empty ← .load (.own k) fun s => decide (s.staging k = [])
  if empty then
    let (cursor, scanned) ← refill k batch cursor
    match scanned with
    | .unwound => return (cursor, .unwound)
    | _ =>
      let out ← takeStaged k
      return (cursor, if out = [] then .nothing else .val out)
  else
    let out ← takeStaged k
    return (cursor, .val out)

/-- `scan_in_place`: the cursor, how many values the callback got, and whether it
panicked. -/
def scanInPlace (panics : Nat → Bool) (max cursor : Nat) : LProg T (Nat × Nat × Bool) := do
  let lanes ← .load (.own k) fun s => (s.lanes k).length
  go lanes lanes cursor
where
  go (lanes : Nat) : Nat → Nat → LProg T (Nat × Nat × Bool)
    | 0, cursor => .ret (cursor, 0, false)
    | left + 1, cursor => do
      let (i, cursor) := RoundRobin.next cursor lanes
      let lane ← .load (.own k) fun s => (s.lanes k)[i]?
      match lane with
      | none => return (cursor, 0, true)
      | some lane =>
        let (got, panicked) ← drainInPlace k panics lane max
        if panicked then
          return (cursor, got, true)
        else if got ≠ 0 then
          return (cursor, got, false)
        else
          go lanes left cursor

/-- `drain`: the cursor, how many values the callback got, and whether it panicked. -/
def drain (panics : Nat → Bool) (max cursor : Nat) : LProg T (Nat × Nat × Bool) := do
  let (done, panicked) ← flush max 0
  if panicked ∨ done = max then
    return (cursor, done, panicked)
  else
    let (cursor, got, panicked) ← scanInPlace k panics (max - done) cursor
    if panicked ∨ got ≠ 0 then
      return (cursor, done + got, panicked)
    else
      let adopted ← adoptAbandoned k
      if adopted then
        let (cursor, got, panicked) ← scanInPlace k panics (max - done) cursor
        return (cursor, done + got, panicked)
      else
        return (cursor, done, false)
where
  flush : Nat → Nat → LProg T (Nat × Bool)
    | 0, done => .ret (done, false)
    | left + 1, done => do
      let staged ← popStaged k
      match staged with
      | none => return (done, false)
      | some _ =>
        let panicked ← callback panics
        if panicked then return (done + 1, true) else flush left (done + 1)

def drainOnce (panics : Nat → Bool) (max cursor : Nat) : LProg T (Nat × Got Nat) := do
  let (cursor, done, panicked) ← drain k panics max cursor
  return (cursor, if panicked then .unwound else if done ≠ 0 then .val done else .nothing)

def isDisconnected : LProg T Bool :=
  .load .liveProducers fun s => decide (s.liveProducers = 0)

/-- The result of a consumer's latest call. `ended` is the end of the stream: the `None`
of `recv`, the zero of `recv_batch`, the return of `for_each`. -/
inductive Recvd (T : Type) : Type
  | fresh
  | val (v : T)
  | batch (vs : List T)
  | count (n : Nat)
  | flag (b : Bool)
  | nothing
  | unwound
  | ended

section Blocking

variable (producers consumers : Nat)

/-- Every producer and every consumer but `k` has been dropped. -/
def Shared.alone (s : Shared T) : Bool :=
  ((List.range producers).all fun j => !s.producing j) &&
    (List.range consumers).all fun k' => k' == k || s.dropped k'

/-- The beginning of a blocking call. -/
def beginCall : LProg T Unit :=
  .store (.own k) fun s =>
    { s with began := Function.update s.began k (s.alone k producers consumers) }

/-- The blocking loop around a non-blocking call `receive`. `leave` says with which
result a received value ends the loop, if it does. -/
def untilClosed {α : Type} (receive : Nat → LProg T (Nat × Got α)) (leave : α → Option (Recvd T))
    (cursor : Nat) : LProg T (Nat × Recvd T) := do
  beginCall k producers consumers
  .loop cursor fun cursor => do
    let (cursor, first) ← receive cursor
    match first with
    | .val a => return (leave a).elim (.inl cursor) fun r => .inr (cursor, r)
    | .unwound => return .inr (cursor, .unwound)
    | .nothing =>
      let closed ← isDisconnected
      if closed then
        let (cursor, last) ← receive cursor
        match last with
        | .val a => return (leave a).elim (.inl cursor) fun r => .inr (cursor, r)
        | .unwound => return .inr (cursor, .unwound)
        | .nothing => return .inr (cursor, .ended)
      else
        return .inl cursor

def recv (batch cursor : Nat) : LProg T (Nat × Recvd T) :=
  untilClosed k producers consumers (tryRecv k batch) (fun v => some (.val v)) cursor

def recvBatch (batch cursor : Nat) : LProg T (Nat × Recvd T) :=
  untilClosed k producers consumers (tryRecvBatch k batch) (fun vs => some (.batch vs)) cursor

def forEach (panics : Nat → Bool) (batch cursor : Nat) : LProg T (Nat × Recvd T) :=
  untilClosed k producers consumers (drainOnce k panics (max batch 1)) (fun _ => none) cursor

end Blocking

/-- `Drop for Consumer`: its lanes go to the list, and values still staged go with it. -/
def dropConsumer : LProg T Unit := do
  .store .abandoned fun s =>
    { s with
      abandoned := s.abandoned ++ s.lanes k
      lanes := Function.update s.lanes k [] }
  .store .liveConsumers fun s =>
    { s with
      liveConsumers := s.liveConsumers - 1
      dropped := Function.update s.dropped k true
      staging := Function.update s.staging k []
      discarded := Function.update s.discarded k (s.staging k) }

end Consumer

/-! ## The system -/

inductive Actor : Type
  | producer (j : Nat)
  | consumer (k : Nat)
deriving DecidableEq

/-- A consumer's own fields, and the result of its latest call. -/
structure Consumer (T : Type) where
  cursor : Nat
  batch : Nat
  last : Recvd T

/-- A producer's cursor, and the result of its latest call. -/
structure Producer where
  cursor : Nat
  last : Option Bool

abbrev Local (T : Type) : Actor → Type
  | .producer _ => Producer
  | .consumer _ => Consumer T

inductive SendOp (T : Type) : Type
  | trySend (v : T)
  | send (v : T)
  | sendBatch (source : List T)
  | drop

inductive RecvOp : Type
  | tryRecv
  | tryRecvBatch
  | recv
  | recvBatch
  | drain (panics : Nat → Bool) (max : Nat)
  | forEach (panics : Nat → Bool) (batch : Nat)
  | isDisconnected
  | setBatch (batch : Nat)
  | drop

/-- The calls that wait for the end of the stream. -/
def RecvOp.blocking : RecvOp → Bool
  | .recv | .recvBatch | .forEach _ _ => true
  | _ => false

def sendBody (full : Fifo T → Bool) (consumers j : Nat) (p : Producer) :
    SendOp T → LProg T Producer
  | .trySend v => do
    let (cursor, ok) ← trySend full consumers j v p.cursor
    return ⟨cursor, some ok⟩
  | .send v => do
    let (cursor, ok) ← send full consumers j v p.cursor
    return ⟨cursor, some ok⟩
  | .sendBatch source => do
    let (cursor, ok) ← sendBatch full consumers j source p.cursor
    return ⟨cursor, some ok⟩
  | .drop => do
    dropProducer j
    return { p with last := none }

def Got.recvd {α : Type} (f : α → Recvd T) : Got α → Recvd T
  | .val a => f a
  | .nothing => .nothing
  | .unwound => .unwound

def recvBody (producers consumers k : Nat) (c : Consumer T) : RecvOp → LProg T (Consumer T)
  | .tryRecv => do
    let (cursor, got) ← tryRecv k c.batch c.cursor
    return { c with cursor, last := got.recvd .val }
  | .tryRecvBatch => do
    let (cursor, got) ← tryRecvBatch k c.batch c.cursor
    return { c with cursor, last := got.recvd .batch }
  | .recv => do
    let (cursor, last) ← recv k producers consumers c.batch c.cursor
    return { c with cursor, last }
  | .recvBatch => do
    let (cursor, last) ← recvBatch k producers consumers c.batch c.cursor
    return { c with cursor, last }
  | .drain panics max => do
    let (cursor, done, panicked) ← drain k panics max c.cursor
    return { c with cursor, last := if panicked then .unwound else .count done }
  | .forEach panics batch => do
    let (cursor, last) ← forEach k producers consumers panics batch c.cursor
    return { c with cursor, last }
  | .isDisconnected => do
    let closed ← isDisconnected
    return { c with last := .flag closed }
  | .setBatch batch => .ret { c with batch := max batch 1 }
  | .drop => do
    dropConsumer k
    return { c with last := .fresh }

/-- `producers` producers and `consumers` consumers, each making any calls in any order
until it is dropped, over lanes that refuse a value when `full`. -/
def sys (full : Fifo T → Bool) (producers consumers : Nat) :
    Sys Actor Access (Shared T) (Local T) where
  Op
    | .producer _ => SendOp T
    | .consumer _ => RecvOp
  can
    | .producer j, _, _, s => s.producing j
    | .consumer k, _, _, s => decide (k < consumers) && !s.dropped k
  body
    | .producer j, o, p => sendBody full consumers j p o
    | .consumer k, o, c => recvBody producers consumers k c o

def init (T : Type) (producers consumers : Nat) : Config Actor Access (Shared T) (Local T) where
  shared := .open T producers consumers
  thr
    | .producer j => .idle { cursor := j % consumers, last := none }
    | .consumer k => .idle { cursor := k % producers, batch := 64, last := .fresh }

end Prescient.Lanes
