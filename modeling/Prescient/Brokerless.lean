import Prescient.Actor
import Prescient.Fifo
import Prescient.RoundRobin

/-!
# The claim engine

Fixed-membership brokerless MPMC (`mpmc/brokerless/mod.rs`): one transport per
producer, and any number of competing consumers. A consumer wins the `claimed`
flag of a slot by a compare-exchange, drains the slot's receiver, and gives the
flag back; a slot it cannot claim it passes over.

The endpoints' own fields (`cursor`, `staging`, `batch`) stand in the shared
state under the endpoint's number, and only that endpoint's accesses touch them.
The fields from `accepted` on are history that no program reads. Among them
`phase` follows what a consumer has seen since it last found no live producer.
-/

namespace Prescient.Brokerless

/-- Where a consumer stands: between passes or in an ordinary one, in a pass made
after it saw no live producer (with the slots it has passed over), or at the end
of the stream. -/
inductive Phase : Type
  | working
  | closing (visited : List Nat)
  | finished

/-- One value moved out of a receiver: by whom, and whose value it was. -/
structure Taken (T : Type) where
  consumer : Nat
  producer : Nat
  value : T

structure Shared (T : Type) where
  claimed : Nat → Bool
  rx : Nat → Fifo T
  liveProducers : Nat
  liveConsumers : Nat
  /-- Producer `j` has not been dropped. -/
  producing : Nat → Bool
  /-- The consumers made so far are those below `born`. -/
  born : Nat
  dropped : Nat → Bool
  cursor : Nat → Cursor
  staging : Nat → List T
  batch : Nat → Nat
  accepted : Nat → List T
  taken : List (Taken T)
  handed : Nat → List T
  discarded : Nat → List T
  holder : Nat → Option Nat
  phase : Nat → Phase

/-- The accesses. `rx i` is an access to the receiver of slot `i`, which only
the holder of its claim may make. -/
inductive Access : Type
  | own (k : Nat)
  | hint (i : Nat)
  | claim (i : Nat)
  | release (i : Nat)
  | rx (i : Nat)
  | tx (j : Nat)
  | liveProducers
  | liveConsumers
deriving DecidableEq

variable {T : Type}

/-- `open`: `n` producers and one consumer. -/
def Shared.open (T : Type) (n : Nat) : Shared T where
  claimed _ := false
  rx _ := .empty
  liveProducers := n
  liveConsumers := 1
  producing j := decide (j < n)
  born := 1
  dropped _ := false
  cursor _ := .new 0
  staging _ := []
  batch _ := 64
  accepted _ := []
  taken := []
  handed _ := []
  discarded _ := []
  holder _ := none
  phase _ := .working

abbrev BProg (T : Type) := Prog Access (Shared T)

/-! ## Producers -/

section Producer

variable (full : Fifo T → Bool) (j : Nat)

/-- The transport of producer `j` takes a value. -/
def Shared.push (s : Shared T) (j : Nat) (v : T) : Shared T :=
  { s with
    rx := Function.update s.rx j ((s.rx j).push v)
    accepted := Function.update s.accepted j (s.accepted j ++ [v]) }

/-- `Tx::try_push`: whether the transport took the value. -/
def tryPush (v : T) : BProg T Bool :=
  .rmw (.tx j) (fun s => if full (s.rx j) then s else s.push j v) fun s => !full (s.rx j)

/-- `Tx::push_from`: the values that stay with the caller. -/
def pushFrom : List T → BProg T (List T)
  | [] => .ret []
  | v :: vs => do
    let ok ← tryPush full j v
    if ok then pushFrom vs else return v :: vs

def trySend (v : T) : BProg T Bool := tryPush full j v

/-- `send`: whether the value was enqueued. -/
def send (v : T) : BProg T Bool :=
  .loop () fun _ => do
    let ok ← tryPush full j v
    if ok then
      return .inr true
    else
      let consumers ← .load .liveConsumers fun s => s.liveConsumers
      return if consumers = 0 then .inr false else .inl ()

def sendBatch (source : List T) : BProg T Bool :=
  .loop source fun source =>
    if source = [] then
      .ret (.inr true)
    else do
      let unsent ← pushFrom full j source
      if unsent.length < source.length then
        return .inl unsent
      else
        let consumers ← .load .liveConsumers fun s => s.liveConsumers
        return if consumers = 0 then .inr false else .inl unsent

/-- `Drop for Producer`. -/
def dropProducer : BProg T Unit :=
  .store .liveProducers fun s =>
    { s with
      liveProducers := s.liveProducers - 1
      producing := Function.update s.producing j false }

end Producer

/-! ## Consumers -/

section Consumer

variable (n k : Nat)

/-- A consumer in a closing pass has passed over slot `i`. -/
def Shared.passOver (s : Shared T) (k i : Nat) : Shared T :=
  match s.phase k with
  | .closing visited => { s with phase := Function.update s.phase k (.closing (i :: visited)) }
  | _ => s

def setPhase (ph : Phase) : BProg T Unit :=
  .store (.own k) fun s => { s with phase := Function.update s.phase k ph }

def selectSlot : BProg T Nat :=
  .rmw (.own k)
    (fun s => { s with cursor := Function.update s.cursor k ((s.cursor k).select n).2 })
    fun s => ((s.cursor k).select n).1

def prefer : BProg T Unit :=
  .store (.own k) fun s => { s with cursor := Function.update s.cursor k (s.cursor k).prefer }

/-- `ReleaseClaim::try_acquire`: the hint only delays the compare-exchange. -/
def tryAcquire (i : Nat) : BProg T Bool := do
  let _busy ← .load (.hint i) fun s => s.claimed i
  .rmw (.claim i)
    (fun s => if s.claimed i then s.passOver k i else
      { s with
        claimed := Function.update s.claimed i true
        holder := Function.update s.holder i (some k) })
    fun s => !s.claimed i

/-- `Drop for ReleaseClaim`. -/
def releaseClaim (i : Nat) : BProg T Unit :=
  .store (.release i) fun s =>
    { s with
      claimed := Function.update s.claimed i false
      holder := Function.update s.holder i none }

/-- The receiver's look at how many of at most `max` values are ready. -/
def look (i max : Nat) : BProg T Nat := do
  let answer ← .pick
  .rmw (.rx i)
    (fun s => if (s.rx i).queue = [] then s.passOver k i else
      { s with phase := Function.update s.phase k .working })
    fun s => min ((s.rx i).ready answer) max

/-- Move the front value of slot `i` into the staging buffer. -/
def moveToStaging (i : Nat) : BProg T Unit :=
  .store (.rx i) fun s =>
    match (s.rx i).queue with
    | [] => s
    | v :: _ =>
      { s with
        rx := Function.update s.rx i (s.rx i).pop
        staging := Function.update s.staging k (s.staging k ++ [v])
        taken := s.taken ++ [⟨k, i, v⟩] }

/-- Move the front value of slot `i` into the callback. -/
def moveToCallback (i : Nat) : BProg T Unit :=
  .store (.rx i) fun s =>
    match (s.rx i).queue with
    | [] => s
    | v :: _ =>
      { s with
        rx := Function.update s.rx i (s.rx i).pop
        handed := Function.update s.handed k (s.handed k ++ [v])
        taken := s.taken ++ [⟨k, i, v⟩] }

/-- Hand the room of the values moved out back to the producer. -/
def freeSlots (i : Nat) : BProg T Unit :=
  .store (.rx i) fun s => { s with rx := Function.update s.rx i (s.rx i).free }

def moveMany (i : Nat) : Nat → BProg T Unit
  | 0 => .ret ()
  | m + 1 => do
    moveToStaging k i
    moveMany i m

/-- `Rx::drain_into` the staging buffer: whether it unwound. Reserving the room
may panic, before any value is moved. -/
def drainInto (i max : Nat) : BProg T Bool := do
  let count ← look k i max
  if count = 0 then
    return false
  else
    let reserved ← .pick
    if reserved = 0 then
      return true
    else
      moveMany k i count
      freeSlots i
      return false

/-- Whether a callback panics is an answer of the environment; `panics` says which
answers do. -/
def callback (panics : Nat → Bool) : BProg T Bool := .choose fun answer => .ret (panics answer)

/-- `Rx::drain_in_place`: how many values the callback got, and whether it
panicked. The room is handed back on both ways out. -/
def drainInPlace (panics : Nat → Bool) (i max : Nat) : BProg T (Nat × Bool) := do
  let count ← look k i max
  if count = 0 then return (0, false) else visit count 0
where
  visit : Nat → Nat → BProg T (Nat × Bool)
    | 0, got => do
      freeSlots i
      return (got, false)
    | left + 1, got => do
      moveToCallback k i
      let panicked ← callback panics
      if panicked then
        freeSlots i
        return (got + 1, true)
      else
        visit left (got + 1)

/-- `refill`: whether it unwound. -/
def refill : BProg T Bool := do
  .store (.own k) fun s => { s with staging := Function.update s.staging k [] }
  scan n
where
  scan : Nat → BProg T Bool
    | 0 => .ret false
    | left + 1 => do
      let i ← selectSlot n k
      let won ← tryAcquire k i
      if won then
        let batch ← .load (.own k) fun s => s.batch k
        let unwound ← drainInto k i batch
        releaseClaim i
        if unwound then
          return true
        else
          let got ← .load (.own k) fun s => decide (s.staging k ≠ [])
          if got then
            prefer k
            return false
          else
            scan left
      else
        scan left

/-- What a receiving call came to. -/
inductive Got (α : Type) : Type
  | val (a : α)
  | nothing
  | unwound

/-- `staging.pop_front()`, given to the caller. -/
def popStaged : BProg T (Option T) :=
  .rmw (.own k)
    (fun s => match s.staging k with
      | [] => s
      | v :: vs =>
        { s with
          staging := Function.update s.staging k vs
          handed := Function.update s.handed k (s.handed k ++ [v]) })
    fun s => (s.staging k).head?

/-- The whole staging buffer, given to the caller. -/
def takeStaged : BProg T (List T) :=
  .rmw (.own k)
    (fun s =>
      { s with
        staging := Function.update s.staging k []
        handed := Function.update s.handed k (s.handed k ++ s.staging k) })
    fun s => s.staging k

def tryRecv : BProg T (Got T) := do
  let staged ← popStaged k
  match staged with
  | some v => return .val v
  | none =>
    let unwound ← refill n k
    if unwound then
      return .unwound
    else
      let v ← popStaged k
      return v.elim .nothing .val

/-- `try_recv_batch`: what the caller's buffer holds afterwards. -/
def tryRecvBatch : BProg T (Got (List T)) := do
  let empty ← .load (.own k) fun s => decide (s.staging k = [])
  if empty then
    let unwound ← refill n k
    if unwound then
      return .unwound
    else
      let out ← takeStaged k
      return if out = [] then .nothing else .val out
  else
    let out ← takeStaged k
    return .val out

/-- `live_producers.load() == 0`; a consumer that sees it begins to close. -/
def isDisconnected : BProg T Bool :=
  .rmw .liveProducers
    (fun s => if s.liveProducers = 0 then
      { s with phase := Function.update s.phase k (.closing []) } else s)
    fun s => decide (s.liveProducers = 0)

/-- The result of a consumer's latest call. `ended` is the end of the stream: the
`None` of `recv`, the zero of `recv_batch`, the return of `for_each`. -/
inductive Recvd (T : Type) : Type
  | fresh
  | val (v : T)
  | batch (vs : List T)
  | count (n : Nat)
  | flag (b : Bool)
  | nothing
  | unwound
  | ended

/-- The blocking loop around a non-blocking call `receive`. `leave` says with
which result a received value ends the loop, if it does. -/
def untilClosed {α : Type} (receive : BProg T (Got α)) (leave : α → Option (Recvd T)) :
    BProg T (Recvd T) :=
  .loop () fun _ => do
    setPhase k .working
    let first ← receive
    match first with
    | .val a => return (leave a).elim (.inl ()) .inr
    | .unwound => return .inr .unwound
    | .nothing =>
      let closed ← isDisconnected k
      if closed then
        let last ← receive
        match last with
        | .val a => return (leave a).elim (.inl ()) .inr
        | .unwound => return .inr .unwound
        | .nothing =>
          setPhase k .finished
          return .inr .ended
      else
        return .inl ()

def recv : BProg T (Recvd T) := untilClosed k (tryRecv n k) fun v => some (.val v)

def recvBatch : BProg T (Recvd T) := untilClosed k (tryRecvBatch n k) fun vs => some (.batch vs)

/-- `drain`: how many values the callback got, and whether it panicked. -/
def drain (panics : Nat → Bool) (max : Nat) : BProg T (Nat × Bool) := do
  let (done, panicked) ← flush max 0
  if panicked ∨ done ≥ max then return (done, panicked) else scan (max - done) done n
where
  flush : Nat → Nat → BProg T (Nat × Bool)
    | 0, done => .ret (done, false)
    | left + 1, done => do
      let staged ← popStaged k
      match staged with
      | none => return (done, false)
      | some _ =>
        let panicked ← callback panics
        if panicked then return (done + 1, true) else flush left (done + 1)
  scan (room done : Nat) : Nat → BProg T (Nat × Bool)
    | 0 => .ret (done, false)
    | left + 1 => do
      let i ← selectSlot n k
      let won ← tryAcquire k i
      if won then
        let (got, panicked) ← drainInPlace k panics i room
        releaseClaim i
        if panicked then
          return (done + got, true)
        else if got > 0 then
          prefer k
          return (done + got, false)
        else
          scan room done left
      else
        scan room done left

def drainOnce (panics : Nat → Bool) (batch : Nat) : BProg T (Got Nat) := do
  let (done, panicked) ← drain n k panics batch
  return if panicked then .unwound else if done > 0 then .val done else .nothing

def forEach (panics : Nat → Bool) (batch : Nat) : BProg T (Recvd T) :=
  untilClosed k (drainOnce n k panics (max batch 1)) fun _ => none

/-- `Clone for Consumer`. -/
def clone : BProg T Unit :=
  .store .liveConsumers fun s =>
    { s with
      liveConsumers := s.liveConsumers + 1
      born := s.born + 1
      cursor := Function.update s.cursor s.born (.new s.liveConsumers)
      staging := Function.update s.staging s.born []
      batch := Function.update s.batch s.born (s.batch k) }

/-- `Drop for Consumer`: values still staged go with it. -/
def dropConsumer : BProg T Unit :=
  .store .liveConsumers fun s =>
    { s with
      liveConsumers := s.liveConsumers - 1
      dropped := Function.update s.dropped k true
      staging := Function.update s.staging k []
      discarded := Function.update s.discarded k (s.staging k) }

def setBatch (batch : Nat) : BProg T Unit :=
  .store (.own k) fun s => { s with batch := Function.update s.batch k (max batch 1) }

end Consumer

/-! ## The system -/

inductive Actor : Type
  | producer (j : Nat)
  | consumer (k : Nat)
deriving DecidableEq

/-- What an endpoint keeps of its latest call. -/
abbrev Last (T : Type) : Actor → Type
  | .producer _ => Option Bool
  | .consumer _ => Recvd T

inductive SendOp (T : Type) : Type
  | trySend (v : T)
  | send (v : T)
  | sendBatch (source : List T)
  | drop

inductive RecvOp : Type
  | tryRecv
  | tryRecvBatch
  | recv
  | recvBatch
  | drain (panics : Nat → Bool) (max : Nat)
  | forEach (panics : Nat → Bool) (batch : Nat)
  | isDisconnected
  | setBatch (batch : Nat)
  | clone
  | drop

def sendBody (full : Fifo T → Bool) (j : Nat) : SendOp T → BProg T (Option Bool)
  | .trySend v => do return some (← trySend full j v)
  | .send v => do return some (← send full j v)
  | .sendBatch source => do return some (← sendBatch full j source)
  | .drop => do
    dropProducer j
    return none

def Got.recvd {α : Type} (f : α → Recvd T) : Got α → Recvd T
  | .val a => f a
  | .nothing => .nothing
  | .unwound => .unwound

/-- The calls of consumer `k`. The ones that receive leave the phase the last
call ended in. -/
def recvBody (n k : Nat) (last : Recvd T) : RecvOp → BProg T (Recvd T)
  | .tryRecv => do
    setPhase k .working
    return (← tryRecv n k).recvd .val
  | .tryRecvBatch => do
    setPhase k .working
    return (← tryRecvBatch n k).recvd .batch
  | .recv => recv n k
  | .recvBatch => recvBatch n k
  | .drain panics max => do
    setPhase k .working
    let (done, panicked) ← drain n k panics max
    return if panicked then .unwound else .count done
  | .forEach panics batch => forEach n k panics batch
  | .isDisconnected => do return .flag (← .load .liveProducers fun s => decide (s.liveProducers = 0))
  | .setBatch batch => do
    setBatch k batch
    return last
  | .clone => do
    clone k
    return last
  | .drop => do
    dropConsumer k
    return last

/-- `n` producers and the consumers cloned so far, each making any calls in any
order until it is dropped, over transports that refuse a value when `full`. -/
def sys (full : Fifo T → Bool) (n : Nat) : Sys Actor Access (Shared T) (Last T) where
  Op
    | .producer _ => SendOp T
    | .consumer _ => RecvOp
  can
    | .producer j, _, _, s => s.producing j
    | .consumer k, _, _, s => decide (k < s.born) && !s.dropped k
  body
    | .producer j, o, _ => sendBody full j o
    | .consumer k, o, last => recvBody n k last o

def init (T : Type) (n : Nat) : Config Actor Access (Shared T) (Last T) where
  shared := .open T n
  thr
    | .producer _ => .idle none
    | .consumer _ => .idle .fresh

end Prescient.Brokerless
