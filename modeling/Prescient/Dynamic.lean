import Prescient.Brokerless

/-!
# Growing membership

The claim engine with producers that are registered at run time
(`mpmc/brokerless/dynamic.rs`). Two runtimes keep the rings: `LockedRings`, a list under a
lock with a counter beside it, of which every consumer has a snapshot; and `ArrayRings`, an
array of cells whose indices are reserved before they are filled.

The claim engine's own state is `core`, and its accesses are those of the fixed engine,
taken over by `onCore`; there `liveProducers` is `live`, which counts registrars and
producers. A ring is known by the number it is made with, which is also its producer's.
`stage` follows a registration in progress; `cellOf` is the cell a registration reserved,
and `enrolled` the producers registered so far. No program reads these three.
-/

namespace Prescient.Dynamic

open Brokerless (Got Recvd SendOp RecvOp)

/-- A registration in progress: its ring has been made; it is on the locked list, which
does not count it yet; it has a cell, which is still null; consumers can see it. -/
inductive Stage : Type
  | idle
  | made (ring : Nat)
  | appended (ring : Nat)
  | reserved (cell ring : Nat)
  | published (ring : Nat)
deriving DecidableEq

structure Shared (T : Type) where
  core : Brokerless.Shared T
  slots : List Nat
  count : Nat
  snap : Nat → List Nat
  cells : Nat → Option Nat
  len : Nat
  /-- The rings made so far are those below `minted`. -/
  minted : Nat
  /-- The registrars made so far are those below `registrars`. -/
  registrars : Nat
  /-- Registrar `r` has not been dropped. -/
  registering : Nat → Bool
  stage : Nat → Stage
  cellOf : Nat → Option Nat
  enrolled : List Nat

/-- The accesses. `snap k i` reads position `i` of the snapshot of consumer `k`, `cell i`
the cell `i` of the array. -/
inductive Access : Type
  | core (e : Brokerless.Access)
  | made
  | slots
  | count
  | len
  | live
  | own (k : Nat)
  | snap (k i : Nat)
  | cell (i : Nat)
deriving DecidableEq

/-- The membership runtime. `open_array` makes room for at least one producer. -/
inductive Runtime : Type
  | locked
  | array (maxProducers : Nat)
deriving DecidableEq

/-- How many cells the array has. -/
def Runtime.bound : Runtime → Nat
  | .locked => 0
  | .array maxProducers => max maxProducers 1

variable {T : Type}

/-- One registrar and one consumer. -/
def Shared.open (T : Type) : Shared T where
  core := { Brokerless.Shared.open T 0 with liveProducers := 1 }
  slots := []
  count := 0
  snap _ := []
  cells _ := none
  len := 0
  minted := 0
  registrars := 1
  registering r := decide (r < 1)
  stage _ := .idle
  cellOf _ := none
  enrolled := []

abbrev DProg (T : Type) := Prog Access (Shared T)

/-- An access of the claim engine. -/
def onCore {α : Type} (p : Brokerless.BProg T α) : DProg T α :=
  p.lift .core (·.core) fun s x => { s with core := x }

/-! ## Registrars -/

section Registrar

variable (rt : Runtime) (r : Nat)

/-- The result of a registrar's latest call. `rejected` is the panic of a registration
beyond the array's bound. -/
inductive Enrolled : Type
  | fresh
  | accepted (producer : Nat)
  | rejected
deriving DecidableEq

/-- `B::channel`: a ring of its own for the new producer. -/
def makeRing : DProg T Nat :=
  .rmw .made
    (fun s => { s with minted := s.minted + 1, stage := Function.update s.stage r (.made s.minted) })
    fun s => s.minted

/-- `live.fetch_add(1)` of a registration: the producer is there. -/
def goLive (ring : Nat) : DProg T Unit :=
  .store .live fun s =>
    { s with
      core :=
        { s.core with
          liveProducers := s.core.liveProducers + 1
          producing := Function.update s.core.producing ring true }
      stage := Function.update s.stage r .idle
      enrolled := s.enrolled ++ [ring] }

/-- `LockedRings::push`. -/
def pushLocked (ring : Nat) : DProg T Unit := do
  .store .slots fun s =>
    { s with slots := s.slots ++ [ring], stage := Function.update s.stage r (.appended ring) }
  .store .count fun s =>
    { s with count := s.count + 1, stage := Function.update s.stage r (.published ring) }

/-- `len.fetch_update`: the index reserved, if there is one. -/
def reserveCell (bound ring : Nat) : DProg T (Option Nat) :=
  .rmw .len
    (fun s => if s.len < bound then
      { s with
        len := s.len + 1
        stage := Function.update s.stage r (.reserved s.len ring)
        cellOf := Function.update s.cellOf ring (some s.len) } else s)
    fun s => if s.len < bound then some s.len else none

def storeCell (i ring : Nat) : DProg T Unit :=
  .store (.cell i) fun s =>
    { s with
      cells := Function.update s.cells i (some ring)
      stage := Function.update s.stage r (.published ring) }

/-- The ring of a rejected registration is dropped with it. -/
def forget : DProg T Unit :=
  .store .made fun s => { s with stage := Function.update s.stage r .idle }

/-- `register`. -/
def register : DProg T Enrolled := do
  let ring ← makeRing r
  match rt with
  | .locked =>
    pushLocked r ring
    goLive r ring
    return .accepted ring
  | .array maxProducers =>
    let cell ← reserveCell r (Runtime.array maxProducers).bound ring
    match cell with
    | none =>
      forget r
      return .rejected
    | some i =>
      storeCell r i ring
      goLive r ring
      return .accepted ring

/-- `Clone for Registrar`. -/
def cloneRegistrar : DProg T Unit :=
  .store .live fun s =>
    { s with
      core := { s.core with liveProducers := s.core.liveProducers + 1 }
      registrars := s.registrars + 1
      registering := Function.update s.registering s.registrars true }

/-- `Drop for Registrar`. -/
def dropRegistrar : DProg T Unit :=
  .store .live fun s =>
    { s with
      core := { s.core with liveProducers := s.core.liveProducers - 1 }
      registering := Function.update s.registering r false }

end Registrar

/-! ## Consumers -/

section Consumer

variable (rt : Runtime) (k : Nat)

/-- `Rings::count`. -/
def count : DProg T Nat :=
  match rt with
  | .locked => .load .count fun s => s.count
  | .array _ => .load .len fun s => s.len

/-- The selection from the snapshot. An index out of bounds would panic. -/
def selectSnap : DProg T (Option (Option Nat)) := do
  let len ← .load (.own k) fun s => (s.snap k).length
  let i ← onCore (Brokerless.selectSlot len k)
  let ring ← .load (.snap k i) fun s => (s.snap k)[i]?
  return some ring

/-- `LockedRings::next`. -/
def nextLocked : DProg T (Option (Option Nat)) := do
  let n ← .load .count fun s => s.count
  if n = 0 then
    return none
  else
    let known ← .load (.own k) fun s => (s.snap k).length
    if known < n then
      .store .slots fun s => { s with snap := Function.update s.snap k s.slots }
      selectSnap k
    else
      selectSnap k

/-- `ArrayRings::next`: the inner `none` is a null cell. -/
def nextArray : DProg T (Option (Option Nat)) := do
  let n ← .load .len fun s => s.len
  if n = 0 then
    return none
  else
    let i ← onCore (Brokerless.selectSlot n k)
    let ring ← .load (.cell i) fun s => s.cells i
    return some ring

/-- `Rings::next`. -/
def next : DProg T (Option (Option Nat)) :=
  match rt with
  | .locked => nextLocked k
  | .array _ => nextArray k

/-- `refill`: whether it unwound. -/
def refill : DProg T Bool := do
  onCore (.store (.own k) fun s => { s with staging := Function.update s.staging k [] })
  let n ← count rt
  scan n
where
  scan : Nat → DProg T Bool
    | 0 => .ret false
    | left + 1 => do
      let slot ← next rt k
      match slot with
      | none => return false
      | some none => scan left
      | some (some i) =>
        let won ← onCore (Brokerless.tryAcquire k i)
        if won then
          let batch ← onCore (.load (.own k) fun s => s.batch k)
          let unwound ← onCore (Brokerless.drainInto k i batch)
          onCore (Brokerless.releaseClaim i)
          if unwound then
            return true
          else
            let got ← onCore (.load (.own k) fun s => decide (s.staging k ≠ []))
            if got then
              onCore (Brokerless.prefer k)
              return false
            else
              scan left
        else
          scan left

def tryRecv : DProg T (Got T) := do
  let staged ← onCore (Brokerless.popStaged k)
  match staged with
  | some v => return .val v
  | none =>
    let unwound ← refill rt k
    if unwound then
      return .unwound
    else
      let v ← onCore (Brokerless.popStaged k)
      return v.elim .nothing .val

def tryRecvBatch : DProg T (Got (List T)) := do
  let empty ← onCore (.load (.own k) fun s => decide (s.staging k = []))
  if empty then
    let unwound ← refill rt k
    if unwound then
      return .unwound
    else
      let out ← onCore (Brokerless.takeStaged k)
      return if out = [] then .nothing else .val out
  else
    let out ← onCore (Brokerless.takeStaged k)
    return .val out

/-- `drain`: how many values the callback got, and whether it panicked. -/
def drain (panics : Nat → Bool) (max : Nat) : DProg T (Nat × Bool) := do
  let (done, panicked) ← onCore (Brokerless.drain.flush k panics max 0)
  if panicked ∨ done ≥ max then
    return (done, panicked)
  else
    let n ← count rt
    scan (max - done) done n
where
  scan (room done : Nat) : Nat → DProg T (Nat × Bool)
    | 0 => .ret (done, false)
    | left + 1 => do
      let slot ← next rt k
      match slot with
      | none => return (done, false)
      | some none => scan room done left
      | some (some i) =>
        let won ← onCore (Brokerless.tryAcquire k i)
        if won then
          let (got, panicked) ← onCore (Brokerless.drainInPlace k panics i room)
          onCore (Brokerless.releaseClaim i)
          if panicked then
            return (done + got, true)
          else if got > 0 then
            onCore (Brokerless.prefer k)
            return (done + got, false)
          else
            scan room done left
        else
          scan room done left

def drainOnce (panics : Nat → Bool) (batch : Nat) : DProg T (Got Nat) := do
  let (done, panicked) ← drain rt k panics batch
  return if panicked then .unwound else if done > 0 then .val done else .nothing

/-- The blocking loop around a non-blocking call `receive`. `leave` says with which
result a received value ends the loop, if it does. -/
def untilClosed {α : Type} (receive : DProg T (Got α)) (leave : α → Option (Recvd T)) :
    DProg T (Recvd T) :=
  .loop () fun _ => do
    onCore (Brokerless.setPhase k .working)
    let first ← receive
    match first with
    | .val a => return (leave a).elim (.inl ()) .inr
    | .unwound => return .inr .unwound
    | .nothing =>
      let closed ← onCore (Brokerless.isDisconnected k)
      if closed then
        let last ← receive
        match last with
        | .val a => return (leave a).elim (.inl ()) .inr
        | .unwound => return .inr .unwound
        | .nothing =>
          onCore (Brokerless.setPhase k .finished)
          return .inr .ended
      else
        return .inl ()

def recv : DProg T (Recvd T) := untilClosed k (tryRecv rt k) fun v => some (.val v)

def recvBatch : DProg T (Recvd T) := untilClosed k (tryRecvBatch rt k) fun vs => some (.batch vs)

def forEach (panics : Nat → Bool) (batch : Nat) : DProg T (Recvd T) :=
  untilClosed k (drainOnce rt k panics (max batch 1)) fun _ => none

end Consumer

/-! ## The system -/

inductive Actor : Type
  | registrar (r : Nat)
  | producer (j : Nat)
  | consumer (k : Nat)
deriving DecidableEq

/-- What an endpoint keeps of its latest call. -/
abbrev Last (T : Type) : Actor → Type
  | .registrar _ => Enrolled
  | .producer _ => Option Bool
  | .consumer _ => Recvd T

inductive RegisterOp : Type
  | register
  | clone
  | drop

def registerBody (rt : Runtime) (r : Nat) (last : Enrolled) : RegisterOp → DProg T Enrolled
  | .register => register rt r
  | .clone => do
    cloneRegistrar
    return last
  | .drop => do
    dropRegistrar r
    return last

/-- The calls of consumer `k`. The ones that receive leave the phase the last call ended
in. -/
def recvBody (rt : Runtime) (k : Nat) (last : Recvd T) : RecvOp → DProg T (Recvd T)
  | .tryRecv => do
    onCore (Brokerless.setPhase k .working)
    return (← tryRecv rt k).recvd .val
  | .tryRecvBatch => do
    onCore (Brokerless.setPhase k .working)
    return (← tryRecvBatch rt k).recvd .batch
  | .recv => recv rt k
  | .recvBatch => recvBatch rt k
  | .drain panics max => do
    onCore (Brokerless.setPhase k .working)
    let (done, panicked) ← drain rt k panics max
    return if panicked then .unwound else .count done
  | .forEach panics batch => forEach rt k panics batch
  | .isDisconnected => onCore (do
    return .flag (← .load .liveProducers fun s => decide (s.liveProducers = 0)))
  | .setBatch batch => onCore (do
    Brokerless.setBatch k batch
    return last)
  | .clone => onCore (do
    Brokerless.clone k
    return last)
  | .drop => onCore (do
    Brokerless.dropConsumer k
    return last)

/-- Registrars, producers and consumers, each making any calls in any order until it is
dropped, over transports that refuse a value when `full`. Two threads that register
through one shared registrar make the accesses two clones of it would. -/
def sys (full : Fifo T → Bool) (rt : Runtime) : Sys Actor Access (Shared T) (Last T) where
  Op
    | .registrar _ => RegisterOp
    | .producer _ => SendOp T
    | .consumer _ => RecvOp
  can
    | .registrar r, _, _, s => s.registering r
    | .producer j, _, _, s => s.core.producing j
    | .consumer k, _, _, s => decide (k < s.core.born) && !s.core.dropped k
  body
    | .registrar r, o, last => registerBody rt r last o
    | .producer j, o, _ => onCore (Brokerless.sendBody full j o)
    | .consumer k, o, last => recvBody rt k last o

def init (T : Type) : Config Actor Access (Shared T) (Last T) where
  shared := .open T
  thr
    | .registrar _ => .idle .fresh
    | .producer _ => .idle none
    | .consumer _ => .idle .fresh

end Prescient.Dynamic
