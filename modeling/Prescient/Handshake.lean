import Prescient.Declare
import Prescient.Fallible
import Prescient.Pairing

/-!
# The setup handshake of a duplex

The two processes of a duplex side by side: `open` on the creating and on the attaching
declaration (`open.rs`), with `ipc::create`, `ipc::attach_peer` (`ipc/mod.rs`) and the
exchange over the control socket (`ipc/setup.rs`). Bytes go over the socket one at a time,
any call on it may fail at any point, and other processes make, change and remove shared
objects under other names meanwhile. A creator that gives up drops its regions, which
unlinks them.
-/

namespace Prescient.Ipc.Handshake

open Pairing Declare

/-! ## Declarations -/

/-- What the type of a channel says of its payload. -/
inductive Payload (w : Nat) : Type
  | bytes
  | pod (schemaId : UInt64) (size align : BitVec w)
  | codec (schemaId : UInt64)

/-- `PayloadContract::bytes`, `pod` and `codec`. -/
def Payload.contract {w : Nat} : Payload w → PayloadContract w
  | bytes => .bytes w
  | pod schemaId size align => ⟨.pod, schemaId, size, align⟩
  | codec schemaId => ⟨.codec, schemaId, 0, 0⟩

/-- An error of `std::io`, with `?`. -/
def fromIo {α : Type} : Except IoError α → Opening α
  | .ok a => .ok a
  | .error e => .error (.error (.io e))

def processShape (d : Shape) : Opening (StreamShape × EndpointOptions) :=
  if d.chunkBytes = 0 then
    invalid "IPC chunk_bytes must be non-zero"
  else if d.slots = 0 then
    invalid "IPC slots must be non-zero"
  else if d.transferId = 0 ∨ d.transferId.toNat = 2 ^ 64 - 1 then
    invalid "IPC duplex transfer_id must leave two non-zero ids"
  else if d.timeout = 0 then
    invalid "IPC timeout must be non-zero"
  else
    .ok (⟨d.totalBytes.toNat, d.chunkBytes, d.slots, d.totalBytes.toNat_lt⟩, ⟨d.lockMemory, d.timeout⟩)

def processOptions (d : Shape) : Opening EndpointOptions :=
  if d.timeout = 0 then
    invalid "IPC timeout must be non-zero"
  else
    .ok ⟨d.lockMemory, d.timeout⟩

section Checks

variable {w : Nat}

/-- What `open` on the creating side checks before it waits for the peer. -/
def checkCreate (d : Shape) (p : Payload w) : Opening (StreamShape × EndpointOptions) := do
  let (shape, options) ← processShape d
  match p with
  | .bytes => return (shape, options)
  | .pod _ size _ =>
    if size.toNat = 0 ∨ shape.totalBytes % size.toNat ≠ 0 then
      invalid "IPC POD shape must contain a whole number of values"
    else
      fromIo p.contract.validate
      return (shape, options)
  | .codec _ =>
    fromIo p.contract.validate
    return (shape, options)

/-- What `open` on the attaching side checks before it connects. -/
def checkAttach (d : Shape) (p : Payload w) : Opening EndpointOptions := do
  let options ← processOptions d
  match p with
  | .bytes => return options
  | .pod .. | .codec _ =>
    fromIo p.contract.validate
    return options

end Checks

/-! ## The state -/

/-- The shared memory, what has gone over the socket each way, and how much of it the other
side has taken; and the course of things, which no branch depends on: whether a call on the
socket has failed, the handle of the regions that were made, which of its directions have
been dropped, and the directions that the worker has opened. -/
structure Shared (w : Nat) where
  memory : Memory
  toWorker : List UInt8
  taken : Nat
  toParent : List UInt8
  heard : Nat
  faulted : Bool
  made : Option (DuplexHandle w)
  dropped : StreamFlow → Bool
  opened : List (Opened w)

inductive Access : Type
  | create
  | write
  | read
  | openDirection
  | drop
  | fault
  | elsewhere
deriving DecidableEq

abbrev HProg (w : Nat) := Prog Access (Shared w)

abbrev HTry (w : Nat) := Fallible IoError Access (Shared w)

section Programs

variable {w : Nat} {α : Type}

def ACCEPTED : UInt8 := 0xa5

def REJECTED : UInt8 := 0x5a

/-- A call on the socket that fails, by its time limit or because the peer is gone. -/
def socketError : IoError := ⟨.other, "control socket failed"⟩

/-- A call on the socket: what it does, or a failure. -/
def call (p : HProg w α) : HTry w α := do
  let n ← (.pick : HProg w Nat)
  if n = 0 then
    p
  else
    (.store .fault fun s => { s with faulted := true } : HProg w Unit)
    .throw socketError

/-- What an early return runs on its way out. -/
def onError (p : HTry w α) (cleanup : HProg w Unit) : HTry w α :=
  Prog.bind p fun r => match r with
    | .ok a => .ret (.ok a)
    | .error e => cleanup.bind fun _ => .ret (.error e)

/-- `write_all`, where `put` adds a byte to what has been written. -/
def writeAll (put : UInt8 → Shared w → Shared w) : List UInt8 → HTry w Unit
  | [] => return ()
  | b :: bs => do
    call (.store .write (put b))
    writeAll put bs

def toWorker (b : UInt8) (s : Shared w) : Shared w := { s with toWorker := s.toWorker ++ [b] }

def toParent (b : UInt8) (s : Shared w) : Shared w := { s with toParent := s.toParent ++ [b] }

/-- `configure`, `flush`, `SocketLiveness::new` and the wait for the peer do nothing here
but fail. -/
def touch : HTry w Unit := call (.ret ())

/-! ## The creator -/

section Creator

variable (backing : Nat → Nat) (os : Os) (names : StreamFlow → Side → String)

/-- The memory after `ipc::create` has failed in one of its regions: those that it made are
dropped. -/
def undo (before after : Memory) : Memory := fun n => if (before n).isSome then after n else none

/-- `ipc::create` up to its handle. Nobody knows of the regions before the handle is sent. -/
def makeRegions (shape : StreamShape) (transferId : UInt64) (options : EndpointOptions)
    (payload : PayloadContract w) : HTry w (DuplexHandle w) :=
  let made (s : Shared w) := Pairing.create backing os names shape transferId options payload s.memory
  Prog.rmw .create
    (fun s => match made s with
      | (.ok handle, memory) => { s with memory, made := some handle }
      | (.error _, memory) => { s with memory := undo s.memory memory })
    fun s => (made s).1

/-- The creator waits for a byte and takes it. -/
def hearByte : HTry w UInt8 :=
  call (.act .read (fun s => decide (s.heard < s.toParent.length))
    (fun s => { s with heard := s.heard + 1 }) fun s => .ret (s.toParent.getD s.heard 0))

/-- `setup::send`. -/
def send (handle : DuplexHandle w) : HTry w Unit := do
  touch
  let frame ← .ofExcept (Setup.send handle)
  writeAll toWorker frame
  touch
  let acknowledgement ← hearByte
  if acknowledgement = ACCEPTED then
    return ()
  else if acknowledgement = REJECTED then
    .throw (invalidData "peer rejected IPC setup")
  else
    .throw (invalidData "invalid IPC setup acknowledgement")

/-- The memory without the regions of a direction. -/
def unlink (d : DirectionHandle w) (m : Memory) : Memory := fun n =>
  if n = d.data.name ∨ n = d.releases.name then none else m n

/-- A direction that its creator drops. -/
def dropDirection (handle : DuplexHandle w) (f : StreamFlow) : HProg w Unit :=
  .store .drop fun s => { s with
    memory := unlink (handle.direction f) s.memory, dropped := Function.update s.dropped f true }

/-- `ipc::create`. What it made is dropped in the reverse order where it fails. -/
def create (shape : StreamShape) (transferId : UInt64) (options : EndpointOptions)
    (payload : PayloadContract w) : HTry w (Opened w × Opened w) := do
  let handle ← makeRegions backing os names shape transferId options payload
  onError
    (do
      send handle
      touch)
    (do
      dropDirection handle .workerToParent
      dropDirection handle .parentToWorker)
  return (⟨handle.parentToWorker, .producer, options⟩, ⟨handle.workerToParent, .consumer, options⟩)

/-- `open` on a `ProcessCreate` channel: its outbound and its inbound direction. -/
def openCreate (d : Shape) (p : Payload w) : HProg w (Opening (Opened w × Opened w)) :=
  match checkCreate d p with
  | .error e => return .error e
  | .ok (shape, options) =>
    let duplex : HTry w (Opened w × Opened w) := do
      touch
      create backing os names shape d.transferId options p.contract
    Prog.bind duplex fun r => return fromIo r

end Creator

/-! ## The worker -/

section Worker

variable (backing : Nat → Nat) (os : Os)

/-- How `read_exact` fails on a socket whose peer says no more. -/
def eof : IoError := ⟨.unexpectedEof, "failed to fill whole buffer"⟩

/-- The worker waits for a byte and takes it. -/
def takeByte : HTry w UInt8 :=
  call (.act .read (fun s => decide (s.taken < s.toWorker.length))
    (fun s => { s with taken := s.taken + 1 }) fun s => .ret (s.toWorker.getD s.taken 0))

/-- One more byte, as long as `read_frame` has too few of them. -/
def readMore (taken : List UInt8) : HTry w (List UInt8 ⊕ DuplexHandle w) :=
  match Setup.readFrame w taken with
  | .ok (handle, _) => return .inr handle
  | .error e =>
    if e = eof then do
      let b ← takeByte
      return .inl (taken ++ [b])
    else
      .throw e

/-- `setup::receive`. -/
def receive : HTry w (DuplexHandle w) := do
  touch
  Fallible.loop [] readMore

/-- `Direction::open`. -/
def openDirection (handle : DirectionHandle w) (options : EndpointOptions) (role : DirectionRole) :
    HTry w (Opened w) :=
  let opened (s : Shared w) := Direction.open backing os handle options role s.memory
  Prog.rmw .openDirection
    (fun s => match opened s with
      | (.ok o, memory) => { s with memory, opened := s.opened ++ [o] }
      | (.error _, memory) => { s with memory })
    fun s => (opened s).1

/-- The part of `ipc::attach_peer` whose failure is told to the peer. -/
def openBoth (options : EndpointOptions) (expected : PayloadContract w) :
    HTry w (Opened w × Opened w) := do
  let handle ← receive
  .ofExcept (checkHandle handle expected)
  let inbound ← openDirection backing os handle.parentToWorker options .consumer
  let outbound ← openDirection backing os handle.workerToParent options .producer
  return (outbound, inbound)

/-- `setup::reject`, which ignores failures. -/
def reject : HProg w Unit :=
  Prog.bind (writeAll toParent [REJECTED]) fun _ => Prog.bind touch fun _ => return ()

/-- `ipc::attach_peer`. -/
def attachPeer (options : EndpointOptions) (expected : PayloadContract w) :
    HTry w (Opened w × Opened w) := do
  let directions ← onError (openBoth backing os options expected) reject
  writeAll toParent [ACCEPTED]
  touch
  touch
  return directions

/-- `open` on a `ProcessAttach` channel: its outbound and its inbound direction. -/
def openAttach (d : Shape) (p : Payload w) : HProg w (Opening (Opened w × Opened w)) :=
  match checkAttach d p with
  | .error e => return .error e
  | .ok options =>
    let duplex : HTry w (Opened w × Opened w) := do
      touch
      attachPeer backing os options p.contract
    Prog.bind duplex fun r => return fromIo r

end Worker

end Programs

/-! ## Both, and the rest of the machine -/

/-- The two declarations, what is granted to the two processes, and the names drawn. -/
structure Parties (w : Nat) where
  backing : Nat → Nat
  creatorOs : Os
  workerOs : Os
  names : StreamFlow → Side → String
  creator : Shape
  created : Payload w
  worker : Shape
  expected : Payload w

inductive Actor : Type
  | creator
  | worker
  | others
deriving DecidableEq

variable {w : Nat}

/-- What each has: the answer of its `open`. -/
def Local (w : Nat) : Actor → Type
  | .creator => Option (Opening (Opened w × Opened w))
  | .worker => Option (Opening (Opened w × Opened w))
  | .others => Unit

/-- The names drawn for the four regions. -/
def drawn (names : StreamFlow → Side → String) : List String :=
  [names .parentToWorker .data, names .parentToWorker .releases, names .workerToParent .data,
    names .workerToParent .releases]

/-- Other processes do what they like under other names. -/
def elsewhere (names : StreamFlow → Side → String) (change : Memory → Memory) : HProg w Unit :=
  .store .elsewhere fun s => { s with
    memory := fun n => if n ∈ drawn names then s.memory n else change s.memory n }

def sys (P : Parties w) : Sys Actor Access (Shared w) (Local w) where
  Op
    | .creator => Unit
    | .worker => Unit
    | .others => Memory → Memory
  can
    | .creator, _, l, _ => l.isNone
    | .worker, _, l, _ => l.isNone
    | .others, _, _, _ => true
  body
    | .creator, _, _ => do
      let r ← openCreate P.backing P.creatorOs P.names P.creator P.created
      return some r
    | .worker, _, _ => do
      let r ← openAttach P.backing P.workerOs P.worker P.expected
      return some r
    | .others, change, _ => elsewhere P.names change

/-- Neither side has begun, with any objects about. -/
def init (w : Nat) (m : Memory) : Config Actor Access (Shared w) (Local w) where
  shared := ⟨m, [], 0, [], 0, false, none, fun _ => false, []⟩
  thr
    | .creator => .idle none
    | .worker => .idle none
    | .others => .idle ()

/-! ## What is to hold -/

/-- What the worker is granted and has declared is what the creator's handle asks for. -/
structure Fit (P : Parties w) : Prop where
  contract : P.expected.contract = P.created.contract
  valid : P.expected.contract.validate = .ok ()
  timeout : P.worker.timeout ≠ 0
  admits : ∀ f side, Admits P.workerOs (P.names f side) P.worker.lockMemory

/-- The options that `open` makes of a declaration. -/
def options (d : Shape) : EndpointOptions := ⟨d.lockMemory, d.timeout⟩

/-- The outbound and the inbound direction of the creator. -/
def creatorSide (P : Parties w) (handle : DuplexHandle w) : Opened w × Opened w :=
  (⟨handle.parentToWorker, .producer, options P.creator⟩,
    ⟨handle.workerToParent, .consumer, options P.creator⟩)

/-- The outbound and the inbound direction of the worker. -/
def workerSide (P : Parties w) (handle : DuplexHandle w) : Opened w × Opened w :=
  (⟨handle.workerToParent, .producer, options P.worker⟩,
    ⟨handle.parentToWorker, .consumer, options P.worker⟩)

end Prescient.Ipc.Handshake
