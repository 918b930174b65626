import Prescient.Fallible
import Prescient.Frame
import Prescient.Word

/-!
# Process streams

One direction of the process transport (`ipc/stream.rs`, `ipc/event.rs`): a ring of
descriptors with payload slots from the producer to the consumer, a ring of
descriptors back, and the control socket whose end each side can see. The two
endpoints are separate processes that share nothing else.

An endpoint's waits may end at any time and in any way the operating system can
end them. The fields from `log` on are history: the frames published on each
ring, how many of them were taken and how many announced, and whether the side
that takes them stands between the last look of a timed-out wait and its check
of the socket.
-/

namespace Prescient.Ipc

/-! ## Shapes -/

def U32_MAX : Nat := 2 ^ 32 - 1

/-- Logical stream dimensions. -/
structure StreamShape where
  totalBytes : Nat
  chunkBytes : Nat
  slots : Nat
  total_lt : totalBytes < 2 ^ 64

/-- `div_ceil`. -/
def divCeil (a b : Nat) : Nat := (a + b - 1) / b

namespace StreamShape

def chunks (sh : StreamShape) : Nat := divCeil sh.totalBytes sh.chunkBytes

def residentBytes (sh : StreamShape) : Nat := sh.slots * sh.chunkBytes

/-- The checks of a shape, on words of `w` bits. -/
def validate (w : Nat) (sh : StreamShape) : Except IoError Unit :=
  if sh.chunkBytes = 0 ∨ sh.chunkBytes > U32_MAX then
    .error (invalidInput "stream chunk_bytes must be in 1..=u32::MAX")
  else if sh.slots = 0 ∨ sh.slots > U32_MAX then
    .error (invalidInput "stream slots must be in 1..=u32::MAX")
  else if sh.slots * sh.chunkBytes > 2 ^ (w - 1) - 1 then
    .error (invalidInput "stream resident size overflows address space")
  else if divCeil sh.chunks sh.slots > U32_MAX then
    .error (invalidInput "stream slot generation would overflow")
  else
    .ok ()

/-- `chunk_meta`: offset, length, slot and generation of a chunk. -/
def chunkMeta (sh : StreamShape) (index : Nat) : Except IoError (Nat × Nat × Nat × Nat) :=
  if index * sh.chunkBytes < 2 ^ 64 then
    let offset := index * sh.chunkBytes
    let len := min (sh.totalBytes - offset) sh.chunkBytes
    let slot := index % sh.slots
    if index / sh.slots + 1 ≤ U32_MAX then
      .ok (offset, len, slot, index / sh.slots + 1)
    else
      .error (invalidData "stream generation exhausted")
  else
    .error (invalidData "stream offset overflow")

end StreamShape

def CACHE_LINE : Nat := 64

def HEADER_LEN : Nat := 448

def descriptorCapacity (w slots : Nat) : Except IoError Nat :=
  match if slots * 2 + 2 < 2 ^ w then checkedNextPowerOfTwo w (slots * 2 + 2) else none with
  | some capacity => .ok capacity
  | none => .error (invalidInput "descriptor capacity overflow")

/-- `align_up`, for a power of two. -/
def alignUp (w value alignment : Nat) : Except IoError Nat :=
  if value + (alignment - 1) < 2 ^ w then
    .ok ((value + (alignment - 1)) / alignment * alignment)
  else
    .error (invalidInput "alignment overflow")

/-- Length of an arena and where its payload starts. -/
def arenaLayout (w slots slotLen capacity : Nat) : Except IoError (Nat × Nat) :=
  if decide (slots = 0) ≠ decide (slotLen = 0) ∨ capacity < 2 ∨ ¬ capacity.isPowerOfTwo ∨
      capacity > U32_MAX then
    .error (invalidInput "stream arena dimensions are invalid")
  else if capacity * FRAME_LEN ≥ 2 ^ w then
    .error (invalidInput "descriptor bytes overflow")
  else if HEADER_LEN + capacity * FRAME_LEN ≥ 2 ^ w then
    .error (invalidInput "arena offset overflow")
  else do
    let payloadOffset ← alignUp w (HEADER_LEN + capacity * FRAME_LEN) CACHE_LINE
    if slots * slotLen ≥ 2 ^ w then
      .error (invalidInput "arena payload bytes overflow")
    else if payloadOffset + slots * slotLen > 2 ^ (w - 1) - 1 then
      .error (invalidInput "arena length overflow")
    else
      .ok (payloadOffset + slots * slotLen, payloadOffset)

/-- Direction relative to the supervising parent. -/
inductive StreamFlow : Type
  | parentToWorker
  | workerToParent
deriving DecidableEq

def StreamFlow.code : StreamFlow → UInt8
  | parentToWorker => 1
  | workerToParent => 2

def frameFlags (flow : StreamFlow) : UInt8 := 0x40 ||| flow.code

/-- What both endpoints of a direction agree on. -/
structure Direction where
  shape : StreamShape
  transferId : UInt64
  flags : UInt8
  capacity : Nat

/-- The checks of `Direction::create`, and the direction they lead to. -/
def Direction.create (w : Nat) (shape : StreamShape) (transferId : UInt64) (flow : StreamFlow)
    (timeout : Nat) : Except IoError Direction := do
  shape.validate w
  if transferId = 0 then
    .error (invalidInput "transfer id zero is reserved")
  else if timeout = 0 then
    .error (invalidInput "stream timeout must be non-zero")
  else
    let capacity ← descriptorCapacity w shape.slots
    let _ ← arenaLayout w shape.slots shape.chunkBytes capacity
    let _ ← arenaLayout w 0 0 capacity
    return { shape, transferId, flags := frameFlags flow, capacity }

/-! ## Shared memory -/

/-- The two rings of a direction. -/
inductive Side : Type
  | data
  | releases
deriving DecidableEq

/-- The two events of an arena: frames to take, and room for more. -/
inductive Signal : Type
  | dataReady
  | spaceReady
deriving DecidableEq

inductive Actor : Type
  | producer
  | consumer
deriving DecidableEq

namespace Actor

def other : Actor → Actor
  | producer => consumer
  | consumer => producer

/-- The ring an endpoint publishes on. -/
def pushes : Actor → Side
  | producer => .data
  | consumer => .releases

/-- The ring an endpoint takes from. -/
def pops : Actor → Side
  | producer => .releases
  | consumer => .data

end Actor

structure Event where
  sequence : Nat
  waiters : Nat

structure Arena where
  head : Nat
  tail : Nat
  desc : Nat → List UInt8
  event : Signal → Event

structure Shared where
  arena : Side → Arena
  /-- The payload slots of the data arena, byte by byte. -/
  payload : Nat → Nat → UInt8
  /-- Whether an endpoint's end of the control socket is closed or shut down. -/
  closed : Actor → Bool
  /-- How much of its input the producer's reader has delivered. -/
  readPos : Nat
  /-- What the consumer's writer has accepted. -/
  written : List UInt8
  log : Side → List Frame
  popped : Side → Nat
  announced : Side → Nat
  looking : Side → Bool

/-- The accesses. `publish` and `advance` are the stores of a tail and of a head,
`look` is the last look of a timed-out wait, `write j` touches payload slot `j`, and
`read j start n` its `n` bytes from `start` on. -/
inductive Access : Type
  | head (d : Side)
  | tail (d : Side)
  | desc (d : Side) (i : Nat)
  | publish (d : Side)
  | advance (d : Side)
  | sequence (d : Side) (g : Signal)
  | waiters (d : Side) (g : Signal)
  | look (d : Side) (g : Signal)
  | peek (a : Actor)
  | close (a : Actor)
  | write (j : Nat)
  | read (j start n : Nat)
  | excess
deriving DecidableEq

abbrev SProg := Prog Access Shared

abbrev IoProg := Fallible IoError Access Shared

def Shared.setArena (s : Shared) (d : Side) (a : Arena) : Shared :=
  { s with arena := Function.update s.arena d a }

def Arena.setEvent (a : Arena) (g : Signal) (e : Event) : Arena :=
  { a with event := Function.update a.event g e }

/-! ## Events -/

inductive WaitOutcome : Type
  | changed
  | timedOut

/-- How a wait of the operating system ended. -/
inductive Parked : Type
  | ended (outcome : WaitOutcome)
  | failed (e : IoError)

/-- A failed call into the operating system. -/
def osError : IoError := ⟨.other, "os error"⟩

section Event

variable (d : Side) (g : Signal)

def observe : SProg Nat :=
  .load (.sequence d g) fun s => ((s.arena d).event g).sequence

/-- The store of the new cursor. On the event for frames it announces all that
was published. -/
def announce (cursor : Nat) : SProg Unit :=
  .store (.sequence d g) fun s =>
    { s.setArena d ((s.arena d).setEvent g
        { (s.arena d).event g with sequence := cursor % 2 ^ 32 }) with
      announced := if g = .dataReady then Function.update s.announced d (s.log d).length
        else s.announced }

/-- `waiters.swap(n)`. -/
def swapWaiters (n : Nat) : SProg Nat :=
  .rmw (.waiters d g)
    (fun s => s.setArena d ((s.arena d).setEvent g { (s.arena d).event g with waiters := n }))
    fun s => ((s.arena d).event g).waiters

def wake : IoProg Unit := do
  let answer ← (.pick : SProg Nat)
  if answer = 0 then .throw osError else return ()

def notify (cursor : Nat) : IoProg Unit := do
  announce d g cursor
  let waiters ← swapWaiters d g 0
  if waiters ≠ 0 then wake else return ()

/-- The wait of the operating system, skipped when the sequence has moved. -/
def park (observed now : Nat) : SProg Parked :=
  if now ≠ observed then
    .ret (.ended .changed)
  else do
    let answer ← .pick
    return if answer = 0 then .failed osError
      else if answer = 1 then .ended .timedOut
      else .ended .changed

/-- The look at the sequence after a timed-out wait. -/
def lastLook (observed : Nat) : SProg Nat :=
  .rmw (.look d g)
    (fun s => { s with
      looking := if g = .dataReady ∧ ((s.arena d).event g).sequence = observed then
        Function.update s.looking d true else s.looking })
    fun s => ((s.arena d).event g).sequence

def wait (observed : Nat) : IoProg WaitOutcome := do
  let now ← observe d g
  if now ≠ observed then
    return .changed
  else
    let waiters ← swapWaiters d g 1
    if waiters ≠ 0 then
      .throw (invalidInput "process event supports one waiter")
    else
      let now ← observe d g
      let result ← park observed now
      let _ ← swapWaiters d g 0
      match result with
      | .failed e => .throw e
      | .ended .changed => return .changed
      | .ended .timedOut =>
        let now ← lastLook d g observed
        return if now ≠ observed then .changed else .timedOut

end Event

/-! ## Liveness -/

/-- What a wait fails with when the peer is gone. -/
def peerClosedError : IoError := ⟨.unexpectedEof, "process stream peer closed"⟩

def timedOutError : IoError := ⟨.timedOut, "process stream arena wait timed out"⟩

/-- The look at the control socket. -/
def peek (a : Actor) : SProg Bool :=
  .rmw (.peek a) (fun s => { s with looking := Function.update s.looking a.pops false })
    fun s => s.closed a.other

/-- `peer_closed`: the look may fail, be interrupted, or find unread bytes. -/
def peerClosed (a : Actor) : IoProg Bool := do
  let closed ← peek a
  let answer ← (.pick : SProg Nat)
  if answer = 0 then .throw osError
  else if answer = 1 then return false
  else return closed

def waitForPeerEvent (a : Actor) (d : Side) (g : Signal) (observed : Nat) : IoProg Unit := do
  let elapsed ← (.pick : SProg Nat)
  if elapsed = 0 then
    .throw timedOutError
  else
    let outcome ← wait d g observed
    match outcome with
    | .changed => return ()
    | .timedOut =>
      let closed ← peerClosed a
      if closed then .throw peerClosedError else return ()

/-! ## Descriptor rings -/

section Ring

variable (w : Nat) (dir : Direction)

def loadHead (d : Side) : SProg Nat := .load (.head d) fun s => (s.arena d).head

def loadTail (d : Side) : SProg Nat := .load (.tail d) fun s => (s.arena d).tail

/-- `descriptor_ptr`. -/
def descriptorIndex (sequence : Nat) : Nat := sequence % 2 ^ w &&& (dir.capacity - 1)

def writeDesc (d : Side) (tail : Nat) (frame : Frame) : SProg Unit :=
  .store (.desc d (descriptorIndex w dir tail)) fun s =>
    s.setArena d { s.arena d with
      desc := Function.update (s.arena d).desc (descriptorIndex w dir tail) frame.encode }

def readDesc (d : Side) (head : Nat) : SProg (List UInt8) :=
  .load (.desc d (descriptorIndex w dir head)) fun s =>
    (s.arena d).desc (descriptorIndex w dir head)

def publish (d : Side) (tail : Nat) (frame : Frame) : SProg Unit :=
  .store (.publish d) fun s =>
    { s.setArena d { s.arena d with tail := wadd 64 tail 1 } with
      log := Function.update s.log d (s.log d ++ [frame]) }

def advance (d : Side) (head : Nat) : SProg Unit :=
  .store (.advance d) fun s =>
    { s.setArena d { s.arena d with head := wadd 64 head 1 } with
      popped := Function.update s.popped d (s.popped d + 1) }

/-- The wait of `push` for room. -/
def awaitSpace (a : Actor) (tail : Nat) : IoProg Unit :=
  .loop () fun _ => do
    let head ← loadHead a.pushes
    if wsub 64 tail head ≥ dir.capacity then
      let observed ← observe a.pushes .spaceReady
      let head ← loadHead a.pushes
      if wsub 64 tail head < dir.capacity then
        return .inr ()
      else
        waitForPeerEvent a a.pushes .spaceReady observed
        return .inl ()
    else
      return .inr ()

def push (a : Actor) (frame : Frame) : IoProg Unit := do
  let tail ← loadTail a.pushes
  awaitSpace dir a tail
  writeDesc w dir a.pushes tail frame
  publish a.pushes tail frame
  notify a.pushes .dataReady (wadd 64 tail 1)

/-- The wait of `pop` for a frame. -/
def awaitFrame (a : Actor) (head : Nat) : IoProg Unit :=
  .loop () fun _ => do
    let tail ← loadTail a.pops
    if wsub 64 tail head = 0 then
      let observed ← observe a.pops .dataReady
      let tail ← loadTail a.pops
      if wsub 64 tail head ≠ 0 then
        return .inr ()
      else
        waitForPeerEvent a a.pops .dataReady observed
        return .inl ()
    else
      return .inr ()

def pop (a : Actor) : IoProg Frame := do
  let head ← loadHead a.pops
  awaitFrame a head
  let encoded ← readDesc w dir a.pops head
  advance a.pops head
  notify a.pops .spaceReady (wadd 64 head 1)
  .ofExcept (Frame.decode encoded)

end Ring

/-! ## Payload slots -/

/-- `bytes` written at `start` of a slot. -/
def writeAt (slot : Nat → UInt8) (start : Nat) (bytes : List UInt8) : Nat → UInt8 :=
  fun i => if start ≤ i then (bytes[i - start]?).getD (slot i) else slot i

/-- The first `len` bytes of a slot. -/
def slice (slot : Nat → UInt8) (len : Nat) : List UInt8 := (List.range len).map slot

section Payload

variable (dir : Direction)

def checkSlot (slot len : Nat) : Except IoError Unit :=
  if slot ≥ dir.shape.slots ∨ len = 0 ∨ len > dir.shape.chunkBytes then
    .error (invalidData "stream slot or length is out of bounds")
  else
    .ok ()

variable (input : List UInt8)

/-- The reader's next bytes, at most `n`, straight into a slot. -/
def fill (slot filled n : Nat) : SProg Nat :=
  .rmw (.write slot)
    (fun s => { s with
      payload := Function.update s.payload slot
        (writeAt (s.payload slot) filled ((input.drop s.readPos).take n))
      readPos := s.readPos + ((input.drop s.readPos).take n).length })
    fun s => ((input.drop s.readPos).take n).length

/-- One call of the reader: it may fail, be interrupted (`none`), or deliver any
number of bytes up to what is asked for. -/
def readSome (slot filled want : Nat) : IoProg (Option Nat) := do
  let answer ← (.pick : SProg Nat)
  match answer with
  | 0 => .throw ⟨.other, "reader failed"⟩
  | 1 => return none
  | n + 2 =>
    let got ← fill input slot filled (min n want)
    return some got

/-- Read until `len` bytes are there. At the end of the input, after `filled` of
them, the answer is `eof filled`. -/
def fillSlot (eof : Nat → Except IoError Nat) (slot len : Nat) : IoProg Nat :=
  .loop 0 fun filled =>
    if filled < len then do
      let got ← readSome input slot filled (len - filled)
      match got with
      | none => return .inl filled
      | some 0 =>
        let n ← .ofExcept (eof filled)
        return .inr n
      | some (n + 1) => return .inl (filled + (n + 1))
    else
      return .inr filled

/-- `read_exact`. -/
def readExact (slot len : Nat) : IoProg Nat :=
  fillSlot input (fun _ => .error ⟨.unexpectedEof, "failed to fill whole buffer"⟩) slot len

/-- `read_chunk`. -/
def readChunk (slot len : Nat) : IoProg Nat := fillSlot input .ok slot len

def slotChecksum (slot len : Nat) : SProg UInt64 :=
  .load (.read slot 0 len) fun s => checksum (slice (s.payload slot) len)

/-- `write_slot` with a reader: how much was read, and its checksum. -/
def writeSlot (readAll : Nat → Nat → IoProg Nat) (slot len : Nat) : IoProg (Nat × UInt64) := do
  .ofExcept (checkSlot dir slot len)
  let n ← readAll slot len
  let sum ← slotChecksum slot n
  return (n, sum)

/-- The writer accepts some bytes of a slot. -/
def drainSlot (slot done n : Nat) : SProg Unit :=
  .store (.read slot done n) fun s =>
    { s with written := s.written ++ ((slice (s.payload slot) (done + n)).drop done) }

/-- `write_all` of the first `len` bytes of a slot. Every call of the writer may
fail, be interrupted, or accept any number of bytes. -/
def writeAll (slot len : Nat) : IoProg Unit :=
  .loop 0 fun done =>
    if done < len then do
      let answer ← (.pick : SProg Nat)
      match answer with
      | 0 => .throw ⟨.other, "writer failed"⟩
      | 1 => return .inl done
      | 2 => .throw ⟨.writeZero, "failed to write whole buffer"⟩
      | n + 3 =>
        drainSlot slot done (min (n + 1) (len - done))
        return .inl (done + min (n + 1) (len - done))
    else
      return .inr ()

end Payload

/-! ## Checks of frames -/

section Checks

variable (dir : Direction)

/-- The generation of a chunk, if it is a 32-bit number. -/
def generationOf (index : Nat) : Except IoError Nat :=
  if index / dir.shape.slots + 1 ≤ U32_MAX then
    .ok (index / dir.shape.slots + 1)
  else
    .error (invalidData "stream generation exhausted")

def validateRelease (frame : Frame) (index : Nat) : Except IoError Unit := do
  let (offset, len, slot, generation) ← dir.shape.chunkMeta index
  if frame.kind = .released ∧ frame.flags = dir.flags ∧ frame.transferId = dir.transferId ∧
      frame.offset = .ofNat offset ∧ frame.slot = .ofNat slot ∧
      frame.generation = .ofNat generation ∧ frame.len = .ofNat len then
    .ok ()
  else
    .error (invalidData "RELEASED frame is invalid")

def validateDynamicRelease (frame : Frame) (index : Nat) : Except IoError Unit := do
  let generation ← generationOf dir index
  if frame.kind = .released ∧ frame.flags = dir.flags ∧ frame.transferId = dir.transferId ∧
      frame.slot = .ofNat (index % dir.shape.slots) ∧ frame.generation = .ofNat generation ∧
      0 < frame.len.toNat ∧ frame.len.toNat ≤ dir.shape.chunkBytes ∧
      frame.offset.toNat + frame.len.toNat < 2 ^ 64 ∧
      frame.offset.toNat + frame.len.toNat ≤ dir.shape.totalBytes then
    .ok ()
  else
    .error (invalidData "streaming RELEASED frame is invalid")

def validateComplete (frame : Frame) (aggregate : UInt64) : Except IoError Unit :=
  if frame.kind = .complete ∧ frame.flags = dir.flags ∧ frame.transferId = dir.transferId ∧
      frame.offset = .ofNat dir.shape.totalBytes ∧ frame.slot = 0 ∧ frame.generation = 0 ∧
      frame.len = 0 ∧ frame.checksum = aggregate then
    .ok ()
  else
    .error (invalidData "COMPLETE frame is invalid")

def validateDynamicComplete (frame : Frame) (total : Nat) (aggregate : UInt64) :
    Except IoError Unit :=
  if total ≤ dir.shape.totalBytes ∧ frame.kind = .complete ∧ frame.flags = dir.flags ∧
      frame.transferId = dir.transferId ∧ frame.offset = .ofNat total ∧ frame.slot = 0 ∧
      frame.generation = 0 ∧ frame.len = 0 ∧ frame.checksum = aggregate then
    .ok ()
  else
    .error (invalidData "streaming COMPLETE frame is invalid")

def dataFrame (offset slot generation len : Nat) (sum : UInt64) : Frame where
  kind := .data
  flags := dir.flags
  transferId := dir.transferId
  offset := .ofNat offset
  slot := .ofNat slot
  generation := .ofNat generation
  len := .ofNat len
  checksum := sum

def completeFrame (total : Nat) (aggregate : UInt64) : Frame where
  kind := .complete
  flags := dir.flags
  transferId := dir.transferId
  offset := .ofNat total
  slot := 0
  generation := 0
  len := 0
  checksum := aggregate

/-- `Arena::slot`, and the checksum of what is there. -/
def checkedChecksum (slot len : Nat) : IoProg UInt64 := do
  .ofExcept (checkSlot dir slot len)
  let sum ← slotChecksum slot len
  return sum

def validateChunk (frame : Frame) (index : Nat) : IoProg Unit := do
  let (offset, len, slot, generation) ← .ofExcept (dir.shape.chunkMeta index)
  let sum ← checkedChecksum dir slot len
  if frame = dataFrame dir offset slot generation len sum then
    return ()
  else
    .throw (invalidData "DATA frame or payload is invalid")

/-- The payload is looked at last, and only when the rest of the frame holds. -/
def validateDynamicChunk (frame : Frame) (index offset : Nat) : IoProg Unit := do
  let slot := index % dir.shape.slots
  let generation ← .ofExcept (generationOf dir index)
  if frame.kind = .data ∧ frame.flags = dir.flags ∧ frame.transferId = dir.transferId ∧
      frame.offset = .ofNat offset ∧ frame.slot = .ofNat slot ∧
      frame.generation = .ofNat generation ∧ 0 < frame.len.toNat ∧
      frame.len.toNat ≤ dir.shape.chunkBytes ∧ offset + frame.len.toNat < 2 ^ 64 ∧
      offset + frame.len.toNat ≤ dir.shape.totalBytes then
    let sum ← checkedChecksum dir slot frame.len.toNat
    if frame.checksum = sum then
      return ()
    else
      .throw (invalidData "streaming DATA frame or payload is invalid")
  else
    .throw (invalidData "streaming DATA frame or payload is invalid")

end Checks

/-! ## Transfers -/

section Transfer

variable (w : Nat) (dir : Direction) (input : List UInt8)

/-- The running checksum, the byte count and the chunk count of a transfer. -/
abbrev Sums := UInt64 × Nat × Nat

/-- Take the release of chunk `released`. -/
def takeRelease (check : Frame → Nat → Except IoError Unit) (released : Nat) : IoProg Nat := do
  let frame ← pop w dir .producer
  .ofExcept (check frame released)
  return released + 1

/-- Before chunk `index`, take a release if the window is used up. -/
def regain (check : Frame → Nat → Except IoError Unit) (index released : Nat) : IoProg Nat :=
  if index ≥ dir.shape.slots then takeRelease w dir check released else return released

/-- Take the releases that are still out. -/
def takeReleases (check : Frame → Nat → Except IoError Unit) : Nat → Nat → IoProg Unit
  | 0, _ => return ()
  | left + 1, released => do
    let released ← takeRelease w dir check released
    takeReleases check left released

/-- `produce`. -/
def produce : IoProg Sums := do
  let (released, aggregate) ← sendChunks dir.shape.chunks 0 0 0
  takeReleases w dir (validateRelease dir) (dir.shape.chunks - released) released
  push w dir .producer (completeFrame dir dir.shape.totalBytes aggregate)
  let echo ← pop w dir .producer
  .ofExcept (validateComplete dir echo aggregate)
  return (aggregate, dir.shape.totalBytes, dir.shape.chunks)
where
  sendChunks : Nat → Nat → Nat → UInt64 → IoProg (Nat × UInt64)
    | 0, _, released, aggregate => return (released, aggregate)
    | left + 1, index, released, aggregate => do
      let released ← regain w dir (validateRelease dir) index released
      let (offset, len, slot, generation) ← .ofExcept (dir.shape.chunkMeta index)
      let (_, sum) ← writeSlot dir (readExact input) slot len
      let frame := dataFrame dir offset slot generation len sum
      push w dir .producer frame
      sendChunks left (index + 1) released (foldChecksum aggregate frame)

/-- `consume`. -/
def consume : IoProg Sums := do
  let aggregate ← recvChunks dir.shape.chunks 0 0
  let complete ← pop w dir .consumer
  .ofExcept (validateComplete dir complete aggregate)
  push w dir .consumer complete
  return (aggregate, dir.shape.totalBytes, dir.shape.chunks)
where
  recvChunks : Nat → Nat → UInt64 → IoProg UInt64
    | 0, _, aggregate => return aggregate
    | left + 1, index, aggregate => do
      let frame ← pop w dir .consumer
      validateChunk dir frame index
      .ofExcept (checkSlot dir frame.slot.toNat frame.len.toNat)
      writeAll frame.slot.toNat frame.len.toNat
      push w dir .consumer { frame with kind := .released }
      recvChunks left (index + 1) (foldChecksum aggregate frame)

/-- The one byte past the ceiling, which must not be there. -/
def readExcess : IoProg Unit :=
  .loop () fun _ => do
    let answer ← (.pick : SProg Nat)
    match answer with
    | 0 => .throw ⟨.other, "reader failed"⟩
    | 1 => return .inl ()
    | n + 2 =>
      let got ← (.rmw .excess
        (fun s => { s with readPos := s.readPos + ((input.drop s.readPos).take (min n 1)).length })
        (fun s => ((input.drop s.readPos).take (min n 1)).length) : SProg Nat)
      if got = 0 then
        return .inr ()
      else
        .throw (invalidData "stream exceeded its byte ceiling")

/-- Where `produce_to_end` is: chunks sent, releases taken, bytes read, checksum. -/
structure Progress where
  chunks : Nat
  released : Nat
  total : Nat
  aggregate : UInt64

/-- `produce_to_end`. -/
def produceToEnd : IoProg Sums := do
  let p ← sendToEnd
  takeReleases w dir (validateDynamicRelease dir) (p.chunks - p.released) p.released
  push w dir .producer (completeFrame dir p.total p.aggregate)
  let echo ← pop w dir .producer
  .ofExcept (validateDynamicComplete dir echo p.total p.aggregate)
  return (p.aggregate, p.total, p.chunks)
where
  sendToEnd : IoProg Progress :=
    .loop ⟨0, 0, 0, 0⟩ fun p =>
      if p.total = dir.shape.totalBytes then do
        readExcess input
        return .inr p
      else do
        let released ← regain w dir (validateDynamicRelease dir) p.chunks p.released
        let slot := p.chunks % dir.shape.slots
        let generation ← .ofExcept (generationOf dir p.chunks)
        let (len, sum) ← writeSlot dir (readChunk input) slot
          (min (dir.shape.totalBytes - p.total) dir.shape.chunkBytes)
        if len = 0 then
          return .inr { p with released }
        else
          let frame := dataFrame dir p.total slot generation len sum
          push w dir .producer frame
          return .inl ⟨p.chunks + 1, released, p.total + len, foldChecksum p.aggregate frame⟩

/-- `consume_to_end`. -/
def consumeToEnd : IoProg Sums :=
  .loop (0, 0, 0) fun ((aggregate, total, chunks) : Sums) => do
    let frame ← pop w dir .consumer
    if frame.kind = .complete then
      .ofExcept (validateDynamicComplete dir frame total aggregate)
      push w dir .consumer frame
      return .inr (aggregate, total, chunks)
    else
      validateDynamicChunk dir frame chunks total
      .ofExcept (checkSlot dir frame.slot.toNat frame.len.toNat)
      writeAll frame.slot.toNat frame.len.toNat
      push w dir .consumer { frame with kind := .released }
      return .inl (foldChecksum aggregate frame, total + frame.len.toNat, chunks + 1)

end Transfer

/-! ## The system -/

structure TransferReport where
  totalBytes : Nat
  chunks : Nat
  checksum : UInt64
  residentBytes : Nat
deriving DecidableEq

/-- What an endpoint's call came to; `dropped` keeps it when the endpoint is gone. -/
inductive Outcome : Type
  | fresh
  | done (r : Except IoError TransferReport)
  | dropped (r : Option (Except IoError TransferReport))

/-- The result of the endpoint's call, if it made one. -/
def Outcome.result : Outcome → Option (Except IoError TransferReport)
  | fresh => none
  | done r => some r
  | dropped r => r

/-- The exact methods, or the ones that run to the end of the input. -/
inductive Op : Type
  | exact
  | toEnd
  | drop
deriving DecidableEq

/-- Closing or shutting down the control socket. -/
def close (a : Actor) : SProg Unit :=
  .store (.close a) fun s => { s with closed := Function.update s.closed a true }

def finishOrCancel (dir : Direction) (a : Actor) (call : IoProg Sums) : SProg Outcome :=
  Prog.bind call fun result => match result with
    | .ok (checksum, totalBytes, chunks) =>
      .ret (.done (.ok ⟨totalBytes, chunks, checksum, dir.shape.residentBytes⟩))
    | .error e => do
      close a
      return .done (.error e)

def transfer (w : Nat) (dir : Direction) (input : List UInt8) :
    Actor → Op → Outcome → SProg Outcome
  | .producer, .exact, _ => finishOrCancel dir .producer (produce w dir input)
  | .producer, .toEnd, _ => finishOrCancel dir .producer (produceToEnd w dir input)
  | .consumer, .exact, _ => finishOrCancel dir .consumer (consume w dir)
  | .consumer, .toEnd, _ => finishOrCancel dir .consumer (consumeToEnd w dir)
  | a, .drop, l => do
    close a
    return .dropped l.result

/-- Two endpoints, each making one transfer and then dropping its end. -/
def sys (w : Nat) (dir : Direction) (input : List UInt8) :
    Sys Actor Access Shared (fun _ => Outcome) where
  Op _ := Op
  can a o l s := !s.closed a && match o, l with
    | .drop, _ => true
    | _, .fresh => true
    | _, _ => false
  body a o l := transfer w dir input a o l

def start (s : Shared) : Config Actor Access Shared (fun _ => Outcome) where
  shared := s
  thr _ := .idle .fresh

end Prescient.Ipc
