import Prescient.Actor
import Prescient.Word

/-!
# Broadcast

One publisher and up to 64 readers on one ring (`mpmc/broadcast/mod.rs`). A
reader consumes by cloning a slot and storing its own cursor; the publisher
reuses a slot only when every gating reader has passed it, which it knows from
a cached minimum that it refreshes, under a lock, when the ring looks full.
Readers join and rejoin under the same lock.

Publisher and reader fields are private to their endpoint and are updated in the
access beside them. The fields from `log` on are history: `log` holds every value
written, by sequence number, the first `published` of them visible to readers;
`minSeq` and `cursorSeq` are the sequence numbers the wrapping words `minCache`
and `cursors` stand for; `got` is what a reader received since it was last
activated, at sequence `start`.
-/

namespace Prescient.Broadcast

/-- What `open` fixes. -/
structure Shape where
  cap : Nat
  mask : Nat
  maxReaders : Nat

/-- The declaration's checks, and the shape they lead to. -/
def «open» (w capacity batch maxReaders : Nat) : Except String Shape :=
  if capacity < 2 then
    .error "broadcast capacity must be at least two"
  else match checkedNextPowerOfTwo w capacity with
    | none => .error "channel capacity overflows its ring shape"
    | some cap =>
      if batch = 0 then
        .error "channel batch must be non-zero"
      else if 1 ≤ maxReaders ∧ maxReaders ≤ 64 then
        .ok { cap, mask := cap - 1, maxReaders }
      else
        .error "broadcast max_readers must be in 1..=64"

/-- Publisher, readers, and the callers of `subscribe`, which any endpoint may
lend itself to, several at a time. -/
inductive Actor : Type
  | publisher
  | reader (i : Nat)
  | minter (m : Nat)
deriving DecidableEq

/-- A reader is being made by a call of `subscribe`, then is live, then dropped. -/
inductive Life : Type
  | unborn
  | joining (m : Nat)
  | live
  | dropped
deriving DecidableEq

structure Shared (T : Type) where
  buf : Nat → Option T
  w : Nat
  membershipScan : Bool
  readers : BitVec 64
  owned : BitVec 64
  cursors : Nat → Nat
  producerGone : Bool
  /-- `Publisher::w` and `Publisher::min_cache`. -/
  pubW : Nat
  minCache : Nat
  /-- The readers made so far are those below `born`. -/
  born : Nat
  life : Nat → Life
  bit : Nat → Nat
  r : Nat → Nat
  suspended : Nat → Bool
  log : List T
  published : Nat
  minSeq : Nat
  cursorSeq : Nat → Nat
  start : Nat → Nat
  got : Nat → List T
  owner : Nat → Option Nat
  holder : Option Actor

/-- The accesses. `write i` and `read i` touch slot `i`; `lapped` is the store of
the branch that skips a lapped reader. -/
inductive Access : Type
  | lock | unlock
  | loadW | storeW
  | write (i : Nat)
  | read (i : Nat)
  | readers | owned
  | cursor (b : Nat)
  | lapped
  | producerGone
  | own (a : Actor)
deriving DecidableEq

variable {T : Type}

def Shared.open (T : Type) : Shared T where
  buf _ := none
  w := 0
  membershipScan := false
  readers := single 0
  owned := single 0
  cursors _ := 0
  producerGone := false
  pubW := 0
  minCache := 0
  born := 1
  life i := if i = 0 then .live else .unborn
  bit _ := 0
  r _ := 0
  suspended _ := false
  log := []
  published := 0
  minSeq := 0
  cursorSeq _ := 0
  start _ := 0
  got _ := []
  owner b := if b = 0 then some 0 else none
  holder := none

abbrev CProg (T : Type) := Prog Access (Shared T)

/-! ## The lock and activation -/

/-- `ColdLock::lock`. -/
def lock (a : Actor) : CProg T Unit :=
  .await .lock (fun s => !s.membershipScan) fun s =>
    { s with membershipScan := true, holder := some a }

def unlock : CProg T Unit :=
  .store .unlock fun s => { s with membershipScan := false, holder := none }

/-- The published position: the word, and the sequence number it stands for. -/
def loadW : CProg T (Nat × Nat) := .load .loadW fun s => (s.w, s.published)

/-- `activate_reader`, for reader `i`. The new position is the reader's own as
soon as its bit is set. -/
def activateReader (a : Actor) (i : Nat) : CProg T Unit := do
  lock a
  let (now, seq) ← loadW
  let b ← .load (.own a) fun s => s.bit i
  .store (.cursor b) fun s =>
    { s with
      cursors := Function.update s.cursors b now
      cursorSeq := Function.update s.cursorSeq b seq }
  .store .readers fun s =>
    { s with
      readers := s.readers ||| single b
      r := Function.update s.r i now
      suspended := Function.update s.suspended i false
      start := Function.update s.start i seq
      got := Function.update s.got i [] }
  unlock

/-! ## The publisher -/

section Publisher

variable (w : Nat) (sh : Shape)

/-- The scan of `slowest` from cursor `i` on, with the least position and the
greatest lag so far. -/
def slowestFrom (bits : BitVec 64) (pos : Nat) : Nat → Nat → Nat → Nat → CProg T Nat
  | 0, _, min, _ => .ret min
  | left + 1, i, min, maxLag =>
    if bits.getLsbD i then do
      let cursor ← .load (.cursor i) fun s => s.cursors i
      let lag := wsub w pos cursor
      if lag > maxLag then
        slowestFrom bits pos left (i + 1) cursor lag
      else
        slowestFrom bits pos left (i + 1) min maxLag
    else
      slowestFrom bits pos left (i + 1) min maxLag

def slowest (pos : Nat) : CProg T Nat := do
  let bits ← .load .readers fun s => s.readers
  slowestFrom w bits pos sh.maxReaders 0 pos 0

def refreshSlowest (pos : Nat) : CProg T Unit := do
  lock .publisher
  let min ← slowest w sh pos
  .store (.own .publisher) fun s =>
    { s with minCache := min, minSeq := s.log.length - wsub w s.pubW min }
  unlock

/-- Whether the ring looks full from the cached minimum, and the position. -/
def looksFull : CProg T (Bool × Nat) :=
  .load (.own .publisher) fun s => (decide (wsub w s.pubW s.minCache ≥ sh.cap), s.pubW)

/-- Write the next slot and advance the private position. -/
def writeSlot (pos : Nat) (v : T) : CProg T Unit :=
  .store (.write (pos &&& sh.mask)) fun s =>
    { s with
      buf := Function.update s.buf (pos &&& sh.mask) (some v)
      pubW := wadd w s.pubW 1
      log := s.log ++ [v] }

/-- Publish everything written. -/
def storeW : CProg T Unit :=
  .store .storeW fun s => { s with w := s.pubW, published := s.log.length }

/-- `try_send`: whether the value was published. -/
def trySend (v : T) : CProg T Bool := do
  let (full, pos) ← looksFull w sh
  if full then
    refreshSlowest w sh pos
    let (full, pos) ← looksFull w sh
    if full then return false else put pos
  else
    put pos
where
  put (pos : Nat) : CProg T Bool := do
    writeSlot w sh pos v
    storeW
    return true

def send (v : T) : CProg T Unit :=
  .loop () fun _ => do
    let ok ← trySend w sh v
    return if ok then .inr () else .inl ()

/-- `PublishCommit::publish`. -/
def publish (dirty : Bool) : CProg T Unit := if dirty then storeW else .ret ()

/-- The wait of `send_batch` for a free slot: the position to write, and whether
unpublished values are left behind it. -/
def awaitSlot (dirty : Bool) : CProg T (Nat × Bool) :=
  .loop dirty fun dirty => do
    let (full, pos) ← looksFull w sh
    if full then
      publish dirty
      refreshSlowest w sh pos
      return .inl false
    else
      return .inr (pos, dirty)

/-- `send_batch`: whether it ran to the end. The iterator may panic before a
value, and the destructor of a replaced value after one; what was written is
published on every way out. -/
def sendBatch (values : List T) : CProg T Bool := each values false
where
  each : List T → Bool → CProg T Bool
    | [], dirty => do
      publish dirty
      return true
    | v :: vs, dirty => do
      let panics ← .pick
      if panics = 0 then
        publish dirty
        return false
      else
        let (pos, _) ← awaitSlot w sh dirty
        writeSlot w sh pos v
        let panics ← .pick
        if panics = 0 then
          publish true
          return false
        else
          each vs true

/-- `Drop for Publisher`. -/
def dropPublisher : CProg T Unit := .store .producerGone fun s => { s with producerGone := true }

end Publisher

/-! ## Readers -/

section Reader

variable (w : Nat) (sh : Shape) (i : Nat)

/-- The reader's bit and position. -/
def loadOwn : CProg T (Nat × Nat) := .load (.own (.reader i)) fun s => (s.bit i, s.r i)

def isSuspended : CProg T Bool := .load (.own (.reader i)) fun s => s.suspended i

/-- Skip to the published position: the branch for a lapped reader. -/
def skipTo (b pos : Nat) : CProg T Unit :=
  .store .lapped fun s =>
    { s with
      cursors := Function.update s.cursors b pos
      r := Function.update s.r i pos }

/-- Clone the slot at the reader's position and advance. Cloning may panic, which
leaves the position where it was. -/
def cloneSlot (pos : Nat) : CProg T (Option (Option T)) := do
  let panics ← .pick
  if panics = 0 then
    return none
  else
    let v ← .rmw (.read (pos &&& sh.mask))
      (fun s =>
        { s with
          r := Function.update s.r i (wadd w (s.r i) 1)
          got := Function.update s.got i (s.got i ++ (s.buf (pos &&& sh.mask)).toList) })
      fun s => s.buf (pos &&& sh.mask)
    return some v

/-- Store the cursor at the reader's position. -/
def storeCursor (b : Nat) : CProg T Unit :=
  .store (.cursor b) fun s =>
    { s with
      cursors := Function.update s.cursors b (s.r i)
      cursorSeq := Function.update s.cursorSeq b (s.start i + (s.got i).length) }

/-- What a receiving call came to. -/
inductive Recvd (T : Type) : Type
  | fresh
  | val (v : Option T)
  | count (n : Nat)
  | nothing
  | unwound
  | ended

def tryRecv : CProg T (Recvd T) := do
  let off ← isSuspended i
  if off then
    return .nothing
  else
    let (b, pos) ← loadOwn i
    let (now, _) ← loadW
    if pos = now then
      return .nothing
    else if wsub w now pos > sh.cap then
      skipTo i b now
      return .nothing
    else
      let v ← cloneSlot w sh i pos
      match v with
      | none => return .unwound
      | some v =>
        storeCursor i b
        return .val v

/-- `drain`: the values delivered. The cursor is stored once, on every way out. -/
def drain (panics : Nat → Bool) (max : Nat) : CProg T (Recvd T) := do
  let off ← isSuspended i
  if off then
    return .count 0
  else
    let (b, pos) ← loadOwn i
    let (now, _) ← loadW
    if pos = now then
      return .count 0
    else if wsub w now pos > sh.cap then
      skipTo i b now
      return .count 0
    else
      visit b (min (wsub w now pos) max) pos 0
where
  visit (b : Nat) : Nat → Nat → Nat → CProg T (Recvd T)
    | 0, _, done => do
      storeCursor i b
      return .count done
    | left + 1, pos, done => do
      let v ← cloneSlot w sh i pos
      let answer ← .pick
      if v.isNone || panics answer then
        storeCursor i b
        return .unwound
      else
        visit b left (wadd w pos 1) (done + 1)

/-- `producer_gone && r == w`. -/
def isDisconnected : CProg T Bool := do
  let gone ← .load .producerGone fun s => s.producerGone
  if gone then
    let (_, pos) ← loadOwn i
    let (now, _) ← loadW
    return decide (pos = now)
  else
    return false

def recv : CProg T (Recvd T) :=
  .loop () fun _ => do
    let r ← tryRecv w sh i
    match r with
    | .nothing =>
      let off ← isSuspended i
      if off then
        return .inr .nothing
      else
        let done ← isDisconnected i
        return if done then .inr .ended else .inl ()
    | r => return .inr r

def forEach (panics : Nat → Bool) (batch : Nat) : CProg T (Recvd T) :=
  .loop () fun _ => do
    let r ← drain w sh i panics (max batch 1)
    match r with
    | .count 0 =>
      let done ← isDisconnected i
      return if done then .inr .ended else .inl ()
    | .count _ => return .inl ()
    | r => return .inr r

def suspend : CProg T Unit := do
  let off ← isSuspended i
  if off then
    return ()
  else
    let (b, _) ← loadOwn i
    .store .readers fun s =>
      { s with
        readers := s.readers &&& ~~~ single b
        suspended := Function.update s.suspended i true }

def resume : CProg T Unit := do
  let off ← isSuspended i
  if off then activateReader (.reader i) i else return ()

/-- `Drop for Reader`: the gate first, then the slot. -/
def dropReader : CProg T Unit := do
  let (b, _) ← loadOwn i
  .store .readers fun s => { s with readers := s.readers &&& ~~~ single b }
  .store .owned fun s =>
    { s with
      owned := s.owned &&& ~~~ single b
      owner := Function.update s.owner b none
      life := Function.update s.life i .dropped }

end Reader

/-- `subscribe`: the reader made, if a cursor slot was free. -/
def subscribe (sh : Shape) (m : Nat) : CProg T (Option Nat) :=
  .loop () fun _ => do
    let bits ← .load .owned fun s => s.owned
    match (List.range sh.maxReaders).find? fun b => !bits.getLsbD b with
    | none => return .inr none
    | some b =>
      let (won, i) ← .rmw .owned
        (fun s => if s.owned = bits then
          { s with
            owned := bits ||| single b
            owner := Function.update s.owner b (some s.born)
            bit := Function.update s.bit s.born b
            life := Function.update s.life s.born (.joining m)
            born := s.born + 1 } else s)
        fun s => (decide (s.owned = bits), s.born)
      if won then
        activateReader (.minter m) i
        .store (.own (.minter m)) fun s => { s with life := Function.update s.life i .live }
        return .inr (some i)
      else
        return .inl ()

/-! ## The system -/

abbrev Last (T : Type) : Actor → Type
  | .publisher => Option Bool
  | .reader _ => Recvd T
  | .minter _ => Option Nat

inductive SendOp (T : Type) : Type
  | trySend (v : T)
  | send (v : T)
  | sendBatch (values : List T)
  | drop

inductive RecvOp : Type
  | tryRecv
  | drain (panics : Nat → Bool) (max : Nat)
  | recv
  | forEach (panics : Nat → Bool) (batch : Nat)
  | suspend
  | resume
  | drop

def sendBody (w : Nat) (sh : Shape) : SendOp T → CProg T (Option Bool)
  | .trySend v => do return some (← trySend w sh v)
  | .send v => do
    send w sh v
    return some true
  | .sendBatch values => do return some (← sendBatch w sh values)
  | .drop => do
    dropPublisher
    return none

def recvBody (w : Nat) (sh : Shape) (i : Nat) (last : Recvd T) : RecvOp → CProg T (Recvd T)
  | .tryRecv => tryRecv w sh i
  | .drain panics max => drain w sh i panics max
  | .recv => recv w sh i
  | .forEach panics batch => forEach w sh i panics batch
  | .suspend => do
    suspend i
    return last
  | .resume => do
    resume i
    return last
  | .drop => do
    dropReader i
    return last

def sys (T : Type) (w : Nat) (sh : Shape) : Sys Actor Access (Shared T) (Last T) where
  Op
    | .publisher => SendOp T
    | .reader _ => RecvOp
    | .minter _ => Unit
  can
    | .publisher, _, _, s => !s.producerGone
    | .reader i, _, _, s => decide (s.life i = .live)
    | .minter _, _, _, _ => true
  body
    | .publisher, o, _ => sendBody w sh o
    | .reader i, o, last => recvBody w sh i last o
    | .minter m, _, _ => subscribe sh m

def init (T : Type) : Config Actor Access (Shared T) (Last T) where
  shared := .open T
  thr
    | .publisher => .idle none
    | .reader _ => .idle .fresh
    | .minter _ => .idle none

end Prescient.Broadcast
