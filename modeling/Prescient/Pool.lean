import Prescient.RingFifo

/-!
# The slots of a producer pool

The pool tier of `mpsc/chan.rs` and `mpsc/pool.rs`: up to 64 rings, a bitmap of the free
ones, and one cell for each ring that holds its sender while the ring is free. Any
number of users claim senders, send and drop them; the one receiver drains the rings
and, when a ring's sender is gone and the ring is drained, resets the ring in place,
writes a new sender into the cell and frees the bit. Every ring is the ring of
`backend/ring.rs`, access by access.

The fields from `seat` on are history: where the one sender of a ring is, and what was
accepted and moved out in the tenancies that are over. The count of live senders, the
waits and the drop of the receiver are left out: no program here reads them.
-/

namespace Prescient.Pool

open Prescient.Ring (Inner Sender Receiver RProg PushOp PopOp)

variable {T : Type}

/-- A sender, and the ring its reference is to. -/
structure Tx (T : Type) where
  ring : Nat
  sender : Sender T

/-- Where the sender of a ring is: in its cell with the bit set, in its cell for the
user that cleared the bit, with a user, nowhere, being made by the receiver, or in its
cell with the bit still clear. -/
inductive Seat : Type
  | slot
  | claimed (k : Nat)
  | user (k : Nat)
  | gone
  | making
  | placed
deriving DecidableEq

structure Shared (T : Type) where
  free : BitVec 64
  cell : Nat → Option (Tx T)
  inner : Nat → Inner T
  /-- The strong count of a ring: the receiver's reference and the senders'. -/
  refs : Nat → Nat
  producerGone : Nat → Bool
  seat : Nat → Seat
  past : Nat → List (List T × List (Option T))

inductive Access : Type
  | free
  | slot (i : Nat)
  | ring (i : Nat) (e : Ring.Access)
  | refs (i : Nat)
  | producerGone (i : Nat)
deriving DecidableEq

inductive Actor : Type
  | receiver
  | user (k : Nat)
deriving DecidableEq

abbrev PProg (T : Type) := Prog Access (Shared T)

def Shared.setInner (s : Shared T) (i : Nat) (x : Inner T) : Shared T :=
  { s with inner := Function.update s.inner i x }

def Shared.setSeat (s : Shared T) (i : Nat) (x : Seat) : Shared T :=
  { s with seat := Function.update s.seat i x }

/-- A call on ring `i`. -/
def onRing {α : Type} (i : Nat) (p : RProg T α) : PProg T α :=
  p.lift (.ring i) (fun s => s.inner i) fun s x => s.setInner i x

/-! ## Users -/

/-- A user: without a sender, with one, or past the `expect` of `claim`. -/
inductive User (T : Type) : Type
  | idle
  | holds (tx : Tx T)
  | panicked

/-- `1u64 << i`. -/
def single (i : Nat) : BitVec 64 := 1#64 <<< i

/-- `claim`: the exchange may fail for no reason, and the cell of the bit it cleared is
expected to hold a sender. -/
def claim (k : Nat) : PProg T (User T) :=
  .loop () fun _ => do
    let cur ← .load .free fun s => s.free
    if cur = 0 then
      return .inr .idle
    else
      let bit := cur.ctz.toNat
      let answer ← .pick
      let won ← .rmw .free
        (fun s => if answer ≠ 0 ∧ s.free = cur then
          { s.setSeat bit (.claimed k) with free := cur &&& ~~~ single bit } else s)
        fun s => decide (answer ≠ 0 ∧ s.free = cur)
      if won then
        let tx ← .rmw (.slot bit)
          (fun s => { s.setSeat bit (.user k) with cell := Function.update s.cell bit none })
          fun s => s.cell bit
        return .inr (match tx with
          | some tx => .holds tx
          | none => .panicked)
      else
        return .inl ()

section Send

variable (w : Nat) (proto : Inner T)

def sendCall (snd : Sender T) : PushOp T → RProg T (Sender T)
  | .tryPush item => Ring.tryPush w proto snd item
  | .pushFrom max source => Ring.pushFrom w proto snd max source

/-- A send on a sender's ring. -/
def send (tx : Tx T) (op : PushOp T) : PProg T (User T) := do
  let snd ← onRing tx.ring (sendCall w proto tx.sender op)
  return .holds ⟨tx.ring, snd⟩

end Send

/-- `Drop` for the sender of a producer: the flag, and then the reference. -/
def dropTx (tx : Tx T) : PProg T (User T) := do
  .store (.producerGone tx.ring) fun s =>
    { s with producerGone := Function.update s.producerGone tx.ring true }
  .store (.refs tx.ring) fun s =>
    { s.setSeat tx.ring .gone with refs := Function.update s.refs tx.ring (s.refs tx.ring - 1) }
  return .idle

/-! ## The receiver -/

/-- The receiving halves of the rings. -/
abbrev Shards (T : Type) := Nat → Receiver T

section Receive

variable (w : Nat) (proto : Inner T)

def recvCall (rcv : Receiver T) : PopOp → RProg T (Receiver T)
  | .tryPop => Ring.tryPop w proto rcv
  | .drainInto max => Ring.drainInto w proto rcv max
  | .drainInPlace max => Ring.drainInPlace w proto rcv max

/-- A drain of one shard. -/
def drain (shards : Shards T) (i : Nat) (op : PopOp) : PProg T (Shards T) := do
  let rcv ← onRing i (recvCall w proto (shards i) op)
  return Function.update shards i rcv

end Receive

/-- `is_finished`. -/
def isFinished (i : Nat) : PProg T Bool := do
  let gone ← .load (.producerGone i) fun s => s.producerGone i
  if gone then
    let head ← .load (.ring i .loadHead) fun s => (s.inner i).head
    let tail ← .load (.ring i .loadTail) fun s => (s.inner i).tail
    return decide (head = tail)
  else
    return false

/-- `Receiver::recycle`, if the receiver holds the only reference. The history of the
tenancy that ends is put away with the cursors. -/
def recycle (i : Nat) : PProg T (Option (Tx T)) := do
  let refs ← .rmw (.refs i) (fun s => if s.refs i = 1 then s.setSeat i .making else s)
    fun s => s.refs i
  if refs = 1 then
    .store (.ring i .storeHead) fun s => s.setInner i { s.inner i with head := 0 }
    .store (.ring i .storeTail) fun s =>
      { s.setInner i { s.inner i with tail := 0, accepted := [], consumed := [], released := 0 } with
        past := Function.update s.past i
          (s.past i ++ [((s.inner i).accepted, (s.inner i).consumed)]) }
    .store (.producerGone i) fun s =>
      { s with producerGone := Function.update s.producerGone i false }
    .store (.refs i) fun s => { s with refs := Function.update s.refs i (s.refs i + 1) }
    return some ⟨i, { headCache := 0, last := .fresh }⟩
  else
    return none

/-- `recycle_slot`. -/
def recycleSlot (i : Nat) (tx : Tx T) : PProg T Unit := do
  .store (.slot i) fun s =>
    { s.setSeat i .placed with cell := Function.update s.cell i (some tx) }
  .store .free fun s => { s.setSeat i .slot with free := s.free ||| single i }

/-- A finished shard is disposed of: `PoolState::dispose`. -/
def settle (shards : Shards T) (i : Nat) : PProg T (Shards T) := do
  let finished ← isFinished i
  if finished then
    let tx ← recycle i
    match tx with
    | some tx =>
      recycleSlot i tx
      return Function.update shards i { tailCache := 0, last := .fresh }
    | none => return shards
  else
    return shards

/-! ## The system -/

inductive UserOp (T : Type) : Type
  | claim
  | send (op : PushOp T)
  | drop

inductive RecvOp : Type
  | drain (i : Nat) (op : PopOp)
  | settle (i : Nat)

abbrev Local (T : Type) : Actor → Type
  | .receiver => Shards T
  | .user _ => User T

/-- Users that claim, send and drop, and the receiver of `n` shards that drains and
disposes of any of them in any order. -/
def sys (w n : Nat) (proto : Inner T) : Sys Actor Access (Shared T) (Local T) where
  Op
    | .receiver => RecvOp
    | .user _ => UserOp T
  can
    | .receiver, .drain i _, _, _ => decide (i < n)
    | .receiver, .settle i, _, _ => decide (i < n)
    | .user _, .claim, .idle, _ => true
    | .user _, .send _, .holds _, _ => true
    | .user _, .drop, .holds _, _ => true
    | .user _, _, _, _ => false
  body
    | .receiver, .drain i op, shards => drain w proto shards i op
    | .receiver, .settle i, shards => settle shards i
    | .user k, .claim, _ => claim k
    | .user _, .send op, .holds tx => send w proto tx op
    | .user _, .drop, .holds tx => dropTx tx
    | .user _, _, u => .ret u

/-- `PoolSlots::new`: every bit of the `n` rings is set, and every cell holds a sender. -/
def init (n : Nat) (proto : Inner T) : Config Actor Access (Shared T) (Local T) where
  shared :=
    { free := if n ≥ 64 then BitVec.allOnes 64 else single n - 1
      cell := fun i => if i < n then some ⟨i, { headCache := 0, last := .fresh }⟩ else none
      inner := fun _ => proto
      refs := fun _ => 2
      producerGone := fun _ => false
      seat := fun _ => .slot
      past := fun _ => [] }
  thr
    | .receiver => .idle fun _ => { tailCache := 0, last := .fresh }
    | .user _ => .idle .idle

end Prescient.Pool
