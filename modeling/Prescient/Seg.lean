import Prescient.Actor
import Prescient.Links

/-!
# The segmented backend

The unbounded queue of `backend/seg.rs`. Values live in segments of a fixed size. The
producer fills its segment and links a fresh one when it runs out; the consumer frees a
segment when it moves past it, after storing the next one as the head of the chain. The
last endpoint to go runs `Drop for Shared`, which walks the chain from the head.

Segments are numbered as they are allocated. The endpoints' fields (`tx`, `rx`) are
private to them and are updated in the access beside them; `txHeld` and `rxHeld` are
their shares of the `Arc`. The fields from `allocated` on are history: `accepted` is
what was published, `taken` what the consumer moved out and `destroyed` what
`Drop for Shared` dropped, a slot that was never written being `none`; `finishedAt` is
how much was moved out when `is_finished` first answered yes.
-/

namespace Prescient.Seg

structure Segment (T : Type) where
  buf : Nat → Option T
  published : Nat
  consumed : Nat
  next : Option Nat

/-- An endpoint's segment, and its index in it. -/
structure Cursor where
  seg : Nat
  idx : Nat
deriving DecidableEq

structure Shared (T : Type) where
  seg : Nat → Segment T
  head : Nat
  producerGone : Bool
  consumerGone : Bool
  tx : Cursor
  rx : Cursor
  txHeld : Bool
  rxHeld : Bool
  /-- `Drop for Shared` has begun. -/
  dropped : Bool
  allocated : Nat
  freed : List Nat
  accepted : List T
  taken : List (Option T)
  destroyed : List (Option T)
  finishedAt : Option Nat

/-- What is touched in a segment. -/
inductive Field : Type
  | next | published | consumed
  | write (i : Nat)
  | read (i : Nat)
  | destroy (i : Nat)
deriving DecidableEq

inductive Access : Type
  | seg (k : Nat) (f : Field)
  | alloc
  | free (k : Nat)
  | head
  | producerGone | consumerGone
  | own
  | release
  | drop
deriving DecidableEq

variable {T : Type}

/-- `Segment::boxed`. -/
def Segment.boxed (T : Type) : Segment T where
  buf _ := none
  published := 0
  consumed := 0
  next := none

/-- The queue a chain stands for: what was accepted and not yet moved out. -/
def Shared.queue (s : Shared T) : List T := s.accepted.drop s.taken.length

/-- Whether there is nothing to read at this moment. -/
def Shared.isEmpty (s : Shared T) : Bool := s.queue.isEmpty

abbrev SProg (T : Type) := Prog Access (Shared T)

/-- Update segment `k`. -/
def Shared.setSeg (s : Shared T) (k : Nat) (x : Segment T) : Shared T :=
  { s with seg := Function.update s.seg k x }

section Code

variable (size : Nat)

/-! ## The producer -/

/-- `SegTx::try_push`: whether the value was accepted. -/
def tryPush (v : T) : SProg T Bool := do
  let gone ← .load .consumerGone fun s => s.consumerGone
  if gone then
    return false
  else
    let tx ← .load .own fun s => s.tx
    if tx.idx = size then
      let new ← .rmw .alloc
        (fun s => { s.setSeg s.allocated (.boxed T) with allocated := s.allocated + 1 })
        fun s => s.allocated
      .store (.seg tx.seg .next) fun s =>
        { s.setSeg tx.seg { s.seg tx.seg with next := some new } with tx := ⟨new, 0⟩ }
      put ⟨new, 0⟩
    else
      put tx
where
  put (tx : Cursor) : SProg T Bool := do
    .store (.seg tx.seg (.write tx.idx)) fun s =>
      { s.setSeg tx.seg
          { s.seg tx.seg with buf := Function.update (s.seg tx.seg).buf tx.idx (some v) } with
        tx := ⟨tx.seg, tx.idx + 1⟩ }
    .store (.seg tx.seg .published) fun s =>
      { s.setSeg tx.seg { s.seg tx.seg with published := tx.idx + 1 } with
        accepted := s.accepted ++ [v] }
    return true

/-- `Drop for SegTx`, and the release of its `Arc`. -/
def dropTx : SProg T Unit := do
  .store .producerGone fun s => { s with producerGone := true }
  .store .release fun s => { s with txHeld := false }

/-! ## The consumer -/

/-- `SegRx::advance`: whether there was a next segment, and if not whether the queue was
empty when that was looked up. -/
def advance (k : Nat) : SProg T (Bool × Bool) := do
  let (next, empty) ← .load (.seg k .next) fun s => ((s.seg k).next, s.isEmpty)
  match next with
  | none => return (false, empty)
  | some n =>
    .store .head fun s => { s with head := n }
    .store (.free k) fun s => { s with freed := s.freed ++ [k], rx := ⟨n, 0⟩ }
    return (true, empty)

/-- The values published in a segment, and whether the queue was empty. -/
def loadPublished (k : Nat) : SProg T (Nat × Bool) :=
  .load (.seg k .published) fun s => ((s.seg k).published, s.isEmpty)

/-- Move the value at the consumer's index out. -/
def readSlot (rx : Cursor) : SProg T (Option T) :=
  .rmw (.seg rx.seg (.read rx.idx))
    (fun s =>
      { s with
        taken := s.taken ++ [(s.seg rx.seg).buf rx.idx]
        rx := ⟨rx.seg, rx.idx + 1⟩ })
    fun s => (s.seg rx.seg).buf rx.idx

/-- How the consumer's latest call ended. `empty` is what its last load saw. -/
inductive Popped (T : Type) : Type
  | fresh
  | val (v : Option T)
  | none (empty : Bool)
  | drained (done : Nat)
  | unwound
  | isEmpty (answer empty : Bool)
  | isFinished (answer : Bool)

def loadRx : SProg T Cursor := .load .own fun s => s.rx

def tryPop : SProg T (Popped T) :=
  .loop () fun _ => do
    let rx ← loadRx
    if rx.idx = size then
      let (moved, empty) ← advance rx.seg
      return if moved then .inl () else .inr (.none empty)
    else
      let (published, empty) ← loadPublished rx.seg
      if rx.idx < published then
        let v ← readSlot rx
        return .inr (.val v)
      else
        return .inr (.none empty)

/-- `drain_in_place`. The callback may panic at any item, after it was moved out. -/
def drainInPlace (max : Nat) : SProg T (Popped T) :=
  .loop 0 fun done => do
    if done < max then
      let rx ← loadRx
      if rx.idx = size then
        let (moved, _) ← advance rx.seg
        if moved then round done else return .inr (.drained done)
      else
        round done
    else
      return .inr (.drained done)
where
  round (done : Nat) : SProg T (Nat ⊕ Popped T) := do
    let rx ← loadRx
    let (published, _) ← loadPublished rx.seg
    if rx.idx ≥ published then
      return .inr (.drained done)
    else
      visit (min (published - rx.idx) (max - done)) rx done
  visit : Nat → Cursor → Nat → SProg T (Nat ⊕ Popped T)
    | 0, _, done => .ret (.inl done)
    | left + 1, rx, done => do
      let _ ← readSlot rx
      let panics ← .pick
      if panics = 0 then
        return .inr .unwound
      else
        visit left ⟨rx.seg, rx.idx + 1⟩ (done + 1)

/-- `is_empty`, with whether the queue was empty at its last load. -/
def isEmpty : SProg T (Bool × Bool) := do
  let rx ← loadRx
  let (published, empty) ← loadPublished rx.seg
  if rx.idx < published then
    return (false, empty)
  else if rx.idx = size then
    let (next, empty) ← .load (.seg rx.seg .next) fun s => ((s.seg rx.seg).next, s.isEmpty)
    match next with
    | none => return (true, empty)
    | some n =>
      let (published, empty) ← loadPublished n
      return (decide (published = 0), empty)
  else
    return (true, empty)

def isFinished : SProg T Bool := do
  let gone ← .load .producerGone fun s => s.producerGone
  if gone then
    let (answer, _) ← isEmpty size
    if answer then
      .store .own fun s => { s with finishedAt := s.finishedAt <|> some s.taken.length }
      return true
    else
      return false
  else
    return false

/-- `Drop for SegRx`, and the release of its `Arc`. -/
def dropRx : SProg T Unit := do
  let rx ← loadRx
  .store (.seg rx.seg .consumed) fun s => s.setSeg rx.seg { s.seg rx.seg with consumed := rx.idx }
  .store .consumerGone fun s => { s with consumerGone := true }
  .store .release fun s => { s with rxHeld := false }

/-! ## The drop of the shared state -/

/-- `Drop for Shared`, once both endpoints have let go. -/
def dropShared : SProg T Bool := do
  .store .drop fun s => { s with dropped := true }
  let p ← .load .head fun s => s.head
  .loop (some p) walk
where
  walk : Option Nat → SProg T (Option Nat ⊕ Bool)
    | none => .ret (.inr true)
    | some k => do
      let start ← .load (.seg k .consumed) fun s => (s.seg k).consumed
      let stop ← .load (.seg k .published) fun s => (s.seg k).published
      destroy k (stop - start) start
      let next ← .load (.seg k .next) fun s => (s.seg k).next
      .store (.free k) fun s => { s with freed := s.freed ++ [k] }
      return .inl next
  destroy (k : Nat) : Nat → Nat → SProg T Unit
    | 0, _ => .ret ()
    | left + 1, i => do
      .store (.seg k (.destroy i)) fun s => { s with destroyed := s.destroyed ++ [(s.seg k).buf i] }
      destroy k left (i + 1)

end Code

/-! ## The system -/

inductive Party : Type
  | tx | rx | shared
deriving DecidableEq

inductive SendOp (T : Type) : Type
  | tryPush (v : T)
  | drop

inductive RecvOp : Type
  | tryPop
  | drainInPlace (max : Nat)
  | isEmpty
  | isFinished
  | drop

/-- The producer's latest answer, the consumer's, and whether `Drop for Shared` is done. -/
abbrev Last (T : Type) : Party → Type
  | .tx => Option Bool
  | .rx => Popped T
  | .shared => Bool

def recvBody (size : Nat) (last : Popped T) : RecvOp → SProg T (Popped T)
  | .tryPop => tryPop size
  | .drainInPlace max => drainInPlace size max
  | .isEmpty => do
    let (answer, empty) ← isEmpty size
    return .isEmpty answer empty
  | .isFinished => do return .isFinished (← isFinished size)
  | .drop => do
    dropRx
    return last

def sys (T : Type) (size : Nat) : Sys Party Access (Shared T) (Last T) where
  Op
    | .tx => SendOp T
    | .rx => RecvOp
    | .shared => Unit
  can
    | .tx, _, _, s => s.txHeld
    | .rx, _, _, s => s.rxHeld
    | .shared, _, _, s => !s.txHeld && !s.rxHeld && !s.dropped
  body
    | .tx, .tryPush v, _ => do return some (← tryPush size v)
    | .tx, .drop, last => do
      dropTx
      return last
    | .rx, o, last => recvBody size last o
    | .shared, _, _ => dropShared

/-- `Seg::channel`: the size of its segments. -/
def channel (capacity : Nat) : Nat := max capacity 2

def init (T : Type) : Config Party Access (Shared T) (Last T) where
  shared :=
    { seg := fun _ => .boxed T
      head := 0
      producerGone := false
      consumerGone := false
      tx := ⟨0, 0⟩
      rx := ⟨0, 0⟩
      txHeld := true
      rxHeld := true
      dropped := false
      allocated := 1
      freed := []
      accepted := []
      taken := []
      destroyed := []
      finishedAt := none }
  thr
    | .tx => .idle none
    | .rx => .idle .fresh
    | .shared => .idle false

end Prescient.Seg
