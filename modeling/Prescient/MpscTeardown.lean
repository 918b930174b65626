import Prescient.MpscDelivery

/-!
# Dropping an MPSC receiver

The drop of the receiver of `mpsc/chan.rs`, for every tier, and the sends of single
values beside it. The receiver closes the shards in its vector and gives up its share of
the inbox (`DynamicState`); the other shares are the registrars', and whoever gives up the
last one closes the shards that are still in there.

`World` adds the shares (`owners`) to a channel. `freed`, `fate` and `tries` are history
that no program reads: that the inbox is gone with the shards in it, how far the receiver's
drop is, and every try of a send, with what held when it began.

Left out: the values a closed ring destroys, the rings parked for reuse, whose senders are
gone, and the waiter of a pending send, which `AsyncSend` has.
-/

namespace Prescient.Mpsc.Teardown

variable {T : Type}

/-! ## State -/

/-- Who has a share of the inbox. In a channel without one nobody gives its share up. -/
inductive Owner : Type
  | receiver
  | handle (h : Nat)
deriving DecidableEq

/-- How far the drop of the receiver is. -/
inductive Fate : Type
  | alive
  | dropping
  | dropped
deriving DecidableEq

inductive TrySendError (T : Type) : Type
  | full (v : T)
  | disconnected (v : T)
deriving DecidableEq

/-- A try to send `value`. When it began the receiver had been dropped (`dropped`), and
the producer's shard was in an inbox that somebody had a share of (`kept`). -/
structure Try (T : Type) where
  producer : Nat
  value : T
  dropped : Bool
  kept : Bool
  result : Except (TrySendError T) Unit
deriving DecidableEq

structure World (T : Type) where
  chan : Mpsc.Shared T
  owners : Finset Owner
  freed : Bool
  fate : Fate
  tries : List (Try T)

/-- The accesses: those of the channel, `Drop` of a shard, the count of shares, and what
is history only. -/
inductive Access : Type
  | chan (e : Mpsc.Access)
  | close (r : Nat)
  | owners
  | note
deriving DecidableEq

abbrev WProg (T : Type) := Prog Access (World T)

def World.setChan (s : World T) (x : Mpsc.Shared T) : World T := { s with chan := x }

/-- An access, or a call, of the channel. -/
def onChan {α : Type} (p : MProg T α) : WProg T α := p.lift .chan World.chan World.setChan

/-- `consumer_gone`. -/
def World.closed (s : World T) (r : Nat) : Bool := (s.chan.ring r).consumerGone

def World.close (s : World T) (r : Nat) : World T :=
  s.setChan (s.chan.setRing r { s.chan.ring r with consumerGone := true })

/-- The shard of producer `p` is in an inbox that is not freed. -/
def World.kept (s : World T) (p : Nat) : Bool := decide (s.chan.home p ∈ s.chan.queue) && !s.freed

/-! ## Closing -/

/-- `Drop for Shard`, one after another. -/
def closeAll : List Nat → WProg T Unit
  | [] => .ret ()
  | r :: rs => do
    .store (.close r) fun s => s.close r
    closeAll rs

section Drop

variable (sh : Shape)

/-- The drop of an `Arc` of the inbox, and with the last one `Drop` for the shards in it. -/
def dropInbox (x : Owner) : WProg T Unit :=
  if sh.tier.hasInbox then do
    let last ← .rmw .owners (fun s => { s with owners := s.owners.erase x })
      fun s => decide (s.owners = {x})
    if last then
      let queue ← .load (.chan .inbox) fun s => s.chan.queue
      closeAll queue
      .store .note fun s => { s with freed := true }
    else
      return ()
  else
    return ()

/-- `K::clear_receiver`, which does nothing for the blocking kernels. -/
def clearReceiver : WProg T Unit := if sh.kernel = .task then onChan clear else .ret ()

/-- `Drop for Receiver`, and for its fields in their order. -/
def dropReceiver : WProg T Unit := do
  clearReceiver sh
  .store .note fun s => { s with fate := .dropping }
  let shards ← .load (.chan .own) fun s => s.chan.rx.shards
  closeAll shards
  dropInbox sh .receiver
  .store .note fun s => { s with fate := .dropped }

/-- `Clone` for a handle: the new one has a share of the inbox. -/
def cloneHandle (h : Nat) : WProg T Unit :=
  .await (.chan .live) (fun s => decide (.handle h ∈ s.chan.holders)) fun s =>
    { s with
      chan := { s.chan with
        live := s.chan.live + 1
        holders := insert (.handle s.chan.handles) s.chan.holders
        handles := s.chan.handles + 1 }
      owners := insert (.handle s.chan.handles) s.owners }

/-- `Drop` for a handle, and for its fields. -/
def dropHandle (h m : Nat) : WProg T Unit := do
  onChan (Mpsc.dropHandle sh h m)
  dropInbox sh (.handle h)

end Drop

/-! ## Sending -/

/-- What `try_send` answers for the value `v`. -/
def answer (v : T) : Sending → Except (TrySendError T) Unit
  | .ok => .ok ()
  | .full => .error (.full v)
  | .disconnected => .error (.disconnected v)

section Send

variable (sh : Shape) (p : Nat)

/-- `try_send`, with what holds when it begins. -/
def trySend (v : T) : WProg T (Try T) := do
  let (dropped, kept) ← .load .note fun s => (decide (s.fate = .dropped), s.kept p)
  let result ← onChan (Mpsc.trySend sh p v)
  let t : Try T := ⟨p, v, dropped, kept, answer v result⟩
  .store .note fun s => { s with tries := s.tries ++ [t] }
  return t

/-- `send`, with its last try. -/
def send (v : T) : WProg T (Try T × Except T Unit) :=
  .loop v fun v => do
    let t ← trySend sh p v
    return match t.result with
      | .ok () => .inr (t, .ok ())
      | .error (.disconnected v) => .inr (t, .error v)
      | .error (.full v) => .inl v

/-- `SendFuture::poll`, with its last try; a pending poll has no answer. -/
def poll (v : T) : WProg T (Try T × Option (Except T Unit)) := do
  let t ← trySend sh p v
  match t.result with
  | .ok () => return (t, some (.ok ()))
  | .error (.disconnected v) => return (t, some (.error v))
  | .error (.full v) =>
    -- the waker is registered before the second try
    let t ← trySend sh p v
    return match t.result with
      | .ok () => (t, some (.ok ()))
      | .error (.disconnected v) => (t, some (.error v))
      | .error (.full _) => (t, none)

end Send

/-! ## The system -/

/-- The answer of a send, with its last try. -/
inductive Reply (T : Type) : Type
  | tried (t : Try T)
  | sent (t : Try T) (answer : Except T Unit)
  | polled (t : Try T) (answer : Option (Except T Unit))

/-- What an endpoint keeps of its last call. A receiver that is dropped makes no more. -/
inductive Life : Type
  | up (l : Last)
  | down

def Local (T : Type) : Actor → Type
  | .receiver => Life
  | .producer _ => Option (Reply T)
  | .handle _ _ => Unit

inductive RecvOp : Type
  | call (o : Mpsc.RecvOp)
  | drop

inductive SendOp (T : Type) : Type
  | trySend (v : T)
  | send (v : T)
  | poll (v : T)
  /-- A call that the channel has and that leaves nothing behind here. -/
  | other (o : Mpsc.SendOp T)

def Op (T : Type) : Actor → Type
  | .receiver => RecvOp
  | .producer _ => SendOp T
  | .handle _ _ => HandleOp

def recvBody (w : Nat) (sh : Shape) : RecvOp → WProg T Life
  | .call o => do
    let l ← onChan (Mpsc.recvBody w sh o)
    return .up l
  | .drop => do
    dropReceiver sh
    return .down

def sendBody (sh : Shape) (p : Nat) : SendOp T → WProg T (Option (Reply T))
  | .trySend v => do
    let t ← trySend sh p v
    return some (.tried t)
  | .send v => do
    let (t, sent) ← send sh p v
    return some (.sent t sent)
  | .poll v => do
    let (t, polled) ← poll sh p v
    return some (.polled t polled)
  | .other o => do
    onChan (Mpsc.sendBody sh p o)
    return none

def handleBody (sh : Shape) (h m : Nat) : HandleOp → WProg T Unit
  | .join => onChan (Mpsc.handleBody sh h m .join)
  | .clone => cloneHandle h
  | .drop => dropHandle sh h m

def callable (sh : Shape) : (a : Actor) → Op T a → Local T a → World T → Bool
  | .receiver, .call o, .up _, s => Mpsc.callable sh .receiver o s.chan
  | .receiver, .drop, .up _, _ => true
  | .receiver, _, .down, _ => false
  | .producer p, .trySend v, _, s => Mpsc.callable sh (.producer p) (.trySend v) s.chan
  | .producer p, .send v, _, s => Mpsc.callable sh (.producer p) (.send v) s.chan
  | .producer p, .poll v, _, s =>
    Mpsc.callable sh (.producer p) (.trySend v) s.chan && decide (sh.kernel = .task)
  | .producer p, .other o, _, s => Mpsc.callable sh (.producer p) o s.chan
  | .handle _ _, _, _, _ => true

def body (w : Nat) (sh : Shape) : (a : Actor) → Op T a → WProg T (Local T a)
  | .receiver, o => recvBody w sh o
  | .producer p, o => sendBody sh p o
  | .handle h m, o => handleBody sh h m o

def sys (T : Type) (w : Nat) (sh : Shape) : Sys Actor Access (World T) (Local T) where
  Op := Op T
  can := callable sh
  body a o _ := body w sh a o

/-- A new channel: its receiver and its one handle share the inbox. -/
def World.open (T : Type) (sh : Shape) : World T where
  chan := .open T sh
  owners := {.receiver, .handle 0}
  freed := false
  fate := .alive
  tries := []

def init (T : Type) (sh : Shape) : Config Actor Access (World T) (Local T) where
  shared := .open T sh
  thr a := .idle (match a with
    | .receiver => Life.up .none
    | .producer _ => none
    | .handle _ _ => ())

end Prescient.Mpsc.Teardown
