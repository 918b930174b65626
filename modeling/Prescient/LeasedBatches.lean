import Prescient.BrokerlessCore
import Prescient.LeasedCustody

/-!
# Batches through leased blocks

The leased channel (`mpmc/brokerless/leased.rs`) as its callers see it. Each
endpoint's caller keeps a log of what its own calls told it: a producer's caller
the values it has put in the open lease and the batches it has committed, a
consumer's caller the batches it was lent. The ways to fill a lease that the
claim engine has no part in stand beside `push`: `extend_from_slice`, a write
through `as_mut_slice`, and the adoption of slots initialised in place.

The result is `batches_delivered`: the logs agree. What a producer's caller committed
is, in order, what the consumers were lent of that ring and what is still in it; a
block that was reused never shows the values of an earlier lease.
-/

namespace Prescient.Leased

open Brokerless (Actor)

variable {T : Type}

namespace Batches

/-! ## Definitions -/

section Calls

variable (sh : Shape) (j k : Nat)

/-- A write to the values of the open lease, where `ok` allows it; `refusal` is the
result where it does not. -/
def writeLease (ok : List T → Bool) (f : List T → List T) (refusal : Sent) : LProg T Sent := do
  let done ← .rmw (.producer j)
    (fun s => s.setLease j ((s.lease j).map fun b =>
      if ok b.values then { b with values := f b.values } else b))
    fun s => (s.lease j).any fun b => ok b.values
  return if done then .pushed true else refusal

/-- `extend_from_slice`: the whole slice, or nothing. -/
def extendFromSlice (values : List T) : LProg T Sent :=
  writeLease j (fun vs => decide (values.length ≤ sh.batch - vs.length)) (· ++ values)
    (.pushed false)

/-- `as_mut_slice()[i] = v`. An index out of range panics and changes nothing. -/
def asMutSlice (i : Nat) (v : T) : LProg T Sent :=
  writeLease j (fun vs => decide (i < vs.length)) (·.set i v) .unwound

/-- `advance_initialized`, after `values` were written to the first slots of
`spare_capacity_mut`. A count beyond the capacity panics and changes nothing. -/
def advanceInitialized (values : List T) : LProg T Sent :=
  writeLease j (fun vs => decide (values.length ≤ sh.batch - vs.length)) (· ++ values) .unwound

/-- `take_block` of a consumer that begins a look at the slots. The phases of the
forward channel (`Brokerless.Phase`) are history here as they are there. -/
def look : LProg T Bool := do
  onForward (Brokerless.setPhase k .working)
  takeBlock sh k

/-- `recv`, with that history; otherwise it is `Leased.recv`. -/
def recv : LProg T Bool :=
  .loop () fun _ => do
    let got ← look sh k
    if got then
      return .inr true
    else
      let gone ← onForward (Brokerless.isDisconnected k)
      if gone then
        let got ← takeBlock sh k
        if got then
          return .inr true
        else
          onForward (Brokerless.setPhase k .finished)
          return .inr false
      else
        return .inl ()

/-- `as_slice` on the read lease. -/
def asSlice : LProg T (List T) :=
  .load (.consumer k) fun s => (s.reading k).head?.elim [] (·.values)

end Calls

inductive WriteOp (T : Type) : Type
  | call (o : SendOp T)
  | extendFromSlice (values : List T)
  | asMutSlice (i : Nat) (v : T)
  | advanceInitialized (values : List T)

def WriteOp.onLease : WriteOp T → Bool
  | .call o => o.onLease
  | _ => true

/-- What a producer's caller knows: the result of its latest call, the values of
the lease it holds and the batches it committed. -/
structure Writer (T : Type) where
  last : Sent
  values : List T
  committed : List (List T)

/-- What a consumer's caller knows: the result of its latest call, whether that was
the `None` of `recv`, and the batches it was lent. -/
structure Reader (T : Type) where
  last : Option Bool
  ended : Bool
  received : List (List T)

abbrev Log (T : Type) : Brokerless.Actor → Type
  | .producer _ => Writer T
  | .consumer _ => Reader T

/-- What a write that took effect makes of the values of the lease. -/
def WriteOp.edit : WriteOp T → List T → List T
  | .call (.push v), vs => vs ++ [v]
  | .extendFromSlice values, vs => vs ++ values
  | .asMutSlice i v, vs => vs.set i v
  | .advanceInitialized values, vs => vs ++ values
  | .call _, vs => vs

/-- The log after a call, from its result alone. -/
def Writer.after (w : Writer T) (o : WriteOp T) : Sent → Writer T
  | .pushed true => { w with last := .pushed true, values := o.edit w.values }
  | .reserved true => { w with last := .reserved true, values := [] }
  | .committed n => ⟨.committed n, [], if n = 0 then w.committed else w.committed ++ [w.values]⟩
  | r => { w with last := r }

def sendCall (sh : Shape) (j : Nat) : WriteOp T → LProg T Sent
  | .call o => sendBody sh j o
  | .extendFromSlice values => extendFromSlice sh j values
  | .asMutSlice i v => asMutSlice j i v
  | .advanceInitialized values => advanceInitialized sh j values

def writeBody (sh : Shape) (j : Nat) (o : WriteOp T) (w : Writer T) : LProg T (Writer T) := do
  let r ← sendCall sh j o
  return w.after o r

def readCall (sh : Shape) (k : Nat) : RecvOp → LProg T (Option Bool)
  | .tryRecv => do return some (← look sh k)
  | .recv => do return some (← recv sh k)
  | o => recvBody sh k o

/-- The call blocks until there is a block or no producer. -/
def blocking : RecvOp → Bool
  | .recv => true
  | _ => false

/-- A consumer's caller looks at every batch it is lent. -/
def readBody (sh : Shape) (k : Nat) (o : RecvOp) (r : Reader T) : LProg T (Reader T) := do
  let got ← readCall sh k o
  if got = some true then
    let vs ← asSlice k
    return ⟨got, false, r.received ++ [vs]⟩
  else
    return ⟨got, blocking o && got == some false, r.received⟩

def sys (T : Type) (sh : Shape) : Sys Brokerless.Actor Access (Shared T) (Log T) where
  Op
    | .producer _ => WriteOp T
    | .consumer _ => RecvOp
  can
    | .producer j, o, _, s => s.forward.producing j && (o.onLease == (s.lease j).isSome)
    | .consumer k, o, _, s => decide (k < sh.consumers) && !s.forward.dropped k &&
      (o.onLease == !(s.reading k).isEmpty)
  body
    | .producer j, o, w => writeBody sh j o w
    | .consumer k, o, r => readBody sh k o r

def init (T : Type) (sh : Shape) : Config Brokerless.Actor Access (Shared T) (Log T) where
  shared := .open T sh
  thr
    | .producer _ => .idle ⟨.fresh, [], []⟩
    | .consumer _ => .idle ⟨none, false, []⟩

/-! ## The invariant -/

/-- What has gone through the forward rings: each producer's blocks leave in the
order they were committed, each consumer was handed the blocks it took, and no
committed block is empty or longer than a batch. No consumer ever joins. -/
structure Moved (sh : Shape) (s : Shared T) : Prop where
  produced : ∀ j, s.forward.takenFrom j ++ (s.forward.rx j).queue = s.forward.accepted j
  received : ∀ k, s.forward.takenBy k = s.forward.handed k
  sized : ∀ j b, b ∈ s.forward.accepted j → b.values ≠ [] ∧ b.values.length ≤ sh.batch
  born : s.forward.born = sh.consumers

/-- What an access leaves alone of what the other endpoints' callers logged. -/
structure Keeps (a : Actor) (s s' : Shared T) : Prop where
  accepted : ∀ j, a ≠ .producer j → s'.forward.accepted j = s.forward.accepted j
  gone : s.forward.liveConsumers = 0 → s'.forward.liveConsumers = 0

/-- The log of producer `j`'s caller is true. -/
structure Wrote (sh : Shape) (j : Nat) (w : Writer T) (s : Shared T) : Prop where
  committed : (s.forward.accepted j).map (·.values) = w.committed
  values : s.forward.producing j = true → ∀ b, s.lease j = some b → b.values = w.values
  fits : w.values.length ≤ sh.batch

/-- Producer `j` is refused a lease only where no consumer is left to send to, or
every block is out of its hands. -/
def Refused (sh : Shape) (j : Nat) (r : Sent) (s : Shared T) : Prop :=
  r = .reserved false → s.forward.liveConsumers = 0 ∨ s.inFlight j = sh.blocks

/-- The log of consumer `k`'s caller is true. -/
def WasLent (k : Nat) (received : List (List T)) (s : Shared T) : Prop :=
  (s.forward.handed k).map (·.values) = received

def Loc (sh : Shape) : (a : Actor) → Log T a → Shared T → Prop
  | .producer j, w, s => Leased.Loc (.producer j) w.last s ∧ Refused sh j w.last s ∧ Wrote sh j w s
  | .consumer k, r, s => Leased.Loc (.consumer k) r.last s ∧ WasLent k r.received s

def spec (T : Type) (sh : Shape) : Spec Actor Access (Shared T) (Log T) where
  inv s := Inv sh s ∧ Moved sh s
  guar a s s' := Guar a s s' ∧ Keeps a s s'
  pre := Room sh
  ok := anyAccess
  loc := Loc sh

namespace BatchesLemmas

open CustodyLemmas

variable {sh : Shape} {j k : Nat} {α : Type}

/-! ### Accesses -/

/-- Nothing was moved or committed. -/
structure Same (f f' : Brokerless.Shared (Block T)) : Prop where
  queue : ∀ i, (f'.rx i).queue = (f.rx i).queue
  accepted : f'.accepted = f.accepted
  taken : f'.taken = f.taken
  handed : f'.handed = f.handed
  gone : f.liveConsumers = 0 → f'.liveConsumers = 0
  born : f'.born = f.born

/-- Consumer `k` took the front block of slot `i`. -/
structure Popped (k i : Nat) (b : Block T) (f f' : Brokerless.Shared (Block T)) : Prop where
  front : (f.rx i).queue = b :: (f'.rx i).queue
  queue : ∀ i', i' ≠ i → (f'.rx i').queue = (f.rx i').queue
  accepted : f'.accepted = f.accepted
  taken : f'.taken = f.taken ++ [⟨k, i, b⟩]
  handed : f'.handed = Function.update f.handed k (f.handed k ++ [b])
  gone : f.liveConsumers = 0 → f'.liveConsumers = 0
  born : f'.born = f.born

theorem Same.refl (f : Brokerless.Shared (Block T)) : Same f f :=
  ⟨fun _ => rfl, rfl, rfl, rfl, id, rfl⟩

theorem Same.moved {s s' : Shared T} (h : Same s.forward s'.forward) (hm : Moved sh s) :
    Moved sh s' := by
  refine ⟨fun j => ?_, fun k => ?_, ?_, h.born.trans hm.born⟩
  · rw [h.queue, h.accepted, ← hm.produced j]
    unfold Brokerless.Shared.takenFrom
    rw [h.taken]
  · rw [h.handed, ← hm.received k]
    unfold Brokerless.Shared.takenBy
    rw [h.taken]
  · rw [h.accepted]
    exact hm.sized

theorem Popped.moved {s s' : Shared T} {i : Nat} {b : Block T}
    (h : Popped k i b s.forward s'.forward) (hm : Moved sh s) : Moved sh s' := by
  refine ⟨fun j => ?_, fun k' => ?_, ?_, h.born.trans hm.born⟩
  · rw [h.accepted, ← hm.produced j]
    unfold Brokerless.Shared.takenFrom
    rw [h.taken, List.filter_append, List.map_append, List.append_assoc]
    rcases eq_or_ne j i with rfl | hne
    · simp [h.front]
    · simp [h.queue j hne, hne.symm]
  · rw [h.handed]
    have hr := hm.received k'
    unfold Brokerless.Shared.takenBy at hr ⊢
    rw [h.taken, List.filter_append, List.map_append, hr]
    rcases eq_or_ne k' k with rfl | hne
    · simp
    · simp [hne, hne.symm]
  · rw [h.accepted]
    exact hm.sized

/-- An access that leaves the forward channel alone, and is at none of its rings. -/
def Still (e : Access) (eff : Shared T → Shared T) : Prop :=
  (∀ i, e ≠ .forward (.rx i)) ∧ ∀ s, (eff s).forward = s.forward

/-- An access that moves nothing through the forward rings. -/
def Quiet (_ : Access) (eff : Shared T → Shared T) : Prop := ∀ s, Same s.forward (eff s).forward

/-- An access of the forward channel by consumer `k`, which has nothing staged. -/
def Moves (k : Nat) (_ : Brokerless.Access)
    (eff : Brokerless.Shared (Block T) → Brokerless.Shared (Block T)) : Prop :=
  ∀ f, f.staging k = [] → Same f (eff f) ∨ ∃ i b, Popped k i b f (eff f)

/-- An access that keeps what was moved, where the rest is kept. -/
def Carries (sh : Shape) (a : Actor) (F : Shared T → Prop) (_ : Access)
    (eff : Shared T → Shared T) : Prop :=
  ∀ s, Inv sh s → Moved sh s → F s → Moved sh (eff s) ∧ Keeps a s (eff s) ∧ F (eff s)

/-- A program checked for custody, whose accesses keep what was moved and `F`. -/
theorem carry {a : Actor} {P F : Shared T → Prop} {Q : α → Shared T → Prop} {p : LProg T α}
    (h : Tri (Leased.spec T sh) a P p Q) (hF : Stable (spec T sh) a F)
    (hp : p.Every (Carries sh a F)) :
    Tri (spec T sh) a (fun s => P s ∧ F s) p fun r s => Q r s ∧ F s := by
  refine h.keep_every hp hF (fun _ hi => hi.1) (fun _ _ _ _ hg => hg.1) (fun _ _ hp => hp)
    (fun _ _ hk => hk) fun e eff s he hi hs _ hinv hguar => ?_
  obtain ⟨h₁, h₂, h₃⟩ := he s hi.1 hi.2 hs
  exact ⟨⟨hinv, h₁⟩, ⟨hguar, h₂⟩, h₃⟩

theorem stable_old {a : Actor} {P : Shared T → Prop} (h : Stable (Leased.spec T sh) a P) :
    Stable (spec T sh) a P :=
  fun b s s' hb hi hi' hg hs => h b s s' hb hi.1 hi'.1 hg.1 hs

/-- A look at the shared state. -/
theorem load_tri {a : Actor} {e : Access} {P : Shared T → Prop} {f : Shared T → α}
    {Q : α → Shared T → Prop} (hP : Stable (spec T sh) a P) (hQ : ∀ r, Stable (spec T sh) a (Q r))
    (hpre : ∀ s, P s → Room sh a e s) (h : ∀ s, Inv sh s → P s → Q (f s) s) :
    Tri (spec T sh) a P (.load e f) Q := by
  refine Tri.load hP hQ fun s hi hs => ⟨hpre s hs, fun _ => ⟨⟨?_, ?_⟩, h s hi.1 hs⟩⟩
  · cases a with
    | producer j => exact ProducerGuar.refl j s
    | consumer k => exact ConsumerGuar.refl k s
  · exact ⟨fun _ _ => rfl, id⟩

/-! ### What the programs touch -/

theorem still_quiet {p : LProg T α} (hp : p.Every Still) : p.Every Quiet := by
  refine hp.mono fun e eff he s => ?_
  rw [he.2]
  exact Same.refl _

theorem still_rmw {e : Access} {f : Shared T → Shared T} {g : Shared T → α}
    (he : ∀ i, e ≠ .forward (.rx i)) (h : ∀ s, (f s).forward = s.forward) :
    (Prog.rmw e f g : LProg T α).Every Still :=
  Prog.Every.rmw ⟨he, h⟩

theorem still_load {e : Access} (he : ∀ i, e ≠ .forward (.rx i)) {f : Shared T → α} :
    (Prog.load e f : LProg T α).Every Still :=
  still_rmw he fun _ => rfl

theorem returned_still : (returned sh j : LProg T Bool).Every Still := by
  suffices h : ∀ left, (returned.scan sh j left : LProg T Bool).Every Still from h sh.consumers
  intro left
  induction left with
  | zero => trivial
  | succ left ih =>
    refine Prog.Every.bind (still_rmw (by simp) fun _ => rfl) fun k => ?_
    refine Prog.Every.bind (Prog.Every.bind (still_rmw (by simp) fun s => ?_)
      fun got => ?_) fun got => ?_
    · split
      · rfl
      · rfl
    · cases got with
      | true => exact Prog.Every.bind (still_rmw (by simp) fun _ => rfl) fun _ => trivial
      | false => trivial
    · cases got with
      | true => trivial
      | false => exact ih

theorem takeFree_still : (takeFree j : LProg T Bool).Every Still := by
  refine still_rmw (by simp) fun s => ?_
  split
  · rfl
  · rfl

theorem rollback_still : (rollback j : LProg T Unit).Every Still := by
  refine still_rmw (by simp) fun s => ?_
  split
  · rfl
  · rfl

theorem reclaim_still : (reclaim sh j : LProg T (Option Nat)).Every Still := by
  refine Prog.Every.loop (fun reclaimed => ?_) 0
  refine Prog.Every.bind returned_still fun got => ?_
  cases got with
  | true =>
    exact Prog.Every.bind rollback_still fun _ => Prog.Every.bind Prog.Every.pick fun _ => trivial
  | false => trivial

theorem flush_still : (flush sh j : LProg T Sent).Every Still := by
  refine Prog.Every.loop (fun _ => ?_) ()
  refine Prog.Every.bind reclaim_still fun count => ?_
  split
  · trivial
  refine Prog.Every.bind (still_load (by simp)) fun outstanding => ?_
  split
  · trivial
  refine Prog.Every.bind (still_load (by simp)) fun gone => ?_
  split
  · refine Prog.Every.bind reclaim_still fun count => ?_
    split
    · trivial
    · exact Prog.Every.bind (still_load (by simp)) fun _ => trivial
  · trivial

theorem closeLanes_still (m : Nat) :
    (dropProducer.closeLanes j m : LProg T Unit).Every Still := by
  induction m with
  | zero => trivial
  | succ m ih =>
    refine Prog.Every.bind (still_rmw (by simp) fun _ => rfl) fun _ =>
      Prog.Every.bind (Prog.Every.loop (fun _ => ?_) ()) fun _ => ih
    refine Prog.Every.bind (still_rmw (by simp) fun _ => rfl) fun got => ?_
    cases got with
    | true => trivial
    | false => trivial

theorem dropProducer_quiet : (dropProducer sh j : LProg T Sent).Every Quiet :=
  Prog.Every.bind (Prog.Every.rmw fun _ => ⟨fun _ => rfl, rfl, rfl, rfl, id, rfl⟩) fun _ =>
    Prog.Every.bind (still_quiet (closeLanes_still _)) fun _ =>
      Prog.Every.bind (still_quiet (still_rmw (by simp) fun _ => rfl)) fun _ => trivial

theorem dropReadLease_still : (dropReadLease sh k : LProg T Unit).Every Still := by
  refine Prog.Every.bind (still_load (by simp)) fun origin => ?_
  cases origin with
  | none => trivial
  | some j =>
    refine Prog.Every.bind (still_load (by simp)) fun gone => ?_
    cases gone with
    | true => exact still_rmw (by simp) fun _ => rfl
    | false =>
      refine still_rmw (by simp) fun s => ?_
      split
      · rfl
      · split
        · rfl
        · rfl

theorem dropConsumer_quiet : (dropConsumer k : LProg T Unit).Every Quiet := by
  refine Prog.Every.rmw fun s => ⟨fun _ => rfl, rfl, rfl, rfl, fun h => ?_, rfl⟩
  show s.forward.liveConsumers - 1 = 0
  rw [h]

/-- What `onForward` makes of a program of the forward channel. -/
theorem moves_of_same {e : Brokerless.Access}
    {eff : Brokerless.Shared (Block T) → Brokerless.Shared (Block T)}
    (h : ∀ f, Same f (eff f)) : Moves k e eff := fun f _ => .inl (h f)

theorem passOver_same (f : Brokerless.Shared (Block T)) (i : Nat) : Same f (f.passOver k i) := by
  unfold Brokerless.Shared.passOver
  split
  · exact ⟨fun _ => rfl, rfl, rfl, rfl, id, rfl⟩
  · exact Same.refl f

theorem tryAcquire_moves {i : Nat} :
    (Brokerless.tryAcquire k i : Brokerless.BProg (Block T) Bool).Every (Moves k) := by
  refine Prog.Every.bind (Prog.Every.rmw (moves_of_same Same.refl)) fun _ =>
    Prog.Every.rmw (moves_of_same fun f => ?_)
  split
  · exact passOver_same f i
  · exact ⟨fun _ => rfl, rfl, rfl, rfl, id, rfl⟩

theorem freeSlots_moves {i : Nat} :
    (Brokerless.freeSlots i : Brokerless.BProg (Block T) Unit).Every (Moves k) := by
  refine Prog.Every.rmw (moves_of_same fun f => ⟨fun i' => ?_, rfl, rfl, rfl, id, rfl⟩)
  rcases eq_or_ne i' i with rfl | hne
  · simp
  · simp [hne]

theorem moveToCallback_moves {i : Nat} :
    (Brokerless.moveToCallback k i : Brokerless.BProg (Block T) Unit).Every (Moves k) := by
  refine Prog.Every.rmw fun f _ => ?_
  cases hq : (f.rx i).queue with
  | nil => exact .inl (Same.refl f)
  | cons b q =>
    refine .inr ⟨i, b, ?_, fun i' hne => ?_, rfl, rfl, rfl, id, rfl⟩
    · simp [hq]
    · simp [hne]

theorem popStaged_moves :
    (Brokerless.popStaged k : Brokerless.BProg (Block T) _).Every (Moves k) := by
  refine Prog.Every.rmw fun f hf => .inl ?_
  simp only [hf]
  exact Same.refl f

theorem drainInPlace_moves {panics : Nat → Bool} {i max : Nat} :
    (Brokerless.drainInPlace k panics i max : Brokerless.BProg (Block T) _).Every (Moves k) := by
  have hvisit : ∀ left got, (Brokerless.drainInPlace.visit k panics i left got :
      Brokerless.BProg (Block T) _).Every (Moves k) := by
    intro left
    induction left with
    | zero => exact fun got => Prog.Every.bind freeSlots_moves fun _ => trivial
    | succ left ih =>
      refine fun got => Prog.Every.bind moveToCallback_moves fun _ =>
        Prog.Every.bind (fun _ => trivial) fun panicked => ?_
      cases panicked with
      | true => exact Prog.Every.bind freeSlots_moves fun _ => trivial
      | false => exact ih _
  refine Prog.Every.bind (Prog.Every.bind Prog.Every.pick fun answer =>
    Prog.Every.rmw (moves_of_same fun f => ?_)) fun count => ?_
  · split
    · exact passOver_same f i
    · exact ⟨fun _ => rfl, rfl, rfl, rfl, id, rfl⟩
  · split
    · trivial
    · exact hvisit _ _

theorem drain_moves {n max : Nat} {panics : Nat → Bool} :
    (Brokerless.drain n k panics max : Brokerless.BProg (Block T) _).Every (Moves k) := by
  have hflush : ∀ left done, (Brokerless.drain.flush k panics left done :
      Brokerless.BProg (Block T) _).Every (Moves k) := by
    intro left
    induction left with
    | zero => exact fun _ => trivial
    | succ left ih =>
      refine fun done => Prog.Every.bind popStaged_moves fun staged => ?_
      cases staged with
      | none => trivial
      | some b =>
        refine Prog.Every.bind (fun _ => trivial) fun panicked => ?_
        cases panicked with
        | true => trivial
        | false => exact ih _
  have hscan : ∀ room done left, (Brokerless.drain.scan n k panics room done left :
      Brokerless.BProg (Block T) _).Every (Moves k) := by
    intro room done left
    induction left with
    | zero => trivial
    | succ left ih =>
      refine Prog.Every.bind
        (Prog.Every.rmw (moves_of_same fun _ => ⟨fun _ => rfl, rfl, rfl, rfl, id, rfl⟩))
        fun i => Prog.Every.bind tryAcquire_moves fun won => ?_
      cases won with
      | false => exact ih
      | true =>
        refine Prog.Every.bind drainInPlace_moves fun r => Prog.Every.bind
          (Prog.Every.rmw (moves_of_same fun _ => ⟨fun _ => rfl, rfl, rfl, rfl, id, rfl⟩))
          fun _ => ?_
        split
        · trivial
        · split
          · exact Prog.Every.bind
              (Prog.Every.rmw (moves_of_same fun _ => ⟨fun _ => rfl, rfl, rfl, rfl, id, rfl⟩))
              fun _ => trivial
          · exact ih
  refine Prog.Every.bind (hflush _ _) ?_
  rintro ⟨done, panicked⟩
  dsimp only
  split
  · trivial
  · exact hscan _ _ _

/-! ### Producers -/

/-- What producer `j` has committed. -/
def Committed (j : Nat) (batches : List (List T)) (s : Shared T) : Prop :=
  (s.forward.accepted j).map (·.values) = batches

theorem stable_committed (j : Nat) (batches : List (List T)) :
    Stable (spec T sh) (.producer j) (Committed j batches) := by
  intro a s s' ha _ _ hg h
  unfold Committed at h ⊢
  rw [hg.2.accepted j ha]
  exact h

theorem Wrote.stable (j : Nat) (w : Writer T) :
    Stable (spec T sh) (.producer j) (Wrote sh j w) := by
  intro a s s' ha h₁ h₂ hg h
  refine ⟨stable_committed j _ a s s' ha h₁ h₂ hg h.committed, fun hp b hb => ?_, h.fits⟩
  cases a with
  | producer j' =>
    have hne : j ≠ j' := fun he => ha (by rw [he])
    obtain ⟨hpr, hl, _, _⟩ := hg.1.others j hne
    exact h.values (hpr ▸ hp) b (hl ▸ hb)
  | consumer k =>
    exact h.values (hg.1.producing ▸ hp) b (hg.1.lease ▸ hb)

/-- The log's truth does not depend on the latest result. -/
theorem wrote_congr {w w' : Writer T} {s : Shared T} (h : Wrote sh j w s)
    (hv : w'.values = w.values) (hc : w'.committed = w.committed) : Wrote sh j w' s :=
  ⟨by rw [hc]; exact h.committed, by rw [hv]; exact h.values, by rw [hv]; exact h.fits⟩

theorem stable_refused (j : Nat) (r : Sent) :
    Stable (spec T sh) (.producer j) (Refused sh j r) := by
  intro a s s' ha _ _ hg h hr
  refine (h hr).imp hg.2.gone fun hfl => ?_
  cases a with
  | producer j' =>
    have hne : j ≠ j' := fun he => ha (by rw [he])
    exact (hg.1.others j hne).2.2.1.trans hfl
  | consumer k =>
    rw [hg.1.inFlight]
    exact hfl

theorem stable_loc_producer (j : Nat) (w : Writer T) :
    Stable (spec T sh) (.producer j) (Loc sh (.producer j) w) :=
  (stable_old (CustodyLemmas.stable_loc_producer j w.last)).and
    ((stable_refused j w.last).and (Wrote.stable j w))

/-- A quiet program keeps what was committed. -/
theorem quiet_tri {P : Shared T → Prop} {Q : α → Shared T → Prop} {p : LProg T α}
    (h : Tri (Leased.spec T sh) (.producer j) P p Q) (hp : p.Every Quiet)
    {c : List (List T)} :
    Tri (spec T sh) (.producer j) (fun s => P s ∧ Committed j c s) p
      fun r s => Q r s ∧ Committed j c s := by
  refine carry h (stable_committed j c) (hp.mono fun e eff he s _ hm hs => ?_)
  have hsame := he s
  refine ⟨hsame.moved hm, ⟨fun i _ => by rw [hsame.accepted], hsame.gone⟩, ?_⟩
  unfold Committed
  rw [hsame.accepted]
  exact hs

/-- With no lease open, the log says nothing of its values. -/
theorem wrote_of_committed {w : Writer T} {s : Shared T} (hfits : w.values.length ≤ sh.batch)
    (h : Committed j w.committed s) (hl : s.forward.producing j = true → s.lease j = none) :
    Wrote sh j w s :=
  ⟨h, fun hp b hb => (by rw [hl hp] at hb; cases hb), hfits⟩

theorem lease_none {has : Bool} {hold : Option Nat} {out : Nat} {s : Shared T}
    (h : Hands j has hold out s) (hhas : has = false) : s.lease j = none := by
  have := h.lease
  rw [hhas] at this
  simpa using this

variable {out : Nat} {w : Writer T}

/-- The open lease, with the values the log gives it. -/
def Open (sh : Shape) (j out : Nat) (w : Writer T) (s : Shared T) : Prop :=
  Hands j true none out s ∧ Wrote sh j w s

theorem stable_open (j out : Nat) (w : Writer T) :
    Stable (spec T sh) (.producer j) (Open sh j out w) :=
  (stable_old (stable_hands j true none out)).and (Wrote.stable j w)

theorem after_last (w : Writer T) (o : WriteOp T) (r : Sent) : (w.after o r).last = r := by
  unfold Writer.after
  split
  · rfl
  · rfl
  · rfl
  · rfl

/-- What is left to show of a call that says `r`. -/
def Ends (sh : Shape) (j : Nat) (w : Writer T) (o : WriteOp T) (r : Sent) (s : Shared T) : Prop :=
  Loc sh (.producer j) (w.after o r) s

theorem stable_ends (j : Nat) (w : Writer T) (o : WriteOp T) (r : Sent) :
    Stable (spec T sh) (.producer j) (Ends sh j w o r) :=
  stable_loc_producer j _

variable {o : WriteOp T}

/-- The end of a call that was not a flush. -/
theorem ends_of_hands {has : Bool} {s : Shared T} {r : Sent} (h : Hands j has none out s)
    (h₁ : r ≠ .refused false) (h₂ : r ≠ .flushed true) (hr : Refused sh j r s)
    (hw : Wrote sh j (w.after o r) s) : Ends sh j w o r s := by
  refine ⟨fun _ => ?_, ?_, hw⟩
  · rw [after_last]
    exact ⟨lane_held_of_hands h, h₁, fun he => absurd he h₂⟩
  · rw [after_last]
    exact hr

theorem noConsumers_tri {P : Shared T → Prop} (hP : Stable (spec T sh) (.producer j) P) :
    Tri (spec T sh) (.producer j) P noConsumers (fun _ => P) :=
  load_tri hP (fun _ => hP) (fun _ _ => trivial) fun _ _ h => h

/-- A committed block is what the log says the lease held. -/
theorem commitPush_moved {s : Shared T} (hm : Moved sh s) (h : Open sh j out w s)
    (hne : w.values ≠ []) {b : Block T} (hb : s.lease j = some b) :
    let s' := ((s.setLease j none).setInFlight j (s.inFlight j + 1)).setForward
      (s.forward.push j b)
    Moved sh s' ∧ Keeps (.producer j) s s' ∧ Committed j (w.committed ++ [w.values]) s' := by
  intro s'
  have hvals : b.values = w.values := h.2.values h.1.producing b hb
  have hacc : ∀ i, s'.forward.accepted i =
      if i = j then s.forward.accepted j ++ [b] else s.forward.accepted i := by
    intro i
    rcases eq_or_ne i j with rfl | hij
    · simp [s', Shared.setForward, Brokerless.Shared.push]
    · simp [s', Shared.setForward, Brokerless.Shared.push, hij]
  refine ⟨⟨fun i => ?_, hm.received, fun i b' hb' => ?_, hm.born⟩, ⟨fun i hij => ?_, id⟩, ?_⟩
  · rw [hacc]
    have hp := hm.produced i
    rcases eq_or_ne i j with rfl | hij
    · rw [if_pos rfl, ← hp, List.append_assoc]
      simp [s', Shared.setForward, Brokerless.Shared.push, Brokerless.Shared.takenFrom]
    · rw [if_neg hij, ← hp]
      simp [s', Shared.setForward, Brokerless.Shared.push, Brokerless.Shared.takenFrom, hij]
  · rw [hacc] at hb'
    split at hb'
    · rcases List.mem_append.mp hb' with hb' | hb'
      · exact hm.sized j b' hb'
      · rw [List.mem_singleton.mp hb', hvals]
        exact ⟨hne, h.2.fits⟩
    · exact hm.sized i b' hb'
  · rw [hacc, if_neg fun he => hij (by rw [he])]
  · unfold Committed
    rw [hacc, if_pos rfl, List.map_append, h.2.committed, List.map_singleton, hvals]

theorem commit_tri (hslots : sh.blocks ≤ sh.slots) :
    Tri (spec T sh) (.producer j) (Open sh j out w) (commit sh j)
      (Ends sh j w (.call .commit)) := by
  unfold commit
  refine Tri.bind (R := fun count s => count = w.values.length ∧ Open sh j out w s) ?_
    fun count => ?_
  · refine load_tri (stable_open _ _ _) (fun _ => (Stable.const _).and (stable_open _ _ _))
      (fun _ _ => trivial) fun s _ h => ⟨?_, h⟩
    obtain ⟨b, hb⟩ := Option.isSome_iff_exists.mp h.1.lease
    rw [hb, ← h.2.values h.1.producing b hb]
    rfl
  rintro s hi ⟨rfl, h⟩
  split
  · refine Tri.bind (quiet_tri (c := w.committed) rollback_tri (still_quiet rollback_still))
      (fun _ => ?_) s hi ⟨h.1, h.2.committed⟩
    refine Tri.ret (stable_ends j w _ _) fun s _ h =>
      ends_of_hands h.1 (by simp) (by simp) (by simp [Refused]) ?_
    exact wrote_of_committed (Nat.zero_le _) h.2 fun _ => lease_none h.1 rfl
  next hcount =>
  have hne : w.values ≠ [] := fun h0 => hcount (by rw [h0]; rfl)
  refine Tri.bind (noConsumers_tri (stable_open j out w)) (fun gone => ?_) s hi h
  cases gone with
  | true =>
    exact Tri.ret (stable_ends j w _ _) fun s _ h =>
      ends_of_hands h.1 (by simp) (by simp) (by simp [Refused]) (wrote_congr h.2 rfl rfl)
  | false =>
    refine Tri.bind (R := fun ok s => ok = true ∧ Hands j false none (out + 1) s ∧
      Committed j (w.committed ++ [w.values]) s) ?_ fun ok => ?_
    · refine Tri.rmw (stable_open j out w) (fun _ => (Stable.const _).and
        ((stable_old (stable_hands _ _ _ _)).and (stable_committed _ _))) fun s hi h => ?_
      obtain ⟨b, hb⟩ := Option.isSome_iff_exists.mp h.1.lease
      have hroom := forward_room hslots hi.1 h.1.producing hb
      refine ⟨hroom, fun _ => ?_⟩
      obtain ⟨hinv, hguar, hmine⟩ := commitPush_safe hi.1 h.1 hb
      obtain ⟨hmoved, hkeeps, hcomm⟩ := commitPush_moved hi.2 h hne hb
      simp only [hb, hroom, Bool.false_eq_true, if_false, Bool.not_false]
      exact ⟨⟨hinv, hmoved⟩, ⟨hguar, hkeeps⟩, trivial, hmine, hcomm⟩
    · rintro s hi ⟨rfl, h⟩
      refine Safe.ret (stable_ends j w _ _)
        (ends_of_hands h.1 (by simp) (by simp) (by simp [Refused]) ?_)
      refine wrote_of_committed (Nat.zero_le _) ?_ fun _ => lease_none h.1 rfl
      have hc : (w.after (.call .commit) (.committed w.values.length)).committed =
          w.committed ++ [w.values] := if_neg hcount
      rw [← hc] at h
      exact h.2

/-- A lease on the block just obtained starts empty, whatever the block held. -/
theorem startLease_tri (hfits : w.values.length ≤ sh.batch) :
    Tri (spec T sh) (.producer j)
      (fun s => Hands j true none out s ∧ Committed j w.committed s) (startLease j)
      (Ends sh j w o) := by
  have hempty : Stable (spec T sh) (.producer j) fun s => Open sh j out { w with values := [] } s :=
    stable_open _ _ _
  unfold startLease
  refine Tri.bind (R := fun _ => Open sh j out { w with values := [] }) ?_ fun _ => ?_
  · refine Tri.store ((stable_old (stable_hands _ _ _ _)).and (stable_committed _ _)) hempty
      fun s hi h => ⟨trivial, fun _ => ?_⟩
    obtain ⟨hinv, hguar, hmine⟩ := setValues_safe hi.1 h.1 (fun b => { b with values := [] })
      (fun _ => rfl) fun _ => rfl
    refine ⟨⟨hinv, Same.moved (s := s) (Same.refl _) hi.2⟩, ⟨hguar, fun _ _ => rfl, id⟩, hmine, h.2,
      fun _ b hb => ?_, Nat.zero_le _⟩
    obtain ⟨b', _, rfl⟩ := Option.map_eq_some_iff.mp (by simpa [Shared.setLease] using hb)
    rfl
  · refine Tri.choose fun panics => ?_
    simp only [Prog.ret_bind]
    split
    · refine Tri.conseq (P := fun s => Hands j true none out s ∧ Committed j w.committed s)
        (Q := Ends sh j w o) ?_ (fun _ _ h => ⟨h.1, h.2.committed⟩) fun _ _ _ h => h
      refine Tri.bind (quiet_tri rollback_tri (still_quiet rollback_still)) fun _ => ?_
      refine Tri.ret (stable_ends j w _ _) fun s _ h =>
        ends_of_hands h.1 (by simp) (by simp) (by simp [Refused]) ?_
      exact wrote_of_committed hfits h.2 fun _ => lease_none h.1 rfl
    · exact Tri.ret (stable_ends j w _ _) fun s _ h =>
        ends_of_hands h.1 (by simp) (by simp) (by simp [Refused]) (wrote_congr h.2 rfl rfl)

/-- The end of a call that left no lease. -/
theorem noLease_tri {r : Sent} (h₁ : r ≠ .refused false) (h₂ : r ≠ .flushed true)
    (h₃ : r ≠ .reserved false) (hfits : (w.after o r).values.length ≤ sh.batch)
    (hc : (w.after o r).committed = w.committed) :
    Tri (spec T sh) (.producer j)
      (fun s => Hands j false none out s ∧ Committed j w.committed s) (.ret r)
      (Ends sh j w o) :=
  Tri.ret (stable_ends j w o r) fun _ _ h => ends_of_hands h.1 h₁ h₂ (fun he => absurd he h₃)
    (wrote_of_committed hfits (hc ▸ h.2) fun _ => lease_none h.1 rfl)

/-- With no block free and none in its hands, all of a producer's blocks are out. -/
theorem all_out {s : Shared T} (h : Custody sh s j) (hfree : s.free j = [])
    (hlease : s.lease j = none) : s.inFlight j = sh.blocks := by
  obtain ⟨loc, hpl, _, hc⟩ := h
  rw [hc, Finset.filter_true_of_mem, Finset.card_range]
  intro id hid
  have hin : ∀ p, loc id = p → id ∈ s.ids j p := fun p hp =>
    hpl.mem_iff.mpr ⟨Finset.mem_range.mp hid, hp⟩
  refine ⟨fun hp => ?_, fun hp => ?_⟩
  · have hmem := hin _ hp
    simp [Shared.ids, Shared.at, hfree] at hmem
  · have hmem := hin _ hp
    simp [Shared.ids, Shared.at, hlease] at hmem

/-- A producer without a lease, and with nothing new committed. -/
def Bare (j : Nat) (w : Writer T) (out : Nat) (s : Shared T) : Prop :=
  Hands j false none out s ∧ Committed j w.committed s

theorem stable_bare (j : Nat) (w : Writer T) (out : Nat) :
    Stable (spec T sh) (.producer j) (Bare j w out) :=
  (stable_old (stable_hands j false none out)).and (stable_committed j _)

/-- No consumer is left. -/
def Deserted (s : Shared T) : Prop := s.forward.liveConsumers = 0

instance : DecidablePred (Deserted : Shared T → Prop) :=
  fun _ => inferInstanceAs (Decidable (_ = _))

theorem stable_deserted (j : Nat) : Stable (spec T sh) (.producer j) (Deserted : Shared T → Prop) :=
  fun _ _ _ _ _ _ hg h => hg.2.gone h

theorem lookForConsumers_tri :
    Tri (spec T sh) (.producer j) (Bare j w out) noConsumers
      (fun gone s => (gone = true → Deserted s) ∧ Bare j w out s) :=
  load_tri (stable_bare j w out) (fun _ => (stable_deserted j).imp.and (stable_bare j w out))
    (fun _ _ => trivial) fun _ _ h => ⟨fun hg => of_decide_eq_true hg, h⟩

/-- Where the free list is empty, every block is out of the producer's hands. -/
theorem popFree_tri :
    Tri (spec T sh) (.producer j) (Bare j w out) (takeFree j)
      (fun got s => (Hands j got none out s ∧ (got = false → out = sh.blocks)) ∧
        Committed j w.committed s) := by
  refine quiet_tri (Tri.observe takeFree_tri (stable_hands _ _ _ _) fun s hi h hnone => ?_)
    (still_quiet takeFree_still)
  have hfree : s.free j = [] := by simpa using hnone
  rw [← h.inFlight]
  exact all_out (hi.custody j h.producing) hfree (lease_none h rfl)

/-- The end of a call that was refused a lease. -/
theorem refused_tri (hfits : w.values.length ≤ sh.batch) :
    Tri (spec T sh) (.producer j) (fun s => (Deserted s ∨ out = sh.blocks) ∧ Bare j w out s)
      (.ret (.reserved false)) (Ends sh j w o) := by
  refine Tri.ret (stable_ends j w o _) fun s _ h => ?_
  obtain ⟨hwhy, hm, hc⟩ := h
  refine ends_of_hands hm (by simp) (by simp) (fun _ => hwhy.imp id fun hout => ?_) ?_
  · rw [hm.inFlight, hout]
  · exact wrote_of_committed (w := w.after o (.reserved false)) hfits hc fun _ => lease_none hm rfl

theorem tryReserve_tri (hfits : w.values.length ≤ sh.batch) :
    Tri (spec T sh) (.producer j) (Bare j w out) (tryReserve sh j)
      (Ends sh j w (.call .tryReserve)) := by
  unfold tryReserve
  refine Tri.bind lookForConsumers_tri fun gone => ?_
  split
  · exact (refused_tri hfits).conseq (fun _ _ h => ⟨.inl (h.1 ‹_›), h.2⟩) fun _ _ _ h => h
  refine Tri.bind ((quiet_tri returned_tri (still_quiet returned_still)).conseq (fun _ _ h => h.2)
    fun _ _ _ h => h) fun got => ?_
  cases got with
  | true => exact startLease_tri hfits
  | false =>
    refine Tri.bind popFree_tri fun got => ?_
    cases got with
    | true =>
      exact (startLease_tri hfits).conseq (fun _ _ h => ⟨h.1.1, h.2⟩) fun _ _ _ h => h
    | false =>
      exact (refused_tri hfits).conseq (fun _ _ h => ⟨.inr (h.1.2 rfl), h.1.1, h.2⟩)
        fun _ _ _ h => h

theorem reserve_tri (hfits : w.values.length ≤ sh.batch) :
    Tri (spec T sh) (.producer j) (Bare j w out) (reserve sh j) (Ends sh j w (.call .reserve)) := by
  have hbare : Stable (spec T sh) (.producer j) fun s => ∃ out, Bare j w out s :=
    Stable.exists fun out => stable_bare j w out
  have hgot : ∀ got : Bool, Stable (spec T sh) (.producer j) fun s => (got = false → Deserted s) ∧
      ∃ out, Hands j got none out s ∧ Committed j w.committed s :=
    fun got => (stable_deserted j).imp.and (Stable.exists fun out =>
      (stable_old (stable_hands j got none out)).and (stable_committed j _))
  unfold reserve
  refine Tri.bind ((Tri.loop (I := fun _ s => ∃ out, Bare j w out s) (Q := fun got s =>
    (got = false → Deserted s) ∧ ∃ out, Hands j got none out s ∧ Committed j w.committed s) hgot
    (fun _ => ?_) ()).conseq (fun _ _ h => ⟨out, h⟩) fun _ _ _ h => h) fun got => ?_
  · rintro s hi ⟨out, h⟩
    refine Tri.bind lookForConsumers_tri (fun gone => ?_) s hi h
    split
    · exact Tri.ret (hgot false) fun _ _ h => ⟨fun _ => h.1 ‹_›, out, h.2⟩
    refine Tri.bind ((quiet_tri returned_tri (still_quiet returned_still)).conseq (fun _ _ h => h.2)
      fun _ _ _ h => h) fun got => ?_
    cases got with
    | true => exact Tri.ret (hgot true) fun _ _ h => ⟨by simp, _, h⟩
    | false =>
      refine Tri.bind popFree_tri fun got => ?_
      cases got with
      | true => exact Tri.ret (hgot true) fun _ _ h => ⟨by simp, out, h.1.1, h.2⟩
      | false => exact Tri.ret hbare fun _ _ h => ⟨out, h.1.1, h.2⟩
  · rintro s hi ⟨hgone, out, h⟩
    cases got with
    | true => exact startLease_tri hfits s hi h
    | false => exact refused_tri hfits s hi ⟨.inl (hgone rfl), h⟩

theorem reclaimAll_tri (hfits : w.values.length ≤ sh.batch) :
    Tri (spec T sh) (.producer j)
      (fun s => Resting j false s ∧ Committed j w.committed s) (reclaimAll sh j)
      (Ends sh j w (.call .reclaim)) := by
  refine Tri.bind (quiet_tri reclaim_tri (still_quiet reclaim_still)) fun count => ?_
  rintro s hi ⟨⟨out, h⟩, hc⟩
  cases count with
  | none =>
    exact noLease_tri (r := .unwound) (by simp) (by simp) (by simp) hfits rfl s hi ⟨h, hc⟩
  | some m =>
    exact noLease_tri (r := .reclaimed m) (by simp) (by simp) (by simp) hfits rfl s hi ⟨h, hc⟩

/-- A flush leaves no lease, however it ends. -/
theorem flush_resting_tri :
    Tri (Leased.spec T sh) (.producer j) (Resting j false) (flush sh j)
      (fun r s => (r = .unwound ∨ ∃ all, r = .flushed all) ∧ Resting j false s) := by
  have hstable : ∀ r : Sent, Stable (Leased.spec T sh) (.producer j)
      fun s => (r = .unwound ∨ ∃ all, r = .flushed all) ∧ Resting j false s :=
    fun _ => (Stable.const _).and (stable_resting j false)
  have hend : ∀ {r : Sent}, (r = .unwound ∨ ∃ all, r = .flushed all) →
      Tri (Leased.spec T sh) (.producer j) (Resting j false) (.ret (.inr r))
        (Sum.elim (fun _ : Unit => Resting j false)
          fun r s => (r = .unwound ∨ ∃ all, r = .flushed all) ∧ Resting j false s) :=
    fun hr => Tri.ret (hstable _) fun _ _ h => ⟨hr, h⟩
  have hload : Tri (Leased.spec T sh) (.producer j) (Resting j false)
      (.load (.producer j) fun s => s.inFlight j) (fun _ => Resting j false) :=
    loadInFlight_tri.conseq (fun _ _ h => h) fun _ _ _ h => ⟨_, h⟩
  have hgone : Tri (Leased.spec T sh) (.producer j) (Resting j false) noConsumers
      (fun _ => Resting j false) := by
    rintro s hi ⟨out, h⟩
    exact (CustodyLemmas.noConsumers_tri s hi h).mono fun _ _ _ h => ⟨out, h⟩
  refine Tri.loop (I := fun _ => Resting j false) hstable (fun _ => ?_) ()
  refine Tri.bind reclaim_tri fun count => ?_
  split
  · exact hend (.inl rfl)
  refine Tri.bind hload fun outstanding => ?_
  split
  · exact hend (.inr ⟨_, rfl⟩)
  refine Tri.bind hgone fun gone => ?_
  split
  · refine Tri.bind reclaim_tri fun count => ?_
    split
    · exact hend (.inl rfl)
    · exact Tri.bind hload fun _ => hend (.inr ⟨_, rfl⟩)
  · exact Tri.ret (stable_resting j false) fun _ _ h => h

theorem flush_tri (hfits : w.values.length ≤ sh.batch) :
    Tri (spec T sh) (.producer j)
      (fun s => Resting j false s ∧ Committed j w.committed s) (flush sh j)
      (Ends sh j w (.call .flush)) := by
  refine (quiet_tri (CustodyLemmas.flush_tri.and flush_resting_tri)
    (still_quiet flush_still)).conseq (fun _ _ h => ⟨⟨h.1, h.1⟩, h.2⟩) ?_
  rintro r s _ ⟨⟨hloc, hr, out, h⟩, hc⟩
  rcases hr with rfl | ⟨all, rfl⟩
  · exact ⟨hloc, (by simp [Refused, after_last]), wrote_of_committed
      (w := w.after (.call .flush) .unwound) hfits hc fun _ => lease_none h rfl⟩
  · exact ⟨hloc, (by simp [Refused, after_last]), wrote_of_committed
      (w := w.after (.call .flush) (.flushed all)) hfits hc fun _ => lease_none h rfl⟩

theorem dropProducer_yields :
    (dropProducer sh j : LProg T Sent).Yields (fun r => r = .fresh) :=
  Prog.Yields.bind (Prog.Yields.any _) fun _ _ => Prog.Yields.bind (Prog.Yields.any _) fun _ _ =>
    Prog.Yields.bind (Prog.Yields.any _) fun _ _ => rfl

/-- A dropped producer has no say left, so its log speaks of no lease. -/
theorem dropProducer_tri (hfits : w.values.length ≤ sh.batch) :
    Tri (spec T sh) (.producer j)
      (fun s => Hands j false none out s ∧ Committed j w.committed s) (dropProducer sh j)
      (Ends sh j w (.call .drop)) := by
  have hgone : Tri (Leased.spec T sh) (.producer j) (Hands j false none out) (dropProducer sh j)
      (fun r s => Leased.Loc (.producer j) r s ∧ Gone j s) := by
    refine Tri.frame_after CustodyLemmas.dropProducer_tri (fun a s s' _ _ hg h => ?_)
      fun s _ _ _ => Function.update_self _ _ _
    cases a with
    | producer j' =>
      unfold Gone at h ⊢
      by_contra hne
      rw [hg.producing j (by simpa using hne)] at h
      cases h
    | consumer k =>
      unfold Gone
      rw [hg.producing]
      exact h
  refine (quiet_tri (hgone.yields dropProducer_yields) dropProducer_quiet).conseq
    (fun _ _ h => h) ?_
  rintro r s _ ⟨⟨⟨hloc, hdead⟩, rfl⟩, hc⟩
  refine ⟨hloc, (by simp [Refused, after_last]), wrote_of_committed
    (w := w.after (.call .drop) .fresh) hfits hc fun hp => ?_⟩
  rw [hdead] at hp
  cases hp

/-- `push` is a write to the open lease. -/
theorem push_eq (v : T) : push sh j v =
    writeLease j (fun vs => decide (vs.length ≠ sh.batch)) (· ++ [v]) (.pushed false) := by
  have hret : ∀ done : Bool, (.ret (.pushed done) : LProg T Sent) =
      .ret (if done then .pushed true else .pushed false) := by
    intro done
    cases done with
    | true => rfl
    | false => rfl
  unfold push writeLease
  simp only [Prog.bind_eq, Prog.pure_eq, hret, decide_not, Bool.not_eq_true',
    decide_eq_false_iff_not, ite_not]

/-- A write to the open lease, and what the log makes of its result. -/
theorem writeLease_tri {ok : List T → Bool} {f : List T → List T} {refusal : Sent}
    (hf : ∀ vs, o.edit vs = f vs)
    (hfit : ∀ vs, vs.length ≤ sh.batch → ok vs = true → (f vs).length ≤ sh.batch)
    (hrefusal : refusal = .pushed false ∨ refusal = .unwound) :
    Tri (spec T sh) (.producer j) (Open sh j out w) (writeLease j ok f refusal)
      (Ends sh j w o) := by
  refine Tri.bind (R := fun done =>
    Open sh j out (if done then { w with values := f w.values } else w)) ?_ fun done => ?_
  · refine Tri.rmw (stable_open _ _ _) (fun r => stable_open _ _ _) fun s hi h =>
      ⟨trivial, fun _ => ?_⟩
    obtain ⟨b, hb⟩ := Option.isSome_iff_exists.mp h.1.lease
    have hvals : b.values = w.values := h.2.values h.1.producing b hb
    obtain ⟨hinv, hguar, hmine⟩ := setValues_safe hi.1 h.1
      (fun b => if ok b.values then { b with values := f b.values } else b)
      (fun b => by split <;> rfl) fun b => by split <;> rfl
    refine ⟨⟨hinv, Same.moved (s := s) (Same.refl _) hi.2⟩, ⟨hguar, fun _ _ => rfl, id⟩, hmine, ?_⟩
    simp only [hb, Option.any_some, hvals]
    have hlease : ∀ b' : Block T, (s.setLease j ((some b).map fun b =>
        if ok b.values then { b with values := f b.values } else b)).lease j = some b' →
        b' = if ok w.values then { b with values := f w.values } else b := by
      intro b' hb'
      rw [← hvals]
      simpa [Shared.setLease] using hb'.symm
    cases hok : ok w.values with
    | true =>
      refine ⟨h.2.committed, fun _ b' hb' => ?_, hfit _ h.2.fits hok⟩
      rw [hlease b' hb', hok]
      rfl
    | false =>
      refine ⟨h.2.committed, fun _ b' hb' => ?_, h.2.fits⟩
      rw [hlease b' hb', hok]
      exact hvals
  · cases done with
    | true =>
      exact Tri.ret (stable_ends j w o _) fun s _ h =>
        ends_of_hands h.1 (by simp) (by simp) (by simp [Refused]) (wrote_congr h.2 (hf _) rfl)
    | false =>
      rcases hrefusal with rfl | rfl
      · exact Tri.ret (stable_ends j w o _) fun s _ h =>
          ends_of_hands h.1 (by simp) (by simp) (by simp [Refused]) (wrote_congr h.2 rfl rfl)
      · exact Tri.ret (stable_ends j w o _) fun s _ h =>
          ends_of_hands h.1 (by simp) (by simp) (by simp [Refused]) (wrote_congr h.2 rfl rfl)

theorem length_edit {vs values : List T} (hvs : vs.length ≤ sh.batch)
    (hok : values.length ≤ sh.batch - vs.length) : (vs ++ values).length ≤ sh.batch := by
  rw [List.length_append]
  omega

theorem push_tri {v : T} :
    Tri (spec T sh) (.producer j) (Open sh j out w) (push sh j v)
      (Ends sh j w (.call (.push v))) := by
  rw [push_eq]
  refine writeLease_tri (fun _ => rfl) (fun vs hvs hok => ?_) (.inl rfl)
  have hne := of_decide_eq_true hok
  exact length_edit hvs (by rw [List.length_singleton]; omega)

theorem extendFromSlice_tri {values : List T} :
    Tri (spec T sh) (.producer j) (Open sh j out w) (extendFromSlice sh j values)
      (Ends sh j w (.extendFromSlice values)) :=
  writeLease_tri (fun _ => rfl)
    (fun _ hvs hok => length_edit hvs (of_decide_eq_true hok)) (.inl rfl)

theorem asMutSlice_tri {i : Nat} {v : T} :
    Tri (spec T sh) (.producer j) (Open sh j out w) (asMutSlice j i v)
      (Ends sh j w (.asMutSlice i v)) :=
  writeLease_tri (fun _ => rfl) (fun vs hvs _ => by rwa [List.length_set]) (.inr rfl)

theorem advanceInitialized_tri {values : List T} :
    Tri (spec T sh) (.producer j) (Open sh j out w) (advanceInitialized sh j values)
      (Ends sh j w (.advanceInitialized values)) :=
  writeLease_tri (fun _ => rfl)
    (fun _ hvs hok => length_edit hvs (of_decide_eq_true hok)) (.inr rfl)

theorem sendCall_tri (hslots : sh.blocks ≤ sh.slots) (o : WriteOp T) :
    Tri (spec T sh) (.producer j)
      (fun s => Hands j o.onLease none out s ∧ Wrote sh j w s) (sendCall sh j o)
      (Ends sh j w o) := by
  rintro s hi ⟨h, hw⟩
  have hfits := hw.fits
  cases o with
  | extendFromSlice values => exact extendFromSlice_tri s hi ⟨h, hw⟩
  | asMutSlice i v => exact asMutSlice_tri s hi ⟨h, hw⟩
  | advanceInitialized values => exact advanceInitialized_tri s hi ⟨h, hw⟩
  | call o =>
    cases o with
    | tryReserve => exact tryReserve_tri hfits s hi ⟨h, hw.committed⟩
    | reserve => exact reserve_tri hfits s hi ⟨h, hw.committed⟩
    | push v => exact push_tri s hi ⟨h, hw⟩
    | commit => exact commit_tri hslots s hi ⟨h, hw⟩
    | dropLease =>
      refine Tri.bind (quiet_tri rollback_tri (still_quiet rollback_still)) (fun _ => ?_) s hi
        ⟨h, hw.committed⟩
      exact noLease_tri (r := .fresh) (by simp) (by simp) (by simp) hfits rfl
    | reclaim => exact reclaimAll_tri hfits s hi ⟨⟨_, h⟩, hw.committed⟩
    | flush => exact flush_tri hfits s hi ⟨⟨_, h⟩, hw.committed⟩
    | drop => exact dropProducer_tri hfits s hi ⟨h, hw.committed⟩

/-! ### Consumers -/

/-- An access of consumer `k` while it looks for a block. -/
def Receives (k : Nat) (_ : Access) (eff : Shared T → Shared T) : Prop :=
  ∀ s, s.forward.staging k = [] → (eff s).released = s.released ∧
    (Same s.forward (eff s).forward ∨ ∃ i b, Popped k i b s.forward (eff s).forward)

theorem takeBlock_receives : (takeBlock sh k : LProg T Bool).Every (Receives k) := by
  refine Prog.Every.bind (Prog.Every.lift drain_moves fun e eff he s hs => ⟨rfl, he _ hs⟩) ?_
  rintro ⟨done, panicked⟩
  trivial

theorem setPhase_receives (ph : Brokerless.Phase) :
    (onForward (Brokerless.setPhase k ph) : LProg T Unit).Every (Receives k) :=
  Prog.Every.rmw fun _ _ => ⟨rfl, .inl ⟨fun _ => rfl, rfl, rfl, rfl, id, rfl⟩⟩

theorem look_receives : (look sh k : LProg T Bool).Every (Receives k) :=
  Prog.Every.bind (setPhase_receives _) fun _ => takeBlock_receives

theorem recv_receives : (recv sh k : LProg T Bool).Every (Receives k) := by
  refine Prog.Every.loop (fun _ => Prog.Every.bind look_receives fun got => ?_) ()
  cases got with
  | true => trivial
  | false =>
    refine Prog.Every.bind (Prog.Every.rmw fun s _ => ⟨rfl, .inl ?_⟩) fun gone => ?_
    · dsimp only
      split
      · exact ⟨fun _ => rfl, rfl, rfl, rfl, id, rfl⟩
      · exact Same.refl _
    · cases gone with
      | true =>
        refine Prog.Every.bind takeBlock_receives fun got => ?_
        cases got with
        | true => trivial
        | false => exact Prog.Every.bind (setPhase_receives _) fun _ => trivial
      | false => trivial

variable {claim : Option (Nat × Nat)} {rd : List (Block T)}

theorem setPhase_tri (ph : Brokerless.Phase) :
    Tri (Leased.spec T sh) (.consumer k) (Holds k claim rd) (onForward (Brokerless.setPhase k ph))
      (fun _ => Holds k claim rd) :=
  Tri.store (stable_holds _ _ _) (stable_holds _ _ _) fun _ hi h =>
    ⟨trivial, fun _ => frame_safe hi h rfl rfl rfl rfl rfl rfl fun _ _ => rfl⟩

theorem isDisconnected_tri :
    Tri (Leased.spec T sh) (.consumer k) (Holds k claim rd)
      (onForward (Brokerless.isDisconnected k))
      (fun _ => Holds k claim rd) := by
  refine Tri.rmw (stable_holds _ _ _) (fun _ => stable_holds _ _ _) fun s hi h =>
    ⟨trivial, fun _ => ?_⟩
  dsimp only
  split
  · exact frame_safe hi h rfl rfl rfl rfl rfl rfl fun _ _ => rfl
  · exact frame_safe hi h rfl rfl rfl rfl rfl rfl fun _ _ => rfl

theorem look_tri (hk : k < sh.consumers) :
    Tri (Leased.spec T sh) (.consumer k) (Holds k none []) (look sh k) (fun got => Took k got) :=
  Tri.bind (setPhase_tri _) fun _ => takeBlock_tri hk

theorem recv_tri (hk : k < sh.consumers) :
    Tri (Leased.spec T sh) (.consumer k) (Holds k none []) (recv sh k) (fun got => Took k got) := by
  refine Tri.loop (I := fun _ => Holds k none []) (fun got => stable_took k got) (fun _ => ?_) ()
  refine Tri.bind (look_tri hk) fun got => ?_
  cases got with
  | true => exact Tri.ret (stable_took k _) fun _ _ h => h
  | false =>
    refine Tri.bind isDisconnected_tri fun gone => ?_
    cases gone with
    | true =>
      refine Tri.bind (takeBlock_tri hk) fun got => ?_
      cases got with
      | true => exact Tri.ret (stable_took k _) fun _ _ h => h
      | false =>
        exact Tri.bind (setPhase_tri _) fun _ => Tri.ret (stable_took k false) fun _ _ h => h
    | false => exact Tri.ret (stable_holds _ _ _) fun _ _ h => h

/-- The blocks consumer `k` was handed before those it reads. -/
def Past (k : Nat) (past : List (Block T)) (s : Shared T) : Prop :=
  (s.forward.handed k).take (s.released k) = past

theorem handed_of_past {past : List (Block T)} {s : Shared T} (h : Past k past s) :
    s.forward.handed k = past ++ s.reading k := by
  rw [← h]
  exact (List.take_append_drop _ _).symm

/-- What consumer `k` was handed, and the part before what it reads, are its own. -/
theorem handed_guar {a : Actor} (ha : a ≠ .consumer k) {s s' : Shared T}
    (hg : (spec T sh).guar a s s') :
    s'.forward.handed k = s.forward.handed k ∧ s'.released k = s.released k := by
  cases a with
  | producer j => exact ⟨by rw [hg.1.handed], by rw [hg.1.released]⟩
  | consumer k' => exact (hg.1.others k fun he => ha (by rw [he])).2

theorem stable_past (k : Nat) (past : List (Block T)) :
    Stable (spec T sh) (.consumer k) (Past k past) := by
  intro a s s' ha _ _ hg h
  obtain ⟨h₁, h₂⟩ := handed_guar ha hg
  unfold Past
  rw [h₁, h₂]
  exact h

theorem stable_wasLent (k : Nat) (received : List (List T)) :
    Stable (spec T sh) (.consumer k) (WasLent k received) := by
  intro a s s' ha _ _ hg h
  unfold WasLent
  rw [(handed_guar ha hg).1]
  exact h

theorem stable_loc_consumer (k : Nat) (r : Reader T) :
    Stable (spec T sh) (.consumer k) (Loc sh (.consumer k) r) :=
  (stable_old (CustodyLemmas.stable_loc_consumer k r.last)).and (stable_wasLent k _)

/-- A program that looks for a block keeps what came before. -/
theorem receives_carry {past : List (Block T)} {e : Access} {eff : Shared T → Shared T}
    (he : Receives k e eff) : Carries sh (.consumer k) (Past k past) e eff := by
  intro s hi hm hs
  obtain ⟨hrel, hsame | ⟨i, b, hpop⟩⟩ := he s (hi.staged k)
  · refine ⟨hsame.moved hm, ⟨fun _ _ => by rw [hsame.accepted], hsame.gone⟩, ?_⟩
    unfold Past
    rw [hsame.handed, hrel]
    exact hs
  · refine ⟨hpop.moved hm, ⟨fun _ _ => by rw [hpop.accepted], hpop.gone⟩, ?_⟩
    unfold Past
    rw [hpop.handed, hrel, Function.update_self, List.take_append_of_le_length (hi.released_le k)]
    exact hs

/-- The consumer reads a block the log does not have yet, or none. -/
def Lent (k : Nat) (received : List (List T)) (got : Bool) (s : Shared T) : Prop :=
  if got then ∃ b, Holds k none [b] s ∧ WasLent k (received ++ [b.values]) s
  else Holds k none [] s ∧ WasLent k received s

theorem stable_lent (k : Nat) (received : List (List T)) (got : Bool) :
    Stable (spec T sh) (.consumer k) (Lent k received got) := by
  cases got with
  | true =>
    exact Stable.exists fun b => (stable_old (stable_holds k none [b])).and (stable_wasLent k _)
  | false => exact (stable_old (stable_holds k none [])).and (stable_wasLent k received)

theorem lent_tri {p : LProg T Bool} {received : List (List T)}
    (h : Tri (Leased.spec T sh) (.consumer k) (Holds k none []) p (fun got => Took k got))
    (hp : p.Every (Receives k)) :
    Tri (spec T sh) (.consumer k) (fun s => Holds k none [] s ∧ WasLent k received s) p
      (Lent k received) := by
  rintro s hi ⟨hm, hl⟩
  have hpast : Past k (s.forward.handed k) s := by
    have hr := hm.reading
    unfold Shared.reading at hr
    exact List.take_of_length_le (List.drop_eq_nil_iff.mp hr)
  refine Safe.mono (carry h (stable_past k _) (hp.mono fun _ _ he => receives_carry he) s hi
    ⟨hm, hpast⟩) fun got s' _ hq => ?_
  obtain ⟨htook, hpast'⟩ := hq
  have hhanded := handed_of_past hpast'
  cases got with
  | true =>
    obtain ⟨b, hb⟩ := htook
    refine ⟨b, hb, ?_⟩
    unfold WasLent at hl ⊢
    rw [hhanded, hb.reading, List.map_append, hl]
    rfl
  | false =>
    have hb : Holds k none [] s' := htook
    refine ⟨hb, ?_⟩
    unfold WasLent at hl ⊢
    rw [hhanded, hb.reading, List.append_nil, hl]

/-- A quiet program keeps what a consumer was handed. -/
theorem quiet_consumer_tri {P : Shared T → Prop} {Q : α → Shared T → Prop} {p : LProg T α}
    (h : Tri (Leased.spec T sh) (.consumer k) P p Q) (hp : p.Every Quiet)
    {received : List (List T)} :
    Tri (spec T sh) (.consumer k) (fun s => P s ∧ WasLent k received s) p
      fun r s => Q r s ∧ WasLent k received s := by
  refine carry h (stable_wasLent k received) (hp.mono fun e eff he s _ hm hs => ?_)
  have hsame := he s
  refine ⟨hsame.moved hm, ⟨fun _ _ => by rw [hsame.accepted], hsame.gone⟩, ?_⟩
  unfold WasLent
  rw [hsame.handed]
  exact hs

/-- The caller's look at what it was lent makes the log true. -/
theorem asSlice_tri {received : List (List T)} :
    Tri (spec T sh) (.consumer k) (Lent k received true) (asSlice k)
      (fun vs s => Leased.Loc (.consumer k) (some true) s ∧ WasLent k (received ++ [vs]) s) := by
  refine load_tri (stable_lent k received true)
    (fun vs => (stable_old (CustodyLemmas.stable_loc_consumer k _)).and (stable_wasLent k _))
    (fun _ _ => trivial) fun s _ h => ?_
  obtain ⟨b, hb, hl⟩ := h
  rw [hb.reading]
  exact ⟨loc_of_holds hb _, hl⟩

theorem receive_tri {r : Reader T} {p : LProg T Bool}
    (h : Tri (Leased.spec T sh) (.consumer k) (Holds k none []) p (fun got => Took k got))
    (hp : p.Every (Receives k)) :
    Tri (spec T sh) (.consumer k) (fun s => Holds k none [] s ∧ WasLent k r.received s)
      (p.bind fun got => .ret (some got))
      (fun got s => ∃ was, got = some was ∧ Lent k r.received was s) :=
  Tri.bind (lent_tri h hp) fun was =>
    Tri.ret (Stable.exists fun was => (Stable.const _).and (stable_lent k _ was))
      fun _ _ h => ⟨was, rfl, h⟩

/-- What a call found, logged. -/
theorem logged_tri {o : RecvOp} {r : Reader T} {P : Shared T → Prop}
    (h : Tri (spec T sh) (.consumer k) P (readCall sh k o) (fun got s =>
      (∃ was, got = some was ∧ Lent k r.received was s) ∨
        (got = none ∧ Leased.Loc (.consumer k) none s ∧ WasLent k r.received s))) :
    Tri (spec T sh) (.consumer k) P (readBody sh k o r) (Loc sh (.consumer k)) := by
  refine Tri.bind h fun got => ?_
  rintro s hi (⟨was, rfl, hl⟩ | ⟨rfl, hl⟩)
  · cases was with
    | true =>
      refine Tri.bind asSlice_tri (fun vs => ?_) s hi hl
      exact Tri.ret (stable_loc_consumer k _) fun _ _ h => h
    | false => exact Safe.ret (stable_loc_consumer k _) ⟨loc_of_holds hl.1 _, hl.2⟩
  · exact Safe.ret (stable_loc_consumer k _) hl

/-- A call that receives nothing. -/
theorem release_tri {r : Reader T} {p : LProg T Unit} {P : Shared T → Prop}
    (h : Tri (Leased.spec T sh) (.consumer k) P p (fun _ => Leased.Loc (.consumer k) none))
    (hp : p.Every Quiet) :
    Tri (spec T sh) (.consumer k) (fun s => P s ∧ WasLent k r.received s)
      (p.bind fun _ => .ret (none : Option Bool))
      (fun got s => got = none ∧ Leased.Loc (.consumer k) none s ∧ WasLent k r.received s) :=
  Tri.bind (quiet_consumer_tri h hp) fun _ => Tri.ret ((Stable.const _).and
    ((stable_old (CustodyLemmas.stable_loc_consumer k none)).and (stable_wasLent k _)))
    fun _ _ h => ⟨rfl, h⟩

theorem readBody_tri (hslots : sh.blocks ≤ sh.slots) (hk : k < sh.consumers) (o : RecvOp)
    (honLease : o.onLease = !rd.isEmpty) (r : Reader T) :
    Tri (spec T sh) (.consumer k) (fun s => Holds k none rd s ∧ WasLent k r.received s)
      (readBody sh k o r) (Loc sh (.consumer k)) := by
  refine logged_tri ?_
  cases rd with
  | nil =>
    cases o with
    | tryRecv =>
      exact (receive_tri (look_tri hk) look_receives).conseq (fun _ _ h => h) fun _ _ _ h => .inl h
    | recv =>
      exact (receive_tri (recv_tri hk) recv_receives).conseq (fun _ _ h => h) fun _ _ _ h => .inl h
    | dropLease => cases honLease
    | drop =>
      exact (release_tri dropConsumer_tri dropConsumer_quiet).conseq (fun _ _ h => h)
        fun _ _ _ h => .inr h
  | cons b rest =>
    cases o with
    | dropLease =>
      exact (release_tri ((dropReadLease_tri hslots hk).conseq (fun _ _ h => h)
        fun _ _ _ h => loc_of_holds h none) (still_quiet dropReadLease_still)).conseq
        (fun _ _ h => h) fun _ _ _ h => .inr h
    | tryRecv => cases honLease
    | recv => cases honLease
    | drop => cases honLease

theorem verified (hslots : sh.blocks ≤ sh.slots) : (sys T sh).Verified (spec T sh) := by
  intro a o l
  cases a with
  | producer j =>
    rintro s hi ⟨⟨hl, _, hw⟩, hcan⟩
    obtain ⟨hp, hlease⟩ : s.forward.producing j = true ∧ o.onLease = (s.lease j).isSome := by
      simpa [sys] using hcan
    obtain ⟨hheld, _, _⟩ := hl hp
    exact Tri.bind (sendCall_tri hslots o)
      (fun r => Tri.ret (stable_loc_producer j _) fun _ _ h => h)
      s hi ⟨⟨hp, hlease.symm, rfl, fun k => by simpa using hheld k⟩, hw⟩
  | consumer k =>
    rintro s hi ⟨⟨hl, hr⟩, hcan⟩
    obtain ⟨⟨hk, _⟩, hlease⟩ : (k < sh.consumers ∧ s.forward.dropped k = false) ∧
        o.onLease = !(s.reading k).isEmpty := by
      simpa [sys] using hcan
    refine readBody_tri hslots hk o hlease l s hi ⟨⟨rfl, fun i => ?_, by simp⟩, hr⟩
    simpa using hl i

theorem good_init : Good (spec T sh) (init T sh) := by
  have hold : Good (Leased.spec T sh) (Leased.init T sh) := CustodyLemmas.good_init
  refine ⟨⟨hold.1, fun _ => rfl, fun _ => rfl, fun _ _ h => (by cases h), rfl⟩, fun a => ?_⟩
  cases a with
  | producer j =>
    exact ThreadOk.idle (stable_loc_producer j _)
      ⟨hold.loc (i := .producer j) rfl, fun h => (by cases h), rfl, fun _ _ h => (by cases h),
        Nat.zero_le _⟩
  | consumer k =>
    exact ThreadOk.idle (stable_loc_consumer k _) ⟨hold.loc (i := .consumer k) rfl, rfl⟩

end BatchesLemmas

open BatchesLemmas

/-- One producer with a single block of two values, and one consumer. -/
def pair : Shape := ⟨1, 1, 1, 1, 2⟩

end Batches

end Prescient.Leased
