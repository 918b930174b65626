import Prescient.Actor

/-!
# The waiter on thread parking

The eventcount of `park/std_thread.rs`: one waiter, which may be called on another thread
every time, and any number of notifiers. `park` publishes the handle of its thread under a
lock, and a notifier that finds the flag up lowers it, reads the handle under the same lock
and unparks that thread. The token of `thread::park` belongs to the thread, so that a late
unpark reaches a thread that has moved on, and other code may set or use up the tokens of
threads that are not in the waiter.

The wait is the one of the blocking receive loop (`mpsc/chan.rs`): poll, arm, look again,
park, disarm. What is polled for is a number of things published and not taken yet. The time
limit of the park is left out. `stage` and `thread` are history: where a notifier stands, and
the thread the waiter is called on.

* `asleep_missed_nothing`: no wakeup is lost, in any interleaving
-/

namespace Prescient.StdThread

inductive Actor : Type
  | waiter
  | notifier (i : Nat)
  | stranger (m : Nat)
deriving DecidableEq

/-- Where a notifier stands: outside `wake`, with something published it has not announced,
past a look that found the flag up, past lowering it, with the lock, with the handle in hand,
and past unlocking, about to unpark. -/
inductive Stage : Type
  | idle
  | rung
  | saw
  | cleared
  | holding
  | told (handle : Option Nat)
  | calling (thread : Nat)
deriving DecidableEq

/-- The stages in which a notifier has the lock. -/
def Stage.locks : Stage → Bool
  | .holding => true
  | .told _ => true
  | _ => false

/-- The stages from which a notifier comes to unpark thread `t`, once its handle is published. -/
def Stage.comes (t : Nat) : Stage → Bool
  | .cleared => true
  | .holding => true
  | .told h => decide (h = some t)
  | .calling t' => decide (t' = t)
  | _ => false

structure Shared where
  parked : Bool
  handle : Option Nat
  lock : Option Actor
  token : Nat → Bool
  work : Nat
  stage : Nat → Stage
  thread : Option Nat

inductive Access : Type
  | work
  | parked
  | lock
  | handle
  | token (t : Nat)
  | sleep
  | own
deriving DecidableEq

abbrev PProg := Prog Access Shared

def Shared.setStage (s : Shared) (i : Nat) (x : Stage) : Shared :=
  { s with stage := Function.update s.stage i x }

def Shared.setToken (s : Shared) (t : Nat) (x : Bool) : Shared :=
  { s with token := Function.update s.token t x }

/-! ## The waiter -/

def arm : PProg Unit := .store .parked fun s => { s with parked := true }

def disarm : PProg Unit := .store .parked fun s => { s with parked := false }

def lockHandle : PProg Unit :=
  .await .lock (fun s => decide (s.lock = none)) fun s => { s with lock := some .waiter }

def unlockHandle : PProg Unit := .store .lock fun s => { s with lock := none }

/-- `thread::park`, on thread `t`. -/
def threadPark (t : Nat) : PProg Unit := .await .sleep (fun s => s.token t) fun s => s.setToken t false

def park (t : Nat) : PProg Unit := do
  let parked ← Prog.load .parked Shared.parked
  if parked then
    lockHandle
    let parked ← Prog.load .parked Shared.parked
    if parked then
      Prog.store .handle fun s => { s with handle := some t }
      unlockHandle
      threadPark t
    else
      unlockHandle
  else
    return ()

/-- One thing is taken, if there is one. -/
def take : PProg Bool :=
  .rmw .work (fun s => { s with work := s.work - 1 }) fun s => decide (s.work ≠ 0)

/-- The receive loop, on thread `t`. -/
def recv (t : Nat) : PProg Unit := do
  Prog.store .own fun s => { s with thread := some t }
  Prog.loop () fun _ => do
    let got ← take
    if got then
      return .inr ()
    else
      arm
      let any ← Prog.load .work fun s => decide (s.work ≠ 0)
      (if any then return () else park t : PProg Unit)
      disarm
      return .inl ()
  Prog.store .own fun s => { s with thread := none }

/-! ## The others -/

section Notifier

variable (i : Nat)

def wake : PProg Unit := do
  let parked ← Prog.rmw .parked (fun s => s.setStage i (if s.parked then .saw else .idle)) Shared.parked
  if parked then
    Prog.store .parked fun s => { s.setStage i .cleared with parked := false }
    Prog.await .lock (fun s => decide (s.lock = none)) fun s =>
      { s.setStage i .holding with lock := some (.notifier i) }
    let t ← Prog.rmw .handle (fun s => s.setStage i (.told s.handle)) Shared.handle
    Prog.store .lock fun s => { s.setStage i (t.elim .idle .calling) with lock := none }
    match t with
    | none => return ()
    | some t => Prog.store (.token t) fun s => (s.setStage i .idle).setToken t true
  else
    return ()

/-- Something is published, and announced. -/
def notify : PProg Unit := do
  Prog.store .work fun s => { s.setStage i .rung with work := s.work + 1 }
  wake i

end Notifier

inductive StrangerOp : Type
  | unpark (t : Nat)
  | park (t : Nat)

/-- Code that has nothing to do with the waiter. It runs on threads the waiter is not on. -/
def stranger : StrangerOp → PProg Unit
  | .unpark t => .store (.token t) fun s => s.setToken t true
  | .park t =>
    .await (.token t) (fun s => s.token t && decide (s.thread ≠ some t)) fun s => s.setToken t false

def sys : Sys Actor Access Shared (fun _ => Unit) where
  Op
    | .waiter => Nat
    | .notifier _ => Unit
    | .stranger _ => StrangerOp
  can _ _ _ _ := true
  body
    | .waiter, t, _ => recv t
    | .notifier i, _, _ => notify i
    | .stranger _, o, _ => stranger o

def init : Config Actor Access Shared (fun _ => Unit) where
  shared := ⟨false, none, none, fun _ => false, 0, fun _ => .idle, none⟩
  thr _ := .idle ()

/-- The waiter is in the park of a thread whose token is not set. -/
structure Asleep (c : Config Actor Access Shared (fun _ => Unit)) (t : Nat) : Prop where
  at_sleep : c.At .waiter .sleep
  thread : c.shared.thread = some t
  token : c.shared.token t = false

namespace StdThreadLemmas

def Inv (s : Shared) : Prop := ∀ i, (s.stage i).locks = true → s.lock = some (.notifier i)

/-- What one access of notifier `i` does. -/
inductive NotifierStep (i : Nat) (s : Shared) : Shared → Prop
  | publish : s.stage i = .idle →
      NotifierStep i s { s.setStage i .rung with work := s.work + 1 }
  | look : s.stage i = .rung → NotifierStep i s (s.setStage i (if s.parked then .saw else .idle))
  | lower : s.stage i = .saw → NotifierStep i s { s.setStage i .cleared with parked := false }
  | lock : s.stage i = .cleared → s.lock = none →
      NotifierStep i s { s.setStage i .holding with lock := some (.notifier i) }
  | read : s.stage i = .holding → NotifierStep i s (s.setStage i (.told s.handle))
  | unlock (h : Option Nat) : s.stage i = .told h →
      NotifierStep i s { s.setStage i (h.elim .idle .calling) with lock := none }
  | unpark (t : Nat) : s.stage i = .calling t →
      NotifierStep i s ((s.setStage i .idle).setToken t true)

/-- What an access of the waiter leaves alone. -/
structure WaiterStep (s s' : Shared) : Prop where
  stage : s'.stage = s.stage
  lock : ∀ i, s.lock = some (.notifier i) → s'.lock = s.lock

/-- What an access of a stranger does. -/
inductive StrangerStep (s : Shared) : Shared → Prop
  | token (t : Nat) (x : Bool) : (x = false → s.thread ≠ some t) → StrangerStep s (s.setToken t x)

def Guar (s s' : Shared) : Actor → Prop
  | .waiter => WaiterStep s s'
  | .notifier i => NotifierStep i s s'
  | .stranger _ => StrangerStep s s'

/-- Whatever has been published, its notifier has not come to its look yet, or the flag is
down, or somebody is about to lower it. -/
def Missed (s : Shared) : Prop :=
  s.work ≠ 0 → (∃ i, s.stage i = .rung) ∨ s.parked = false ∨ ∃ i, s.stage i = .saw

/-- The flag is up, or some notifier is in a stage with `P`. -/
def Up (P : Stage → Prop) (s : Shared) : Prop := s.parked = true ∨ ∃ k, P (s.stage k)

/-- The flag is up, or who lowered it has not read the handle yet: the waiter has the lock. -/
def Due (s : Shared) : Prop := s.lock = some .waiter ∧ Up (· = .cleared) s

/-- The waiter is on thread `t`, and its flag is up, or the thread has been unparked, or is
about to be. -/
def Called (t : Nat) (s : Shared) : Prop :=
  s.thread = some t ∧ s.handle = some t ∧
    (s.token t = true ∨ Up (fun x => x.comes t = true) s)

def spec : Spec Actor Access Shared (fun _ => Unit) where
  inv := Inv
  guar j s s' := Guar s s' j
  pre
    | .waiter, .sleep, s => Missed s ∧ ∃ t, Called t s
    | _, _, _ => True
  ok _ _ _ := True
  loc
    | .notifier i, _, s => s.stage i = .idle
    | _, _, _ => True

variable {s s' : Shared} {i j : Nat}

@[simp] theorem setStage_self (s : Shared) (i : Nat) (x : Stage) : (s.setStage i x).stage i = x := by
  simp [Shared.setStage]

theorem setStage_of_ne (s : Shared) (x : Stage) (h : j ≠ i) : (s.setStage i x).stage j = s.stage j := by
  simp [Shared.setStage, h]

/-- A notifier leaves a stage some notifier is in for that, or stays in it. -/
theorem exists_stage {P : Stage → Prop} {f : Nat → Stage} {x : Stage} (hx : ¬ P (f i))
    (h : ∃ k, P (f k)) : ∃ k, P (Function.update f i x k) := by
  obtain ⟨k, hk⟩ := h
  refine ⟨k, ?_⟩
  rw [Function.update_of_ne]
  · exact hk
  · rintro rfl
    exact hx hk

theorem exists_self {P : Stage → Prop} {f : Nat → Stage} {x : Stage} (hx : P x) :
    ∃ k, P (Function.update f i x k) := ⟨i, by rwa [Function.update_self]⟩

/-- A notifier goes from a stage that no published thing rests on. -/
theorem Missed.move (h : Missed s) {x : Stage} (hrung : s.stage i ≠ .rung) (hsaw : s.stage i ≠ .saw)
    (hstage : s'.stage = Function.update s.stage i x) (hwork : s'.work = s.work)
    (hparked : s'.parked = s.parked) : Missed s' := by
  intro hw
  rw [hparked, hstage]
  rw [hwork] at hw
  rcases h hw with h | h | h
  · exact .inl (exists_stage (P := (· = .rung)) hrung h)
  · exact .inr (.inl h)
  · exact .inr (.inr (exists_stage (P := (· = .saw)) hsaw h))

theorem stable_missed : Stable spec .waiter Missed := by
  intro a s s' ha _ _ hg h
  cases a with
  | waiter => exact absurd rfl ha
  | stranger m =>
    obtain ⟨t, x, -⟩ := hg
    exact h
  | notifier i =>
    cases hg with
    | publish _ => exact fun _ => .inl (exists_self (P := (· = .rung)) rfl)
    | look hi =>
      intro hw
      by_cases hp : s.parked = true
      · refine .inr (.inr ⟨i, ?_⟩)
        rw [setStage_self, if_pos hp]
      · exact .inr (.inl (Bool.not_eq_true _ ▸ hp))
    | lower _ => exact fun _ => .inr (.inl rfl)
    | lock hi _ => exact h.move (by simp [hi]) (by simp [hi]) rfl rfl rfl
    | read hi => exact h.move (by simp [hi]) (by simp [hi]) rfl rfl rfl
    | unlock t hi => exact h.move (by simp [hi]) (by simp [hi]) rfl rfl rfl
    | unpark t hi => exact h.move (by simp [hi]) (by simp [hi]) rfl rfl rfl

/-- A notifier goes on to a stage as good as the one it was in. -/
theorem Up.move {P : Stage → Prop} (h : Up P s) {x : Stage} (hx : P (s.stage i) → P x)
    (hstage : s'.stage = Function.update s.stage i x) (hparked : s'.parked = s.parked) : Up P s' := by
  unfold Up
  rw [hparked, hstage]
  refine h.imp_right fun hk => ?_
  by_cases hi : P (s.stage i)
  · exact exists_self (hx hi)
  · exact exists_stage hi hk

/-- While the waiter has the lock, who lowers the flag has yet to read the handle. -/
theorem stable_due : Stable spec .waiter Due := by
  rintro a s s' ha hinv _ hg ⟨hlock, h⟩
  cases a with
  | waiter => exact absurd rfl ha
  | stranger m =>
    obtain ⟨t, x, -⟩ := hg
    exact ⟨hlock, h⟩
  | notifier i =>
    have hnot : (s.stage i).locks = true → False := by
      intro hl
      rw [hinv i hl] at hlock
      cases hlock
    cases hg with
    | publish hi => exact ⟨hlock, h.move (by simp [hi]) rfl rfl⟩
    | look hi => exact ⟨hlock, h.move (by simp [hi]) rfl rfl⟩
    | lower hi => exact ⟨hlock, .inr (exists_self (P := (· = .cleared)) rfl)⟩
    | lock hi hnone =>
      rw [hnone] at hlock
      cases hlock
    | read hi => exact (hnot (by rw [hi]; rfl)).elim
    | unlock t hi => exact (hnot (by rw [hi]; rfl)).elim
    | unpark t hi => exact ⟨hlock, h.move (by simp [hi]) rfl rfl⟩

theorem stable_called (t : Nat) : Stable spec .waiter (Called t) := by
  rintro a s s' ha hinv _ hg ⟨hthread, hhandle, h⟩
  cases a with
  | waiter => exact absurd rfl ha
  | stranger m =>
    obtain ⟨t', x, hx⟩ := hg
    refine ⟨hthread, hhandle, h.imp_left fun htok => ?_⟩
    show Function.update s.token t' x t = true
    by_cases ht : t = t'
    · subst ht
      rw [Function.update_self]
      by_contra hne
      exact hx (Bool.not_eq_true _ ▸ hne) hthread
    · rwa [Function.update_of_ne ht]
  | notifier i =>
    cases hg with
    | publish hi => exact ⟨hthread, hhandle, h.imp_right fun h => h.move (by simp [hi, Stage.comes]) rfl rfl⟩
    | look hi => exact ⟨hthread, hhandle, h.imp_right fun h => h.move (by simp [hi, Stage.comes]) rfl rfl⟩
    | lower hi => exact ⟨hthread, hhandle, .inr (.inr (exists_self (P := fun x => x.comes t = true) rfl))⟩
    | lock hi _ => exact ⟨hthread, hhandle, h.imp_right fun h => h.move (fun _ => rfl) rfl rfl⟩
    | read hi =>
      refine ⟨hthread, hhandle, h.imp_right fun h => h.move (fun _ => ?_) rfl rfl⟩
      rw [hhandle]
      exact decide_eq_true rfl
    | unlock h' hi =>
      refine ⟨hthread, hhandle, h.imp_right fun h => h.move (fun hc => ?_) rfl rfl⟩
      rw [hi] at hc
      rw [of_decide_eq_true hc]
      exact decide_eq_true rfl
    | unpark t' hi =>
      refine ⟨hthread, hhandle, ?_⟩
      by_cases ht : t = t'
      · subst ht
        left
        show Function.update s.token t true t = true
        rw [Function.update_self]
      · refine h.imp (fun htok => ?_) fun h => h.move (fun hc => ?_) rfl rfl
        · show Function.update s.token t' true t = true
          rwa [Function.update_of_ne ht]
        · rw [hi] at hc
          exact absurd (of_decide_eq_true hc).symm ht

/-! ### The notifiers -/

theorem stable_stage (i : Nat) (x : Stage) : Stable spec (.notifier i) fun s => s.stage i = x := by
  intro a s s' ha _ _ hg h
  cases a with
  | waiter => exact (congrFun hg.stage i).trans h
  | stranger m =>
    obtain ⟨t, y, -⟩ := hg
    exact h
  | notifier j =>
    have hj : i ≠ j := fun he => ha (by rw [he])
    cases hg <;> exact (setStage_of_ne s _ hj).trans h

/-- The lock is where it was, for all but a notifier that moves between stages without it. -/
theorem Inv.move (h : Inv s) (x : Stage) (hx : x.locks = true → (s.stage i).locks = true)
    (hstage : s'.stage = Function.update s.stage i x) (hlock : s'.lock = s.lock) : Inv s' := by
  intro k hk
  rw [hlock]
  rw [hstage] at hk
  by_cases hki : k = i
  · subst hki
    rw [Function.update_self] at hk
    exact h k (hx hk)
  · rw [Function.update_of_ne hki] at hk
    exact h k hk

theorem inv_take (h : Inv s) (hnone : s.lock = none) :
    Inv { s.setStage i .holding with lock := some (.notifier i) } := by
  intro k hk
  by_cases hki : k = i
  · rw [hki]
  · have := h k (by rwa [← setStage_of_ne s .holding hki])
    rw [hnone] at this
    cases this

theorem inv_leave (h : Inv s) {x : Stage} (hi : (s.stage i).locks = true) (hx : x.locks = false) :
    Inv { s.setStage i x with lock := none } := by
  intro k hk
  have hk : ((s.setStage i x).stage k).locks = true := hk
  by_cases hki : k = i
  · rw [hki, setStage_self, hx] at hk
    cases hk
  · rw [setStage_of_ne s x hki] at hk
    have := (h k hk).symm.trans (h i hi)
    simp only [Option.some.injEq, Actor.notifier.injEq] at this
    exact absurd this hki

theorem wake_tri (i : Nat) :
    Tri spec (.notifier i) (fun s => s.stage i = .rung) (wake i) fun _ s => s.stage i = .idle := by
  refine Tri.bind (R := fun parked s => s.stage i = if parked then .saw else .idle) ?_ fun parked => ?_
  · refine Tri.rmw (stable_stage i _) (fun _ => stable_stage i _) fun s hi hs =>
      ⟨trivial, fun _ => ⟨?_, .look hs, setStage_self s i _⟩⟩
    refine hi.move (i := i) _ (fun hl => ?_) rfl rfl
    split at hl <;> cases hl
  cases parked with
  | false => exact Tri.ret (stable_stage i _) fun s _ hs => hs
  | true =>
    refine Tri.bind (R := fun _ s => s.stage i = .cleared) ?_ fun _ => ?_
    · refine Tri.store (stable_stage i _) (stable_stage i _) fun s hi hs =>
        ⟨trivial, fun _ => ⟨hi.move (i := i) .cleared (fun hl => absurd hl Bool.false_ne_true) rfl rfl, .lower hs, ?_⟩⟩
      exact setStage_self s i _
    refine Tri.bind (R := fun _ s => s.stage i = .holding) ?_ fun _ => ?_
    · refine Tri.act (stable_stage i _) fun s hi hs => ⟨trivial, fun _ hen => ?_⟩
      have hnone := of_decide_eq_true hen
      exact ⟨inv_take hi hnone, .lock hs hnone, Safe.ret (stable_stage i _) (setStage_self s i _)⟩
    refine Tri.bind (R := fun t s => s.stage i = .told t) ?_ fun t => ?_
    · refine Tri.rmw (stable_stage i _) (fun _ => stable_stage i _) fun s hi hs =>
        ⟨trivial, fun _ => ⟨?_, .read hs, setStage_self s i _⟩⟩
      exact hi.move (i := i) _ (fun _ => by rw [hs]; rfl) rfl rfl
    refine Tri.bind (R := fun _ s => s.stage i = t.elim .idle .calling) ?_ fun _ => ?_
    · refine Tri.store (stable_stage i _) (stable_stage i _) fun s hi hs =>
        ⟨trivial, fun _ => ⟨inv_leave hi (by rw [hs]; rfl) ?_, .unlock t hs, setStage_self s i _⟩⟩
      cases t with
      | none => rfl
      | some t => rfl
    cases t with
    | none => exact Tri.ret (stable_stage i _) fun s _ hs => hs
    | some t =>
      refine Tri.store (stable_stage i _) (stable_stage i _) fun s hi hs =>
        ⟨trivial, fun _ => ⟨hi.move (i := i) .idle (fun hl => absurd hl Bool.false_ne_true) rfl rfl, .unpark t hs, ?_⟩⟩
      exact setStage_self s i _

theorem notify_tri (i : Nat) :
    Tri spec (.notifier i) (fun s => s.stage i = .idle) (notify i) fun _ s => s.stage i = .idle := by
  refine Tri.bind (R := fun _ s => s.stage i = .rung) ?_ fun _ => wake_tri i
  refine Tri.store (stable_stage i _) (stable_stage i _) fun s hi hs =>
    ⟨trivial, fun _ => ⟨hi.move (i := i) .rung (fun hl => absurd hl Bool.false_ne_true) rfl rfl, .publish hs, setStage_self s i _⟩⟩

theorem stranger_tri (m : Nat) (o : StrangerOp) :
    Tri spec (.stranger m) (fun _ => True) (stranger o) fun _ _ => True := by
  cases o with
  | unpark t =>
    exact Tri.store (Stable.const _) (Stable.const _) fun s hi _ =>
      ⟨trivial, fun _ => ⟨hi, .token t true (fun h => nomatch h), trivial⟩⟩
  | park t =>
    refine Tri.act (Stable.const _) fun s hi _ => ⟨trivial, fun _ hen => ?_⟩
    simp only [Bool.and_eq_true, decide_eq_true_eq] at hen
    exact ⟨hi, .token t false fun _ => hen.2, Safe.ret (Stable.const _) trivial⟩

/-! ### The waiter -/

/-- The waiter has been called on thread `t`. -/
theorem stable_thread (t : Nat) : Stable spec .waiter fun s => s.thread = some t := by
  intro a s s' ha _ _ hg h
  cases a with
  | waiter => exact absurd rfl ha
  | stranger m =>
    obtain ⟨t', y, -⟩ := hg
    exact h
  | notifier i => cases hg <;> exact h

/-- An access of the waiter that changes neither stages nor lock. -/
theorem waiterStep_of {f : Shared → Shared} (hstage : (f s).stage = s.stage) (hlock : (f s).lock = s.lock)
    (h : Inv s) : Inv (f s) ∧ WaiterStep s (f s) := by
  refine ⟨fun k hk => ?_, hstage, fun _ _ => hlock⟩
  rw [hstage] at hk
  rw [hlock]
  exact h k hk

theorem stable_locked : Stable spec .waiter fun s => s.lock = some .waiter := by
  intro a s s' ha hinv _ hg h
  cases a with
  | waiter => exact absurd rfl ha
  | stranger m =>
    obtain ⟨t', y, -⟩ := hg
    exact h
  | notifier i =>
    cases hg with
    | lock hi hnone => exact absurd (hnone.symm.trans h) (by simp)
    | unlock t hi => exact absurd ((hinv i (by rw [hi]; rfl)).symm.trans h) (by simp)
    | _ => exact h

/-- The waiter gives the lock back. -/
theorem unlockHandle_tri {P : Shared → Prop} (hP : Stable spec .waiter P)
    (hkeep : ∀ s, P s → P { s with lock := none }) :
    Tri spec .waiter (fun s => P s ∧ s.lock = some .waiter) unlockHandle fun _ s => P s := by
  refine Tri.store (hP.and stable_locked) hP fun s hi ⟨hp, hlock⟩ =>
    ⟨trivial, fun _ => ⟨fun k hk => ?_, ⟨rfl, fun i h => ?_⟩, hkeep s hp⟩⟩
  · exact absurd ((hi k hk).symm.trans hlock) (by simp)
  · exact absurd (h.symm.trans hlock) (by simp)

theorem park_tri (t : Nat) :
    Tri spec .waiter (fun s => s.thread = some t ∧ Missed s) (park t) fun _ s => s.thread = some t := by
  have hst := stable_thread t
  have hmissed := hst.and stable_missed
  refine Tri.bind (R := fun _ s => s.thread = some t ∧ Missed s) ?_ fun parked => ?_
  · exact Tri.load hmissed (fun _ => hmissed) fun s hi hs =>
      ⟨trivial, fun _ => ⟨⟨rfl, fun _ _ => rfl⟩, hs⟩⟩
  cases parked with
  | false => exact Tri.ret hst fun s _ hs => hs.1
  | true =>
    refine Tri.bind (R := fun _ s => (s.thread = some t ∧ Missed s) ∧ s.lock = some .waiter) ?_ fun _ => ?_
    · refine Tri.act hmissed fun s hi hs => ⟨trivial, fun _ hen => ?_⟩
      have hnone := of_decide_eq_true hen
      refine ⟨fun k hk => ?_, ⟨rfl, fun i h => ?_⟩, Safe.ret (hmissed.and stable_locked) ⟨hs, rfl⟩⟩
      · exact absurd ((hi k hk).symm.trans hnone) (by simp)
      · exact absurd (h.symm.trans hnone) (by simp)
    refine Tri.bind (R := fun parked s => ((s.thread = some t ∧ Missed s) ∧
      (parked = true → Due s)) ∧ s.lock = some .waiter) ?_ fun parked => ?_
    · refine Tri.load (hmissed.and stable_locked)
        (fun p => (hmissed.and stable_due.imp).and stable_locked) fun s hi hs =>
        ⟨trivial, fun _ => ⟨⟨rfl, fun _ _ => rfl⟩, ⟨hs.1, fun hp => ⟨hs.2, .inl hp⟩⟩, hs.2⟩⟩
    cases parked with
    | false => exact (unlockHandle_tri hst fun _ h => h).conseq (fun _ _ h => ⟨h.1.1.1, h.2⟩) fun _ _ _ h => h
    | true =>
      have hcalled := stable_missed.and (stable_called t)
      refine Tri.bind (R := fun _ s => (Missed s ∧ Called t s) ∧ s.lock = some .waiter) ?_ fun _ => ?_
      · refine Tri.store ((hmissed.and stable_due.imp).and stable_locked) (hcalled.and stable_locked)
          fun s hi ⟨⟨⟨hthread, hm⟩, hdue⟩, hlock⟩ => ⟨trivial, fun _ => ?_⟩
        refine ⟨hi, ⟨rfl, fun _ _ => rfl⟩, ⟨hm, hthread, rfl, .inr ?_⟩, hlock⟩
        exact (hdue rfl).2.imp_right fun ⟨k, hk⟩ => ⟨k, by rw [hk]; rfl⟩
      refine Tri.bind (R := fun _ s => Missed s ∧ Called t s) ?_ fun _ => ?_
      · exact unlockHandle_tri hcalled fun _ h => h
      refine Tri.act hcalled fun s hi hs => ⟨⟨hs.1, t, hs.2⟩, fun _ _ => ?_⟩
      exact ⟨hi, ⟨rfl, fun _ _ => rfl⟩, Safe.ret hst hs.2.1⟩

theorem recv_tri (t : Nat) : Tri spec .waiter (fun _ => True) (recv t) fun _ _ => True := by
  have hst := stable_thread t
  refine Tri.bind (R := fun _ s => s.thread = some t) ?_ fun _ => ?_
  · exact Tri.store (Stable.const _) hst fun s hi _ => ⟨trivial, fun _ => ⟨hi, ⟨rfl, fun _ _ => rfl⟩, rfl⟩⟩
  refine Tri.bind (R := fun _ _ => True) ?_ fun _ => ?_
  · refine (Tri.loop (I := fun (_ : Unit) (s : Shared) => s.thread = some t) (fun _ => Stable.const _) (fun _ => ?_) ()).conseq
      (fun _ _ h => h) fun _ _ _ h => h
    refine Tri.bind (R := fun (_ : Bool) (s : Shared) => s.thread = some t) ?_ fun got => ?_
    · exact Tri.rmw hst (fun _ => hst) fun s hi hs => ⟨trivial, fun _ => ⟨hi, ⟨rfl, fun _ _ => rfl⟩, hs⟩⟩
    cases got with
    | true => exact Tri.ret (Stable.const _) fun _ _ _ => trivial
    | false =>
      refine Tri.bind (R := fun _ s => s.thread = some t) ?_ fun _ => ?_
      · exact Tri.store hst hst fun s hi hs => ⟨trivial, fun _ => ⟨hi, ⟨rfl, fun _ _ => rfl⟩, hs⟩⟩
      refine Tri.bind (R := fun any s => s.thread = some t ∧ (any = false → Missed s)) ?_ fun any => ?_
      · refine Tri.load hst (fun _ => hst.and stable_missed.imp) fun s hi hs =>
          ⟨trivial, fun _ => ⟨⟨rfl, fun _ _ => rfl⟩, hs, fun hany hw => ?_⟩⟩
        exact absurd hw (of_decide_eq_false hany)
      refine Tri.bind (R := fun _ s => s.thread = some t) ?_ fun _ => ?_
      · cases any with
        | true => exact Tri.ret hst fun s _ hs => hs.1
        | false => exact (park_tri t).conseq (fun _ _ h => ⟨h.1, h.2 rfl⟩) fun _ _ _ h => h
      refine Tri.bind (R := fun (_ : Unit) (s : Shared) => s.thread = some t) ?_ fun _ =>
        Tri.ret hst fun _ _ h => h
      exact Tri.store hst hst fun s hi hs => ⟨trivial, fun _ => ⟨hi, ⟨rfl, fun _ _ => rfl⟩, hs⟩⟩
  · exact Tri.store (Stable.const _) (Stable.const _) fun s hi _ =>
      ⟨trivial, fun _ => ⟨hi, ⟨rfl, fun _ _ => rfl⟩, trivial⟩⟩

theorem verified : sys.Verified spec := by
  intro a o l
  cases a with
  | waiter => exact (recv_tri o).conseq (fun _ _ _ => trivial) fun _ _ _ h => h
  | notifier i => exact (notify_tri i).conseq (fun _ _ h => h.1) fun _ _ _ h => h
  | stranger m => exact (stranger_tri m o).conseq (fun _ _ _ => trivial) fun _ _ _ h => h

theorem good_init : Good spec init := by
  refine ⟨fun i hi => absurd hi Bool.false_ne_true, fun a => ?_⟩
  cases a with
  | waiter => exact ThreadOk.idle (Stable.const True) trivial
  | notifier i => exact ThreadOk.idle (stable_stage i .idle) rfl
  | stranger m => exact ThreadOk.idle (Stable.const True) trivial

end StdThreadLemmas

open StdThreadLemmas

/-- No wakeup is lost without the time limit, with any number of notifiers, in any
interleaving, whichever threads the waiter was called on and whatever others do with their
tokens: where the waiter sleeps with something published, a notifier is inside its call, and
where none is, the next one finds the flag up and the handle of this thread. -/
theorem asleep_missed_nothing {c : Config Actor Access Shared (fun _ => Unit)}
    (h : Reach sys anyAccess init c) {t : Nat} (hasleep : Asleep c t) :
    (c.shared.work ≠ 0 → ∃ i p, c.thr (.notifier i) = .busy p) ∧
      ((∀ i, c.Idle (.notifier i) ()) → c.shared.parked = true ∧ c.shared.handle = some t) := by
  have hg : Good spec c := Sys.sound verified good_init h
  obtain ⟨hmissed, t', hthread, hhandle, hcalled⟩ := hg.pre hasleep.at_sleep
  obtain rfl : t = t' := Option.some.inj (hasleep.thread.symm.trans hthread)
  have hup : (∀ i, c.Idle (.notifier i) ()) → c.shared.parked = true := by
    intro hidle
    rcases hcalled with htok | hup | ⟨i, hi⟩
    · exact absurd (htok.symm.trans hasleep.token) (by simp)
    · exact hup
    · rw [hg.loc (hidle i)] at hi
      exact absurd hi Bool.false_ne_true
  refine ⟨fun hwork => ?_, fun hidle => ⟨hup hidle, hhandle⟩⟩
  by_contra hnone
  have hidle : ∀ i, c.Idle (.notifier i) () := by
    intro i
    cases hi : c.thr (.notifier i) with
    | idle l => exact hi
    | busy p => exact absurd ⟨i, p, hi⟩ hnone
  rcases hmissed hwork with ⟨i, hi⟩ | hdown | ⟨i, hi⟩
  · exact absurd ((hg.loc (hidle i)).symm.trans hi) (by simp)
  · exact absurd ((hup hidle).symm.trans hdown) (by simp)
  · exact absurd ((hg.loc (hidle i)).symm.trans hi) (by simp)

/-- The waiter sleeps on one thread, is woken, and sleeps on another one. -/
def movedRun : List (Script sys) :=
  List.flatten [
    [.call .waiter (0 : Nat), .run .waiter 0, .run .waiter 2],
    List.replicate 8 (.run .waiter 0),
    [.call (.notifier 0) ()],
    List.replicate 8 (.run (.notifier 0) 0),
    List.replicate 5 (.run .waiter 0),
    [.call .waiter (1 : Nat), .run .waiter 0, .run .waiter 1],
    List.replicate 8 (.run .waiter 0)]

def sleeping (c : Config Actor Access Shared (fun _ => Unit)) : Bool :=
  match c.thr .waiter with
  | .busy (.act .sleep _ _ _) => true
  | _ => false

theorem at_of_sleeping {c : Config Actor Access Shared (fun _ => Unit)} (h : sleeping c = true) :
    c.At .waiter .sleep := by
  unfold sleeping at h
  split at h
  · next en eff next hc => exact ⟨en, eff, next, hc⟩
  · cases h

theorem asleep_missed_nothing_moved :
    ∃ c, Reach sys anyAccess init c ∧ Asleep c 1 ∧ c.shared.parked = true ∧ c.shared.handle = some 1 := by
  obtain ⟨c, hrun, hsleep, hthread, htoken, hidle⟩ := Sys.exec_any (s := sys) (a := init) (l := movedRun)
    (P := fun c => sleeping c = true ∧ c.shared.thread = some 1 ∧ c.shared.token 1 = false ∧
      c.result (.notifier 0) = some ()) (by decide +kernel)
  have hreach := Sys.exec_reach .start hrun
  have hasleep : Asleep c 1 := ⟨at_of_sleeping hsleep, hthread, htoken⟩
  refine ⟨c, hreach, hasleep, (asleep_missed_nothing hreach hasleep).2 fun i => ?_⟩
  by_cases hi : i = 0
  · rw [hi]
    exact Config.idle_of_result hidle
  · have hrest : c.thr (.notifier i) = init.thr (.notifier i) := by
      refine Sys.exec_thr hrun fun a ha he => ?_
      have hall : ∀ a ∈ movedRun, a.actor = .waiter ∨ a.actor = .notifier 0 := by decide
      rcases hall a ha with hw | hn
      · rw [he] at hw
        cases hw
      · rw [he] at hn
        exact hi (by simpa using hn)
    exact hrest

end Prescient.StdThread
