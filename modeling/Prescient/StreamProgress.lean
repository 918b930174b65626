import Prescient.StreamAgreement

/-!
# Progress and reuse of a stream

Each endpoint of a stream waits for frames of the other. They never both wait: the
producer waits with a frame unanswered, and the consumer with every frame it took
answered, so that one of the two rings is not empty.

* `stream_never_stuck`: in every state of every transfer some endpoint can go on, no
  push finds its ring full, and two calls that returned Ok leave the direction as a
  transfer finds it, for any number of transfers.
-/

namespace Prescient.Ipc

/-! ## The programs of an endpoint -/

def Shared.waiters (s : Shared) (d : Side) (g : Signal) : Nat := ((s.arena d).event g).waiters

/-- The events endpoint `a` waits on: frames to take, and room for its own. -/
def Waits (a : Actor) (d : Side) (g : Signal) : Prop :=
  d = a.pops ∧ g = .dataReady ∨ d = a.pushes ∧ g = .spaceReady

theorem waiters_setArena (s : Shared) {d : Side} {A : Arena}
    (h : ∀ g, (A.event g).waiters = s.waiters d g) (d' : Side) (g : Signal) :
    (s.setArena d A).waiters d' g = s.waiters d' g := by
  unfold Shared.waiters Shared.setArena
  rcases eq_or_ne d' d with rfl | hne
  · simp only [Function.update_self]
    exact h g
  · simp only [Function.update_of_ne hne]

theorem waiters_setEvent (A : Arena) (g : Signal) (n : Nat) (g' : Signal) :
    ((A.setEvent g { A.event g with sequence := n }).event g').waiters = (A.event g').waiters := by
  unfold Arena.setEvent
  rcases eq_or_ne g' g with rfl | hne
  · simp only [Function.update_self]
  · simp only [Function.update_of_ne hne]

/-- A property of programs that the accesses of endpoint `a` have. -/
structure Endpoint (a : Actor) (K : (α : Type) → SProg α → Prop) : Prop where
  closed : Prog.Closed K
  quiet : ∀ {α : Type} {e : Access} {f : Shared → Shared} {g : Shared → α},
    (∀ s d i, (f s).waiters d i = s.waiters d i) → K α (.rmw e f g)
  claim : ∀ d g, K _ (swapWaiters d g 0)
  wait : ∀ d g observed, Waits a d g → K _ (wait d g observed)

namespace Endpoint

variable {w : Nat} {dir : Direction} {input : List UInt8} {a : Actor}
  {K : (α : Type) → SProg α → Prop} (hK : Endpoint a K)

include hK

theorem load {α : Type} (e : Access) (f : Shared → α) : K α (.load e f) :=
  hK.quiet fun _ _ _ => rfl

theorem notify (d : Side) (g : Signal) (cursor : Nat) : K _ (notify d g cursor) := by
  refine hK.closed.liftBind (hK.quiet fun s => waiters_setArena s (waiters_setEvent _ g _))
    fun _ => ?_
  refine hK.closed.liftBind (hK.claim d g) fun waiters => ?_
  split
  · refine hK.closed.pickBind fun answer => ?_
    split
    · exact hK.closed.ret _
    · exact hK.closed.ret _
  · exact hK.closed.ret _

theorem waitForPeerEvent (d : Side) (g : Signal) (observed : Nat) (hd : Waits a d g) :
    K _ (waitForPeerEvent a d g observed) := by
  refine hK.closed.pickBind fun elapsed => ?_
  split
  · exact hK.closed.ret _
  refine hK.closed.tryBind (hK.wait d g observed hd) fun outcome => ?_
  cases outcome with
  | changed => exact hK.closed.ret _
  | timedOut =>
    refine hK.closed.tryBind ?_ fun closed => ?_
    · refine hK.closed.liftBind (hK.quiet fun _ _ _ => rfl) fun closed => ?_
      refine hK.closed.pickBind fun answer => ?_
      split
      · exact hK.closed.ret _
      · split
        · exact hK.closed.ret _
        · exact hK.closed.ret _
    · split
      · exact hK.closed.ret _
      · exact hK.closed.ret _

theorem push (f : Frame) : K _ (push w dir a f) := by
  refine hK.closed.liftBind (hK.load _ _) fun tail => ?_
  refine hK.closed.tryBind (hK.closed.tryLoop (fun _ => ?_) ()) fun _ => ?_
  · refine hK.closed.liftBind (hK.load _ _) fun head => ?_
    split
    · refine hK.closed.liftBind (hK.load _ _) fun observed => ?_
      refine hK.closed.liftBind (hK.load _ _) fun head => ?_
      split
      · exact hK.closed.ret _
      · exact hK.closed.tryBind (hK.waitForPeerEvent _ _ _ (.inr ⟨rfl, rfl⟩)) fun _ =>
          hK.closed.ret _
    · exact hK.closed.ret _
  refine hK.closed.liftBind (hK.quiet fun s => waiters_setArena s fun _ => rfl) fun _ => ?_
  exact hK.closed.liftBind (hK.quiet fun s => waiters_setArena s fun _ => rfl) fun _ =>
    hK.notify _ _ _

theorem pop : K _ (pop w dir a) := by
  refine hK.closed.liftBind (hK.load _ _) fun head => ?_
  refine hK.closed.tryBind (hK.closed.tryLoop (fun _ => ?_) ()) fun _ => ?_
  · refine hK.closed.liftBind (hK.load _ _) fun tail => ?_
    split
    · refine hK.closed.liftBind (hK.load _ _) fun observed => ?_
      refine hK.closed.liftBind (hK.load _ _) fun tail => ?_
      split
      · exact hK.closed.ret _
      · exact hK.closed.tryBind (hK.waitForPeerEvent _ _ _ (.inl ⟨rfl, rfl⟩)) fun _ =>
          hK.closed.ret _
    · exact hK.closed.ret _
  refine hK.closed.liftBind (hK.load _ _) fun encoded => ?_
  exact hK.closed.liftBind (hK.quiet fun s => waiters_setArena s fun _ => rfl) fun _ =>
    hK.closed.tryBind (hK.notify _ _ _) fun _ => hK.closed.ret _

theorem writeSlot (eof : Nat → Except IoError Nat) (slot len : Nat) :
    K _ (writeSlot dir (fillSlot input eof) slot len) := by
  refine hK.closed.exceptBind fun _ => ?_
  refine hK.closed.tryBind (hK.closed.tryLoop (fun filled => ?_) 0) fun n => ?_
  · split
    · refine hK.closed.tryBind (hK.closed.pickBind fun answer => ?_) fun got => ?_
      · match answer with
        | 0 => exact hK.closed.ret _
        | 1 => exact hK.closed.ret _
        | n + 2 => exact hK.closed.liftBind (hK.quiet fun _ _ _ => rfl) fun _ => hK.closed.ret _
      · match got with
        | none => exact hK.closed.ret _
        | some 0 => exact hK.closed.exceptBind fun _ => hK.closed.ret _
        | some (n + 1) => exact hK.closed.ret _
    · exact hK.closed.ret _
  · exact hK.closed.liftBind (hK.load _ _) fun _ => hK.closed.ret _

theorem writeAll (slot len : Nat) : K _ (writeAll slot len) := by
  refine hK.closed.tryLoop (fun done => ?_) 0
  split
  · refine hK.closed.pickBind fun answer => ?_
    match answer with
    | 0 => exact hK.closed.ret _
    | 1 => exact hK.closed.ret _
    | 2 => exact hK.closed.ret _
    | n + 3 => exact hK.closed.liftBind (hK.quiet fun _ _ _ => rfl) fun _ => hK.closed.ret _
  · exact hK.closed.ret _

theorem checkedChecksum (slot len : Nat) : K _ (checkedChecksum dir slot len) :=
  hK.closed.exceptBind fun _ => hK.closed.liftBind (hK.load _ _) fun _ => hK.closed.ret _

/-- A chunk in hand is written out and answered. -/
theorem answer {α : Type} {f : Frame} {next : IoProg α} (hn : K _ next) :
    K _ (Fallible.ofExcept (checkSlot dir f.slot.toNat f.len.toNat) >>= fun _ =>
      Ipc.writeAll f.slot.toNat f.len.toNat >>= fun _ =>
      Ipc.push w dir a { f with kind := .released } >>= fun _ => next : IoProg α) :=
  hK.closed.exceptBind fun _ => hK.closed.tryBind (hK.writeAll _ _) fun _ =>
    hK.closed.tryBind (hK.push _) fun _ => hn

theorem validateChunk (f : Frame) (index : Nat) : K _ (validateChunk dir f index) := by
  refine hK.closed.exceptBind fun m => ?_
  refine hK.closed.tryBind (hK.checkedChecksum _ _) fun sum => ?_
  split
  · exact hK.closed.ret _
  · exact hK.closed.ret _

theorem validateDynamicChunk (f : Frame) (index offset : Nat) :
    K _ (validateDynamicChunk dir f index offset) := by
  refine hK.closed.exceptBind fun generation => ?_
  split
  · refine hK.closed.tryBind (hK.checkedChecksum _ _) fun sum => ?_
    split
    · exact hK.closed.ret _
    · exact hK.closed.ret _
  · exact hK.closed.ret _

theorem finishOrCancel {call : IoProg Sums} (h : K _ call) : K _ (finishOrCancel dir a call) := by
  refine hK.closed.bind h fun r => ?_
  cases r with
  | ok r => exact hK.closed.ret _
  | error e => exact hK.closed.bind (hK.quiet fun _ _ _ => rfl) fun _ => hK.closed.ret _

end Endpoint

namespace Endpoint

variable {w : Nat} {dir : Direction} {input : List UInt8} {K : (α : Type) → SProg α → Prop}

section Producer

variable (hK : Endpoint .producer K) (check : Frame → Nat → Except IoError Unit)

include hK

theorem takeRelease (released : Nat) : K _ (takeRelease w dir check released) :=
  hK.closed.tryBind hK.pop fun _ => hK.closed.exceptBind fun _ => hK.closed.ret _

theorem regain (index released : Nat) : K _ (regain w dir check index released) := by
  unfold Ipc.regain
  split
  · exact hK.takeRelease check released
  · exact hK.closed.ret _

theorem takeReleases (left released : Nat) : K _ (takeReleases w dir check left released) := by
  induction left generalizing released with
  | zero => exact hK.closed.ret _
  | succ left ih => exact hK.closed.tryBind (hK.takeRelease check released) fun r => ih r

/-- The COMPLETE frame and its echo. -/
theorem complete (f : Frame) (check : Frame → Except IoError Unit) (r : Sums) :
    K _ (Ipc.push w dir .producer f >>= fun _ => Ipc.pop w dir .producer >>= fun echo =>
      Fallible.ofExcept (check echo) >>= fun _ => pure r : IoProg Sums) :=
  hK.closed.tryBind (hK.push f) fun _ => hK.closed.tryBind hK.pop fun _ =>
    hK.closed.exceptBind fun _ => hK.closed.ret _

theorem produce : K _ (produce w dir input) := by
  refine hK.closed.tryBind ?_ fun r => ?_
  · suffices h : ∀ left index released aggregate,
        K _ (produce.sendChunks w dir input left index released aggregate) from h _ _ _ _
    intro left
    induction left with
    | zero => exact fun _ _ _ => hK.closed.ret _
    | succ left ih =>
      intro index released aggregate
      refine hK.closed.tryBind (hK.regain _ index released) fun r => ?_
      refine hK.closed.exceptBind fun m => ?_
      refine hK.closed.tryBind (hK.writeSlot _ _ _) fun sum => ?_
      exact hK.closed.tryBind (hK.push _) fun _ => ih _ _ _
  · exact hK.closed.tryBind (hK.takeReleases _ _ _) fun _ => hK.complete _ _ _

theorem readExcess : K _ (readExcess input) := by
  refine hK.closed.tryLoop (fun _ => hK.closed.pickBind fun answer => ?_) ()
  match answer with
  | 0 => exact hK.closed.ret _
  | 1 => exact hK.closed.ret _
  | n + 2 =>
    refine hK.closed.liftBind (hK.quiet fun _ _ _ => rfl) fun got => ?_
    split
    · exact hK.closed.ret _
    · exact hK.closed.ret _

theorem produceToEnd : K _ (produceToEnd w dir input) := by
  refine hK.closed.tryBind (hK.closed.tryLoop (fun p => ?_) _) fun p => ?_
  · split
    · exact hK.closed.tryBind hK.readExcess fun _ => hK.closed.ret _
    · refine hK.closed.tryBind (hK.regain _ _ _) fun released => ?_
      refine hK.closed.exceptBind fun generation => ?_
      refine hK.closed.tryBind (hK.writeSlot _ _ _) fun r => ?_
      obtain ⟨n, sum⟩ := r
      simp only
      split
      · exact hK.closed.ret _
      · exact hK.closed.tryBind (hK.push _) fun _ => hK.closed.ret _
  · exact hK.closed.tryBind (hK.takeReleases _ _ _) fun _ => hK.complete _ _ _

end Producer

section Consumer

variable (hK : Endpoint .consumer K)

include hK

theorem consume : K _ (consume w dir) := by
  refine hK.closed.tryBind ?_ fun aggregate => ?_
  · suffices h : ∀ left index aggregate, K _ (consume.recvChunks w dir left index aggregate) from
      h _ _ _
    intro left
    induction left with
    | zero => exact fun _ _ => hK.closed.ret _
    | succ left ih =>
      intro index aggregate
      refine hK.closed.tryBind hK.pop fun f => ?_
      exact hK.closed.tryBind (hK.validateChunk f index) fun _ => hK.answer (ih _ _)
  · refine hK.closed.tryBind hK.pop fun f => ?_
    exact hK.closed.exceptBind fun _ => hK.closed.tryBind (hK.push f) fun _ => hK.closed.ret _

theorem consumeToEnd : K _ (consumeToEnd w dir) := by
  refine hK.closed.tryLoop (fun r => hK.closed.tryBind hK.pop fun f => ?_) _
  split
  · exact hK.closed.exceptBind fun _ => hK.closed.tryBind (hK.push f) fun _ => hK.closed.ret _
  · exact hK.closed.tryBind (hK.validateDynamicChunk f _ _) fun _ => hK.answer (hK.closed.ret _)

end Consumer

/-- Every call of an endpoint. -/
theorem transfer {a : Actor} (hK : Endpoint a K) (op : Op) (l : Outcome) :
    K _ (transfer w dir input a op l) := by
  have hdrop : K Outcome ((close a).bind fun _ => .ret (.dropped l.result)) :=
    hK.closed.bind (hK.quiet fun _ _ _ => rfl) fun _ => hK.closed.ret _
  cases a with
  | producer =>
    cases op with
    | exact => exact hK.finishOrCancel hK.produce
    | toEnd => exact hK.finishOrCancel hK.produceToEnd
    | drop => exact hdrop
  | consumer =>
    cases op with
    | exact => exact hK.finishOrCancel hK.consume
    | toEnd => exact hK.finishOrCancel hK.consumeToEnd
    | drop => exact hdrop

end Endpoint

namespace ProgressLemmas

open ProtocolLemmas EndpointLemmas AgreementLemmas

variable {w : Nat} {dir : Direction} {input : List UInt8} {a : Actor} {s s' : Shared}

/-! ### Accesses are never held up -/

theorem prompt_endpoint (a : Actor) : Endpoint a fun _ p => p.Prompt := by
  have hc : Prog.Closed (E := Access) (S := Shared) fun _ p => p.Prompt :=
    ⟨fun _ => trivial, trivial, fun hp hk => hp.bind hk, fun h => h⟩
  have hrmw : ∀ {α : Type} {e : Access} {f : Shared → Shared} {g : Shared → α},
      (Prog.rmw e f g).Prompt := fun _ => ⟨rfl, trivial⟩
  refine ⟨hc, fun _ => hrmw, fun _ _ => hrmw, fun d g observed _ => ?_⟩
  refine hc.liftBind hrmw fun now => ?_
  split
  · exact hc.ret _
  refine hc.liftBind hrmw fun waiters => ?_
  split
  · exact hc.ret _
  refine hc.liftBind hrmw fun now => ?_
  refine hc.liftBind ?_ fun result => ?_
  · unfold park
    split
    · exact hc.ret _
    · exact fun _ => trivial
  refine hc.liftBind hrmw fun _ => ?_
  match result with
  | .failed e => exact hc.ret _
  | .ended .changed => exact hc.ret _
  | .ended .timedOut => exact hc.liftBind hrmw fun _ => hc.ret _

/-! ### Waiters -/

/-- Nobody is registered on the events endpoint `a` waits on. -/
def Calm (a : Actor) (s : Shared) : Prop := ∀ d g, Waits a d g → s.waiters d g = 0

/-- An endpoint registers on its own events only. -/
abbrev calmSpec : Spec Actor Access Shared (fun _ => Outcome) where
  inv _ := True
  guar a s s' := ∀ d g, Waits a.other d g → s.waiters d g = 0 → s'.waiters d g = 0
  pre _ _ _ := True
  ok _ _ _ := True
  loc a _ := Calm a

theorem stable_waiters {d : Side} {g : Signal} (h : Waits a d g) :
    Stable calmSpec a fun s => s.waiters d g = 0 := by
  intro b s s' hb _ _ hg h0
  refine hg d g ?_ h0
  rw [eq_other hb, other_other]
  exact h

theorem stable_calm (a : Actor) : Stable calmSpec a (Calm a) :=
  fun b s s' hb h₁ h₂ hg h d g hd => stable_waiters hd b s s' hb h₁ h₂ hg (h d g hd)

theorem not_waits_other {d : Side} {g : Signal} (h : Waits a d g) : ¬ Waits a.other d g := by
  rintro (⟨hd', hg'⟩ | ⟨hd', hg'⟩)
  · rcases h with ⟨rfl, rfl⟩ | ⟨rfl, rfl⟩
    · rw [pops_other] at hd'
      exact pops_ne_pushes a hd'
    · cases hg'
  · rcases h with ⟨rfl, rfl⟩ | ⟨rfl, rfl⟩
    · cases hg'
    · rw [pushes_other] at hd'
      exact pops_ne_pushes a hd'.symm

theorem waiters_swap_self (s : Shared) (d : Side) (g : Signal) (n : Nat) :
    (s.setArena d ((s.arena d).setEvent g { (s.arena d).event g with waiters := n })).waiters d g
      = n := by
  simp [Shared.waiters, Shared.setArena, Arena.setEvent]

theorem waiters_swap_of_ne (s : Shared) {d d' : Side} {g g' : Signal} (n : Nat)
    (h : ¬ (d' = d ∧ g' = g)) :
    (s.setArena d ((s.arena d).setEvent g { (s.arena d).event g with waiters := n })).waiters d' g'
      = s.waiters d' g' := by
  unfold Shared.waiters Shared.setArena Arena.setEvent
  rcases eq_or_ne d' d with rfl | hne
  · simp only [Function.update_self]
    rw [Function.update_of_ne fun hg => h ⟨rfl, hg⟩]
  · simp only [Function.update_of_ne hne]

/-- Nobody is registered on the events endpoint `a` waits on, but on the one it is at. -/
def CalmBut (a : Actor) (d : Side) (g : Signal) (s : Shared) : Prop :=
  ∀ d' g', Waits a d' g' → ¬ (d' = d ∧ g' = g) → s.waiters d' g' = 0

theorem stable_calmBut (a : Actor) (d : Side) (g : Signal) : Stable calmSpec a (CalmBut a d g) :=
  fun b s s' hb h₁ h₂ hg h d' g' hd hne =>
    stable_waiters hd b s s' hb h₁ h₂ hg (h d' g' hd hne)

/-- An access that leaves the waiters alone. -/
theorem keep_tri {α : Type} {P : Shared → Prop} {e : Access} {f : Shared → Shared} {g : Shared → α}
    (hP : Stable calmSpec a P) (hf : ∀ s d i, (f s).waiters d i = s.waiters d i)
    (h : ∀ s, P s → P (f s)) : Tri calmSpec a P (.rmw e f g) fun _ => P := by
  refine Tri.rmw hP (fun _ => hP) fun s _ hs => ⟨trivial, fun _ => ⟨trivial, fun d i _ h0 => ?_, h s hs⟩⟩
  rw [hf]
  exact h0

theorem claim_tri (d : Side) (g : Signal) {P : Shared → Prop} (hP : Stable calmSpec a P)
    (h : ∀ s, P s → CalmBut a d g s) :
    Tri calmSpec a P (swapWaiters d g 0) fun _ => Calm a := by
  refine Tri.rmw hP (fun _ => stable_calm a) fun s _ hs => ⟨trivial, fun _ => ⟨trivial, ?_, ?_⟩⟩
  · intro d' g' _ h0
    by_cases he : d' = d ∧ g' = g
    · rw [he.1, he.2]
      exact waiters_swap_self s d g 0
    · rw [waiters_swap_of_ne s 0 he]
      exact h0
  · intro d' g' hd
    by_cases he : d' = d ∧ g' = g
    · rw [he.1, he.2]
      exact waiters_swap_self s d g 0
    · rw [waiters_swap_of_ne s 0 he]
      exact h s hs d' g' hd he

/-- A wait registers, and takes its registration back. It finds no other waiter. -/
theorem wait_tri (d : Side) (g : Signal) (observed : Nat) (hd : Waits a d g) :
    Tri calmSpec a (Calm a) (wait d g observed)
      (Ends (fun _ => Calm a) fun e s => e ≠ secondWaiterError ∧ Calm a s) := by
  have hret : ∀ {α : Type} (x : α), Tri calmSpec a (Calm a) (pure x : IoProg α)
      (Ends (fun _ => Calm a) fun e s => e ≠ secondWaiterError ∧ Calm a s) :=
    fun x => Tri.done (stable_calm a) fun _ _ h => h
  have hbut : ∀ {α : Type} {good : α → Prop} {r : α}, good r → Tri calmSpec a (CalmBut a d g)
      (.ret r) fun r s => good r ∧ CalmBut a d g s :=
    fun hr => Tri.ret ((Stable.const _).and (stable_calmBut a d g)) fun _ _ h => ⟨hr, h⟩
  unfold wait
  refine Tri.liftBind (keep_tri (stable_calm a) (fun _ _ _ => rfl) fun _ h => h) fun now => ?_
  split
  · exact hret _
  refine Tri.liftBind (R := fun n s => n = 0 ∧ CalmBut a d g s) ?_ fun n => ?_
  · refine Tri.rmw (stable_calm a) (fun _ => (Stable.const _).and (stable_calmBut a d g))
      fun s _ hs => ⟨trivial, fun _ => ⟨trivial, fun d' g' hd' h0 => ?_, hs d g hd, ?_⟩⟩
    · rw [waiters_swap_of_ne s 1 fun he => not_waits_other hd (by rw [← he.1, ← he.2]; exact hd')]
      exact h0
    · intro d' g' hd' hne
      rw [waiters_swap_of_ne s 1 hne]
      exact hs d' g' hd'
  split
  · next hn =>
    rintro s _ ⟨h0, _⟩
    exact absurd h0 hn
  refine Tri.conseq (P := CalmBut a d g) ?_ (fun _ _ h => h.2) fun _ _ _ h => h
  refine Tri.liftBind (keep_tri (stable_calmBut a d g) (fun _ _ _ => rfl) fun _ h => h) fun now => ?_
  refine Tri.liftBind (R := fun result s => (∀ e, result = .failed e → e ≠ secondWaiterError) ∧
    CalmBut a d g s) ?_ fun result => ?_
  · unfold park
    split
    · exact hbut fun _ he => (by cases he)
    · refine Tri.choose fun answer => hbut fun e he => ?_
      split at he
      · cases he
        decide
      · split at he
        · cases he
        · cases he
  rintro s hi ⟨hok, h⟩
  refine Tri.liftBind (claim_tri d g (stable_calmBut a d g) fun _ h => h) (fun _ => ?_) s hi h
  match result with
  | .failed e => exact Tri.throw ((Stable.const _).and (stable_calm a)) fun _ _ h => ⟨hok e rfl, h⟩
  | .ended .changed => exact hret _
  | .ended .timedOut =>
    exact Tri.liftBind (keep_tri (stable_calm a) (fun _ _ _ => rfl) fun _ h => h) fun _ => hret _

theorem wait_calm (d : Side) (g : Signal) (observed : Nat) (hd : Waits a d g) :
    Tri calmSpec a (Calm a) (wait d g observed) fun _ => Calm a := by
  refine (wait_tri d g observed hd).conseq (fun _ _ h => h) fun r s _ h => ?_
  cases r with
  | ok x => exact h
  | error e => exact h.2

theorem calm_endpoint (a : Actor) :
    Endpoint a fun _ p => Tri calmSpec a (Calm a) p fun _ => Calm a := by
  refine ⟨⟨fun _ => Tri.ret (stable_calm a) fun _ _ h => h, fun _ _ _ => trivial,
    fun hp hk => Tri.bind hp hk, fun h => Tri.choose h⟩, fun hf => ?_, fun d g => ?_, wait_calm⟩
  · refine keep_tri (stable_calm a) hf fun s h d g hd => ?_
    rw [hf]
    exact h d g hd
  · exact claim_tri d g (stable_calm a) fun s h d' g' hd _ => h d' g' hd

theorem calm_verified : (sys w dir input).Verified calmSpec :=
  fun a op l s hi h => (calm_endpoint a).transfer op l s hi h.1

/-- In a run from a state in which nobody waits, an endpoint between calls does not. -/
theorem calm_of_reach {s₀ : Shared} {c : Config Actor Access Shared (fun _ => Outcome)}
    (h₀ : ∀ d g, s₀.waiters d g = 0) (h : Reach (sys w dir input) anyAccess (start s₀) c)
    {l : Outcome} (hl : c.Idle a l) : Calm a c.shared := by
  have hg : Good calmSpec (start s₀) :=
    ⟨trivial, fun b => ThreadOk.idle (stable_calm b) fun d g _ => h₀ d g⟩
  exact (Sys.sound calm_verified hg (h.mono fun _ _ _ _ => trivial)).loc hl

theorem waits_some (d : Side) (g : Signal) : ∃ a, Waits a d g := by
  cases g with
  | dataReady =>
    refine ⟨d.pusher.other, .inl ⟨?_, rfl⟩⟩
    cases d with
    | _ => rfl
  | spaceReady =>
    refine ⟨d.pusher, .inr ⟨?_, rfl⟩⟩
    cases d with
    | _ => rfl

end ProgressLemmas

/-! ## Progress -/

/-- The call of endpoint `a` has returned. -/
def Returned (c : Config Actor Access Shared (fun _ => Outcome)) (a : Actor) : Prop :=
  ∃ l, c.Idle a l ∧ l ≠ .fresh

/-- Endpoint `a` is asleep: it waits for room, or it waits for a frame, none it has not
taken is announced, and its peer's end of the socket is open. -/
def Asleep (c : Config Actor Access Shared (fun _ => Outcome)) (a : Actor) : Prop :=
  c.Next a (.waiters a.pushes .spaceReady) ∨
  c.Next a (.waiters a.pops .dataReady) ∧
    c.shared.announced a.pops ≤ c.shared.popped a.pops ∧ c.shared.closed a.other = false

/-- Endpoint `a` is awake and has a step to take. -/
def Enabled (w : Nat) (dir : Direction) (input : List UInt8)
    (c : Config Actor Access Shared (fun _ => Outcome)) (a : Actor) : Prop :=
  ¬ Asleep c a ∧ ∃ s t, Step (sys w dir input) anyAccess c (c.set s a t)

/-- Both calls have returned Ok, and both endpoints are there. -/
def BothOk (c : Config Actor Access Shared (fun _ => Outcome)) : Prop :=
  ∀ a, ∃ r, c.Idle a (.done (.ok r))

/-- A direction as a transfer finds it: both rings are empty, and nobody is registered
on an event. -/
structure Clear (base : Side → Nat) (s : Shared) : Prop extends Fresh base s where
  waiters : ∀ d g, s.waiters d g = 0

/-- The shared memory a transfer leaves behind, with a new reader and a new writer. -/
def Shared.renew (s : Shared) : Shared :=
  { s with
    readPos := 0
    written := []
    log := fun _ => []
    popped := fun _ => 0
    announced := fun _ => 0
    looking := fun _ => false }

/-- The states in which a transfer on one direction begins, the first one or any that
follows transfers whose calls both returned Ok. -/
inductive Begun (w : Nat) (dir : Direction) : Shared → Prop
  | first {base : Side → Nat} {s : Shared} : Clear base s → Begun w dir s
  | next {input : List UInt8} {s : Shared} {c : Config Actor Access Shared (fun _ => Outcome)} :
      Begun w dir s → Reach (sys w dir input) anyAccess (start s) c → BothOk c →
      Begun w dir c.shared.renew

namespace ProgressLemmas

open ProtocolLemmas EndpointLemmas AgreementLemmas

variable {w : Nat} {dir : Direction} {input : List UInt8} {base : Side → Nat} {s₀ : Shared}
  {c : Config Actor Access Shared (fun _ => Outcome)} {a : Actor}

/-- Everything an endpoint at rest has published is announced, so that a sleeper's ring
is empty. -/
theorem ring_empty (hi : Inv dir input base false c.shared) (hrest : AtRest a.other c.shared)
    (hs : c.shared.announced a.pops ≤ c.shared.popped a.pops) :
    c.shared.popped a.pops = (c.shared.log a.pops).length := by
  have hann : c.shared.announced a.other.pushes = (c.shared.log a.other.pushes).length := hrest
  rw [pushes_other] at hann
  have := (hi.ring a.pops).popped_le
  omega

/-- An endpoint that sleeps waits for a frame that is owed to it. -/
theorem sleeper (hg : Good (spec dir input base false) c) (h : Asleep c a) :
    AtRest a c.shared ∧ Expects a (c.shared.own a) ∧
      c.shared.announced a.pops ≤ c.shared.popped a.pops ∧ c.shared.closed a.other = false := by
  rcases h with h | ⟨hw, hs, hc⟩
  · exact absurd rfl (hg.next h).room.2
  · obtain ⟨hrest, hx⟩ := (hg.next hw).owed rfl
    exact ⟨hrest, hx, hs, hc⟩

/-- The two endpoints do not both sleep. -/
theorem not_both_asleep (hg : Good (spec dir input base false) c) :
    ¬ (Asleep c .producer ∧ Asleep c .consumer) := by
  rintro ⟨hp, hc⟩
  obtain ⟨hrest, hx, hs, _⟩ := sleeper hg hp
  obtain ⟨hrest', hx', hs', _⟩ := sleeper hg hc
  have he : c.shared.popped .releases = (c.shared.log .releases).length :=
    ring_empty (a := .producer) hg.1 hrest' hs
  have he' : c.shared.popped .data = (c.shared.log .data).length :=
    ring_empty (a := .consumer) hg.1 hrest hs'
  have hlt : c.shared.popped .releases < (c.shared.log .data).length := hx
  have heq : (c.shared.log .releases).length = c.shared.popped .data := hx'.1
  omega

/-- An endpoint whose peer has returned does not sleep. -/
theorem awake_of_returned (hg : Good (spec dir input base false) c)
    (hr : Returned c a.other) : ¬ Asleep c a := by
  intro h
  obtain ⟨l, hl, hne⟩ := hr
  obtain ⟨hrest, hx, hsil, hopen⟩ := sleeper hg h
  have hloc := hg.loc hl
  have hshut : c.shared.closed a.other = l.shut := hloc.closed
  have hempty := ring_empty hg.1 hloc.rest hsil
  cases l with
  | fresh => exact hne rfl
  | dropped r =>
    rw [hopen] at hshut
    cases hshut
  | done r =>
    cases r with
    | error e =>
      rw [hopen] at hshut
      cases hshut
    | ok r =>
      obtain ⟨lens, hlens, hd, _, _, hrel, _⟩ := hloc.finished r rfl
      have hlen : (c.shared.log .data).length = lens.length + 1 := by
        rw [hd, length_wire]
        rfl
      cases a with
      | producer =>
        -- every frame is answered, and the producer has taken all the answers
        have hlt : c.shared.popped .releases < (c.shared.log .data).length := hx
        have he : c.shared.popped .releases = (c.shared.log .releases).length := hempty
        omega
      | consumer =>
        -- the consumer has answered the COMPLETE frame
        have hret := hg.1.bound.returned
        rw [hrel, ← hlen, List.take_length, hd, wire_ended, List.map_append, List.map_singleton]
          at hret
        refine hx.2 (release (completeFrame dir lens.sum (aggregateOf dir input lens))) ?_ rfl
        show _ ∈ c.shared.log .releases
        rw [hret]
        simp

/-- An endpoint that has not returned, and whose loop was not cut short, has a step. -/
theorem step_of_not_returned (hg : Good (spec dir input base false) c)
    (hreach : Reach (sys w dir input) anyAccess (start s₀) c) (hr : ¬ Returned c a)
    (hcut : c.thr a ≠ .busy .stop) :
    ∃ s t, Step (sys w dir input) anyAccess c (c.set s a t) := by
  cases ht : c.thr a with
  | idle l =>
    have hfresh : l = .fresh := by
      by_contra hne
      exact hr ⟨l, ht, hne⟩
    subst hfresh
    have hopen : c.shared.closed a = false := (hg.loc ht).closed
    exact ⟨_, _, .call Op.exact ht (by simp [sys, hopen])⟩
  | busy p =>
    have hp : p.Prompt := hreach.prompt (fun b o l => (prompt_endpoint b).transfer o l)
      (fun _ _ h => (by cases h)) ht
    cases p with
    | ret l => exact ⟨_, _, .done ht⟩
    | stop => exact absurd ht hcut
    | act e en eff next => exact ⟨_, _, .access ht (hp c.shared).1 trivial⟩
    | choose next => exact ⟨_, _, .answer 0 ht⟩

/-- A wait that finds its event unchanged has missed no announcement. -/
theorem none_announced (hg : Good (spec dir input base false) c)
    {c' : Config Actor Access Shared (fun _ => Outcome)}
    (hstep : Step (sys w dir input) anyAccess c c') (h : c.shared.looking a.pops = false)
    (h' : c'.shared.looking a.pops = true) : c.shared.announced a.pops ≤ c.shared.popped a.pops := by
  have hstep' : Step (sys w dir input) (spec dir input base false).ok c c' :=
    hstep.mono fun _ _ _ hstr => (by cases hstr)
  rcases hg.guar hstep' with he | ⟨b, hb⟩
  · rw [he, h] at h'
    cases h'
  rcases eq_or_ne b a with rfl | hne
  · refine (hb.looked h').resolve_left ?_
    rw [h]
    simp
  · have ho : c'.shared.own b.other = c.shared.own b.other := hb.other
    rw [eq_other hne, other_other] at ho
    have hlook : c'.shared.looking a.pops = c.shared.looking a.pops := congrArg Own.looking ho
    rw [hlook, h] at h'
    cases h'

/-- Two calls that returned Ok leave the direction as a transfer finds it. -/
theorem clear_renew (hg : Good (spec dir input base false) c)
    (hcalm : ∀ a, Calm a c.shared) (h : BothOk c) :
    (∀ d, (c.shared.arena d).head = (c.shared.arena d).tail) ∧
      Clear (fun d => (c.shared.arena d).tail) c.shared.renew := by
  obtain ⟨r, hr⟩ := h .producer
  obtain ⟨r', hr'⟩ := h .consumer
  have hp := hg.loc hr
  have hq := hg.loc hr'
  obtain ⟨lens, hlens, hd, _, _, hrel, _⟩ := hp.finished r rfl
  have hlen : (c.shared.log .data).length = lens.length + 1 := by
    rw [hd, length_wire]
    rfl
  have hpop : c.shared.popped .releases = (c.shared.log .data).length := hp.settled r rfl rfl
  have hret := hg.1.bound.returned_le
  have hpopped : ∀ d, c.shared.popped d = (c.shared.log d).length := by
    intro d
    have := (hg.1.ring d).popped_le
    cases d with
    | data => omega
    | releases => omega
  have hann : ∀ d, c.shared.announced d = (c.shared.log d).length := by
    intro d
    cases d with
    | data => exact hp.rest
    | releases => exact hq.rest
  have heq : ∀ d, (c.shared.arena d).head = (c.shared.arena d).tail := by
    intro d
    rw [(hg.1.ring d).head_eq, (hg.1.ring d).tail_eq, hpopped d]
  have htail : ∀ d, (c.shared.arena d).tail = (c.shared.arena d).tail % 2 ^ 64 := by
    intro d
    rw [(hg.1.ring d).tail_eq, Nat.mod_mod]
  refine ⟨heq, ⟨fun d => (heq d).trans (htail d), htail, fun d => ?_, fun a => ?_, rfl, rfl,
    fun _ => rfl, fun _ => rfl, fun _ => rfl, fun _ => rfl⟩, fun d g => ?_⟩
  · show ((c.shared.arena d).event .dataReady).sequence = _
    rw [(hg.1.ring d).sequence, hann d, (hg.1.ring d).tail_eq,
      Nat.mod_mod_of_dvd _ (Nat.pow_dvd_pow 2 (by decide : 32 ≤ 64))]
  · cases a with
    | producer => exact hp.closed
    | consumer => exact hq.closed
  · obtain ⟨a, ha⟩ := waits_some d g
    exact hcalm a d g ha

/-- Every transfer begins as the first one did. -/
theorem clear_of_begun (hs : Shaped w dir) {s : Shared} (h : Begun w dir s) :
    ∃ base, Clear base s := by
  induction h with
  | @first base s hc => exact ⟨base, hc⟩
  | next _ hreach hok ih =>
    obtain ⟨base, hc⟩ := ih
    refine ⟨_, (clear_renew (good_of_reach hs hc.toFresh hreach) (fun a => ?_) hok).2⟩
    obtain ⟨r, hr⟩ := hok a
    exact calm_of_reach hc.waiters hreach hr

end ProgressLemmas

open ProtocolLemmas AgreementLemmas ProgressLemmas

/-- Progress and reuse, for every direction `create` accepts, every input, every pairing
of the calls and every interleaving, in the first transfer on the direction and in any
that follows transfers whose calls returned Ok. A loop that the run cuts short stands
for one that goes on. That a sleeper is not signalled is the second part: a wait that
finds its event unchanged has taken every frame announced so far. -/
theorem stream_never_stuck {w : Nat} {shape : StreamShape} {transferId : UInt64}
    {flow : StreamFlow} {timeout : Nat} {dir : Direction}
    (hdir : Direction.create w shape transferId flow timeout = .ok dir) {input : List UInt8}
    {s₀ : Shared} (h₀ : Begun w dir s₀) {c : Config Actor Access Shared (fun _ => Outcome)}
    (h : Reach (sys w dir input) anyAccess (start s₀) c) :
    ((∀ a, c.thr a ≠ .busy .stop) → (∃ a, ¬ Returned c a) →
      ∃ a, ¬ Returned c a ∧ Enabled w dir input c a) ∧
    (∀ (a : Actor) c', Step (sys w dir input) anyAccess c c' → c.shared.looking a.pops = false →
      c'.shared.looking a.pops = true → c.shared.announced a.pops ≤ c.shared.popped a.pops) ∧
    (∀ a, ¬ c.At a (.sequence a.pushes .spaceReady)) ∧
    (∀ d, wsub 64 (c.shared.arena d).tail (c.shared.arena d).head < dir.capacity) ∧
    (BothOk c → (∀ d, (c.shared.arena d).head = (c.shared.arena d).tail) ∧
      Clear (fun d => (c.shared.arena d).tail) c.shared.renew) := by
  have hs := Direction.shaped hdir
  obtain ⟨base, hc⟩ := clear_of_begun hs h₀
  have hg := good_of_reach hs hc.toFresh h
  refine ⟨fun hcut hr => ?_, fun a c' => none_announced hg,
    fun a hat => (hg.pre hat).room.1 rfl, fun d => ?_, fun hok => ?_⟩
  · suffices hex : ∃ a, ¬ Returned c a ∧ ¬ Asleep c a by
      obtain ⟨a, hr, haw⟩ := hex
      exact ⟨a, hr, haw, step_of_not_returned hg h hr (hcut a)⟩
    obtain ⟨a, ha⟩ := hr
    by_cases hother : Returned c a.other
    · exact ⟨a, ha, awake_of_returned hg hother⟩
    by_cases hsleep : Asleep c a
    · refine ⟨a.other, hother, fun hsleep' => not_both_asleep hg ?_⟩
      cases a with
      | producer => exact ⟨hsleep, hsleep'⟩
      | consumer => exact ⟨hsleep', hsleep⟩
    · exact ⟨a, ha, hsleep⟩
  · have := ring_room hs hg.1 d
    have := (hg.1.ring d).popped_le
    rw [ring_distance hs hg.1]
    omega
  · refine clear_renew hg (fun a => ?_) hok
    obtain ⟨r, hr⟩ := hok a
    exact calm_of_reach hc.waiters h hr

/-- Whether an endpoint is there, with a report. -/
def returnedOk (c : Config Actor Access Shared (fun _ => Outcome)) (a : Actor) : Bool :=
  match c.result a with
  | some (.done (.ok _)) => true
  | _ => false

theorem bothOk_of_returnedOk {c : Config Actor Access Shared (fun _ => Outcome)}
    (h : ∀ a, returnedOk c a = true) : BothOk c := by
  intro a
  have ha := h a
  unfold returnedOk at ha
  split at ha
  · next r hr => exact ⟨r, Config.idle_of_result hr⟩
  · cases ha

/-- Three bytes are sent through one slot, and the same direction is then ready for the
next transfer. -/
theorem stream_never_stuck_threeBytes :
    ∃ c, Reach (sys 64 tinyDirection [7, 8, 9]) anyAccess (start newShared) c ∧ BothOk c ∧
      (c.shared.arena .data).head = (c.shared.arena .data).tail ∧
      ∃ a, Enabled 64 tinyDirection [1, 2] (start c.shared.renew) a := by
  have hdir : Direction.create 64 tinyShape 1 .parentToWorker 1 = .ok tinyDirection := rfl
  have hrun : ((sys 64 tinyDirection [7, 8, 9]).exec (start newShared) threeBytes).map
      (fun c => (returnedOk c .producer, returnedOk c .consumer)) = some (true, true) := by
    decide +kernel
  obtain ⟨c, hc, hv⟩ := Option.map_eq_some_iff.mp hrun
  simp only [Prod.mk.injEq] at hv
  have hreach := Sys.exec_reach .start hc
  have hok : BothOk c := bothOk_of_returnedOk fun a => by
    cases a with
    | producer => exact hv.1
    | consumer => exact hv.2
  have hnew : Begun 64 tinyDirection newShared := .first ⟨newShared_fresh, fun _ _ => rfl⟩
  obtain ⟨_, _, _, _, hend⟩ := stream_never_stuck hdir hnew hreach
  obtain ⟨hgo, _⟩ := stream_never_stuck hdir (Begun.next hnew hreach hok)
    (.start : Reach (sys 64 tinyDirection [1, 2]) anyAccess (start c.shared.renew) _)
  have hfresh : ¬ Returned (start c.shared.renew) .producer := by
    rintro ⟨l, hl, hne⟩
    cases hl
    exact hne rfl
  obtain ⟨a, _, ha⟩ := hgo (fun a h => (by cases h)) ⟨.producer, hfresh⟩
  exact ⟨c, hreach, hok, (hend hok).1 .data, a, ha⟩

end Prescient.Ipc
