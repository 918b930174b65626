import Prescient.StreamAgreement

/-!
# A peer's exit

An endpoint that finds its peer gone gives up, and must not do so with a frame of
the peer unread. The ring, the wait and the socket are three observations, and
nothing looks at the ring again after the last of them.

* `published_frames_kept`: where no endpoint closes its socket with a frame unread
  while the other one is between its last look at the event and its look at the
  socket, nothing is lost.
* `echo_lost_to_exit`: in that gap, a consumer that has done everything right
  leaves its producer with an error and the echo unread.
-/

namespace Prescient.Ipc

open ProtocolLemmas EndpointLemmas AgreementLemmas

/-- No frame published before a close is lost: an endpoint that gave up because its
peer is gone has taken every frame, and a producer does not give up on a consumer
that has returned Ok. -/
structure FramesKept (c : Config Actor Access Shared (fun _ => Outcome)) : Prop where
  none_unread : ∀ a l, c.Idle a l → l.result = some (.error peerClosedError) →
    c.shared.closed a.other = true ∧ c.shared.popped a.pops = (c.shared.log a.pops).length
  echo : ∀ l l' r, c.Idle .producer l → c.Idle .consumer l' → l'.result = some (.ok r) →
    l.result ≠ some (.error peerClosedError)

/-- No endpoint closes its socket with a frame of its ring unread while the other
stands between the last look of a timed-out wait and its look at the socket. -/
def NoCloseInGap (_ : Actor) (e : Access) (s : Shared) : Prop :=
  ∀ a, e = .close a → s.looking a.pushes = true →
    s.popped a.pushes = (s.log a.pushes).length

/-- In every run in which nothing closes in the gap, no published frame is lost to a
peer's exit. -/
theorem published_frames_kept {w : Nat} {shape : StreamShape} {transferId : UInt64}
    {flow : StreamFlow} {timeout : Nat} {dir : Direction}
    (hdir : Direction.create w shape transferId flow timeout = .ok dir) {input : List UInt8}
    {base : Side → Nat} {s₀ : Shared} (h₀ : Fresh base s₀)
    {c : Config Actor Access Shared (fun _ => Outcome)}
    (h : Reach (sys w dir input) NoCloseInGap (start s₀) c) : FramesKept c := by
  have hs := Direction.shaped hdir
  have hg : Good (spec dir input base true) c :=
    Sys.sound (verified hs) (h₀.good hs) (h.mono fun _ _ _ hok _ => hok)
  refine ⟨fun a l hl he => ?_, fun l l' r hl hl' hr he => ?_⟩
  · exact ((hg.loc hl).failed _ he).2 rfl |>.1 rfl
  · -- the producer has taken no more answers than there are chunks, and every frame is answered
    obtain ⟨hlost, howed⟩ := ((hg.loc hl).failed _ he).2 rfl
    obtain ⟨lens, hlens, hd, _, _, hrel, _⟩ := (hg.loc hl').finished r hr
    obtain ⟨lens', ended, hsent, hle⟩ := howed rfl
    have hwire : wire dir input lens true <+: wire dir input lens' ended := by
      refine ⟨[], ?_⟩
      rw [List.append_nil, ← hd]
      exact hsent.log
    obtain ⟨rfl, _⟩ := wire_unique hs hlens hsent.len hwire
    have hpop : c.shared.popped .releases = (c.shared.log .releases).length := (hlost rfl).2
    omega

/-- The error an endpoint's call returned. -/
def failure (c : Config Actor Access Shared (fun _ => Outcome)) (a : Actor) : Option IoError := do
  let l ← c.result a
  match l.result with
  | some (.error e) => some e
  | _ => none

theorem idle_of_failure {c : Config Actor Access Shared (fun _ => Outcome)} {a : Actor}
    {e : IoError} (h : failure c a = some e) :
    ∃ l, c.Idle a l ∧ l.result = some (.error e) := by
  obtain ⟨l, hl, h⟩ := Option.bind_eq_some_iff.mp h
  refine ⟨l, Config.idle_of_result hl, ?_⟩
  split at h
  · next e' he =>
    cases h
    exact he
  · cases h

/-- An empty stream. -/
def emptyShape : StreamShape := ⟨0, 1, 1, by decide⟩

def emptyDirection : Direction := ⟨emptyShape, 1, frameFlags .parentToWorker, 4⟩

/-- The consumer is dropped before the producer begins. -/
def consumerGone : List (Script (sys 64 emptyDirection [])) :=
  List.flatten [
    [.call .consumer .drop, .run .consumer 0, .run .consumer 0, .call .producer .exact],
    List.replicate 19 (.run .producer 1),
    List.replicate 4 (.run .producer 2)]

theorem published_frames_kept_consumerGone :
    ∃ c, Reach (sys 64 emptyDirection []) NoCloseInGap (start newShared) c ∧
      failure c .producer = some peerClosedError ∧
      c.shared.popped .releases = (c.shared.log .releases).length := by
  have hdir : Direction.create 64 emptyShape 1 .parentToWorker 1 = .ok emptyDirection := rfl
  have hrun : ((sys 64 emptyDirection []).exec (start newShared) consumerGone).map
      (fun c => failure c .producer) = some (some peerClosedError) := by
    decide +kernel
  have hobeys : (sys 64 emptyDirection []).obeys (fun _ e s => match e with
      | .close a => !s.looking a.pushes
      | _ => true) (start newShared) consumerGone = true := by
    decide +kernel
  obtain ⟨c, hc, hv⟩ := Option.map_eq_some_iff.mp hrun
  have hreach : Reach (sys 64 emptyDirection []) NoCloseInGap (start newShared) c := by
    refine Sys.exec_obeys (fun i e s ht a he hl => ?_) .start hc hobeys
    subst he
    simp only [hl, Bool.not_true] at ht
    cases ht
  obtain ⟨l, hl, hr⟩ := idle_of_failure hv
  exact ⟨c, hreach, hv, ((published_frames_kept hdir newShared_fresh hreach).none_unread _ l hl hr).2⟩

/-- The producer's wait times out and finds nothing; the consumer takes the COMPLETE
frame, echoes it, returns Ok and is dropped; the producer looks at the socket. -/
def exitInGap : List (Script (sys 64 emptyDirection [])) :=
  List.flatten [
    [.call .producer .exact, .call .consumer .exact],
    List.replicate 19 (.run .producer 1),
    List.replicate 15 (.run .consumer 2),
    .call .consumer .drop :: List.replicate 2 (.run .consumer 2),
    List.replicate 4 (.run .producer 2)]

/-- The producer of a transfer that its consumer has completed fails with the echo
unread. -/
theorem echo_lost_to_exit :
    ∃ c, Reach (sys 64 emptyDirection []) anyAccess (start newShared) c ∧
      failure c .producer = some peerClosedError ∧ (reports c .consumer).isSome = true ∧
      c.shared.popped .releases = 0 ∧ (c.shared.log .releases).length = 1 ∧ ¬ FramesKept c := by
  have hrun : ((sys 64 emptyDirection []).exec (start newShared) exitInGap).map
      (fun c => (failure c .producer, (reports c .consumer).isSome, c.shared.popped .releases,
        (c.shared.log .releases).length)) = some (some peerClosedError, true, 0, 1) := by
    decide +kernel
  obtain ⟨c, hc, hv⟩ := Option.map_eq_some_iff.mp hrun
  simp only [Prod.mk.injEq] at hv
  obtain ⟨hfail, hok, hpop, hlog⟩ := hv
  refine ⟨c, Sys.exec_reach .start hc, hfail, hok, hpop, hlog, fun hk => ?_⟩
  obtain ⟨l, hl, hr⟩ := idle_of_failure hfail
  have hall : c.shared.popped .releases = (c.shared.log .releases).length :=
    (hk.none_unread .producer l hl hr).2
  omega

end Prescient.Ipc
